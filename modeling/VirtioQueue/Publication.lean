import VirtioQueue.Transfer

/-!
# Publishing across the rings

Each side publishes to the other in two writes, the contents first and the ring's `idx` after,
and each reads in two loads, `idx` first and the contents after.  The driver writes an entry
and then raises the available ring's `idx`; `pop_descriptor_chain` calls `iter`, which loads
`idx` into a cursor, and the cursor's `next` then loads the entry.  `add_used` writes the
element with `write_obj` and only then stores the used ring's `idx`, with `Release`; the driver
loads `idx` and then the element.  `Transfer` takes each call of the device as one atomic step,
so it does not tell whether a side ever loads what the other has not yet published.  Here the
device's two calls are two steps each, split between their two accesses (for `add_used`,
`Queue.addUsedElem` and `Queue.addUsedIdx` of `VirtioQueue.Queue`);
while it is in a call the device starts no other, and the driver runs freely.

The order of the accesses is what keeps the transfer intact.  A cursor runs up to an `idx` the
driver published, and the entry it loads lies in a slot the driver does not write again while
the entry is pending; so its `next` is the atomic `pop_descriptor_chain`, or takes nothing
(`Inv.step_next`).  While the element is written and `idx` not yet raised, the driver loads no
element past the old `idx`, and the slot written is none of those it may still load; once the
element is in its slot, `add_used` writes nothing new but `idx` (`Queue.addUsed_of_written`), so
the store is the atomic `add_used` (`Inv.step_store`).  Over every interleaving the rings still
refine the channels, and the driver loads exactly the elements returned, in order
(`run_split_refines`); and a schedule in which each call runs through is exactly a run of
`Transfer` (`run_atomic`), so the split system does all the atomic one does.

## Main definitions

* `Queue.usedSlot` — the guest address of the slot at `next_used`.
* `Publication.Phase`, `Publication.System`, `Publication.step`, `Publication.run` — the
  transfer, with the device in the middle of a call or in none.
* `Publication.PhaseInv`, `Publication.Inv` — the invariant: that of `Transfer`, and what the
  device's place in its call keeps.
* `Publication.atomic` — an action of `Transfer` as the steps of a call that runs through.

## Main results

* `Queue.addUsed_of_written` — with its element in place, `add_used` is its second half.
* `Publication.Inv.step_next`, `Publication.Inv.step_store` — the second halves are the atomic
  calls.
* `Publication.Inv.step`, `Publication.Inv.run` — every step keeps the invariant.
* `Publication.run_split_refines` — **neither side loads what the other has not published.**
* `Publication.run_atomic` — **the split system runs every atomic schedule.**
-/

namespace VirtioQueue

namespace GuestMemoryMmap

/-- Writing the byte a memory already holds changes nothing. -/
theorem writeByte_self (m : GuestMemoryMmap) {a : Nat} {b : BitVec 8} (h : m.bytes a = b) :
    m.writeByte a b = m := by
  cases m
  simp only [writeByte, mk.injEq, true_and]
  funext i
  split
  · next hi => rw [hi, ← h]
  · rfl

/-- Writing the bytes a memory already holds changes nothing. -/
theorem writeBytes_self (m : GuestMemoryMmap) (a : Nat) (bs : List (BitVec 8))
    (h : m.readBytes a bs.length = bs) : (m.writeBytes a bs).1 = m := by
  induction bs generalizing a with
  | nil => rfl
  | cons b bs ih =>
    simp only [List.length_cons, readBytes, List.cons.injEq] at h
    simp only [writeBytes]
    split
    · rw [m.writeByte_self h.1]
      exact ih (a + 1) h.2
    · rfl

/-- A `write_obj` of the bytes an object already has in memory changes nothing. -/
theorem writeObj_self (m : GuestMemoryMmap) (bs : List (BitVec 8)) (addr : GuestAddress)
    (h : m.readBytes addr.toNat bs.length = bs) : (m.writeObj bs addr).2 = m :=
  m.writeBytes_self _ bs h

end GuestMemoryMmap

namespace Queue

/-- The guest address of the used ring's slot at `next_used`, the one `add_used` writes. -/
def usedSlot (q : Queue) : Nat := q.usedRing.toNat + 4 + 8 * (q.nextUsed.toNat % q.size.toNat)

variable {q : Queue} {mem : GuestMemoryMmap} {headIndex : BitVec 16}

/-- The slot at `next_used` of a used ring that a memory serves lies below `2 ^ 64`. -/
theorem usedSlot_lt (hs : 0 < q.size.toNat) (hmap : UsedMapped mem q.usedRing q.size.toNat) :
    q.usedSlot < 2 ^ 64 := by
  have := Nat.mod_lt q.nextUsed.toNat hs
  have := hmap.noOverflow
  unfold usedSlot
  omega

/-- Below the size, over a memory that serves the used ring, the first half writes the whole
element into the slot at `next_used`. -/
theorem addUsedElem_of_mapped (hh : headIndex < q.size)
    (hmap : UsedMapped mem q.usedRing q.size.toNat) (len : BitVec 32) :
    let w := mem.writeObj (VirtqUsedElem.new (headIndex.setWidth 32) len).toBytes
      ⟨BitVec.ofNat 64 q.usedSlot⟩
    w.1 = .ok () ∧ q.addUsedElem mem headIndex len = some (.ok (), w.2) := by
  have hpos : 0 < q.size.toNat := Nat.lt_of_le_of_lt (Nat.zero_le _) (BitVec.lt_def.mp hh)
  have hs : q.size ≠ 0 := fun h0 => by rw [h0] at hpos; exact absurd hpos (by decide)
  have hm := Nat.mod_lt q.nextUsed.toNat hpos
  have hov := hmap.noOverflow
  have hU := usedSlot_lt hpos hmap
  have he : q.usedRing.checkedAdd (BitVec.ofNat 64 (4 + q.nextUsed.toNat % q.size.toNat * 8)) =
      some ⟨BitVec.ofNat 64 q.usedSlot⟩ :=
    GuestAddress.checkedAdd_ofNat (by unfold usedSlot at hU; omega) (by unfold usedSlot; omega)
  have hok : (mem.writeObj (VirtqUsedElem.new (headIndex.setWidth 32) len).toBytes
      ⟨BitVec.ofNat 64 q.usedSlot⟩).1 = .ok () :=
    GuestMemoryMmap.writeObj_ok _ _ fun i h1 h2 => by
      simp only [GuestAddress.toNat_mk, BitVec.toNat_ofNat, Nat.mod_eq_of_lt hU,
        VirtqUsedElem.length_toBytes, usedSlot] at h1 h2
      exact hmap.elems i (by omega) (by omega)
  refine ⟨hok, ?_⟩
  simp only [addUsedElem, BitVec.not_le.mpr hh, if_false, usedElemOffset_eq hs,
    Option.bind_eq_bind, Option.some_bind, Option.pure_def, he, hok]
  rfl

/-- Over a memory that serves the used ring, the second half advances both counters and stores
the new `next_used` into `idx`. -/
theorem addUsedIdx_of_mapped (hmap : UsedMapped mem q.usedRing q.size.toNat) :
    q.addUsedIdx mem = (.ok (), { q with nextUsed := q.nextUsed + 1, numAdded := q.numAdded + 1 },
      mem.write16 (q.usedRing.toNat + 2) (q.nextUsed + 1)) := by
  have h2 : q.usedRing.toNat + 2 < 2 ^ 64 := by have := hmap.noOverflow; omega
  have hi : q.usedRing.checkedAdd 2 = some ⟨BitVec.ofNat 64 (q.usedRing.toNat + 2)⟩ :=
    @GuestAddress.checkedAdd_ofNat _ 2 _ h2 rfl
  simp only [addUsedIdx, hi, GuestMemoryMmap.store_eq hmap.idx, GuestAddress.toNat_mk,
    BitVec.toNat_ofNat, Nat.mod_eq_of_lt h2]
  rfl

/-- Below the size, over a memory that serves the used ring, `add_used` is its second half made
against the memory its first half leaves. -/
theorem addUsed_eq_addUsedIdx (hh : headIndex < q.size)
    (hmap : UsedMapped mem q.usedRing q.size.toNat) (len : BitVec 32) :
    q.addUsed mem headIndex len = some (q.addUsedIdx (mem.writeObj
      (VirtqUsedElem.new (headIndex.setWidth 32) len).toBytes ⟨BitVec.ofNat 64 q.usedSlot⟩).2) := by
  obtain ⟨-, hw⟩ := addUsedElem_of_mapped hh hmap len
  rw [addUsed_halves, hw]
  rfl

/-- **Once its element is in place, `add_used` writes only `idx`**: over a memory whose slot at
`next_used` already holds the element, the call is its own second half. -/
theorem addUsed_of_written (hh : headIndex < q.size)
    (hmap : UsedMapped mem q.usedRing q.size.toNat) {len : BitVec 32}
    (hslot : mem.readBytes q.usedSlot 8 = (VirtqUsedElem.new (headIndex.setWidth 32) len).toBytes) :
    q.addUsed mem headIndex len = some (q.addUsedIdx mem) := by
  have hU := usedSlot_lt (Nat.lt_of_le_of_lt (Nat.zero_le _) (BitVec.lt_def.mp hh)) hmap
  rw [addUsed_eq_addUsedIdx hh hmap, GuestMemoryMmap.writeObj_self]
  rwa [GuestAddress.toNat_mk, BitVec.toNat_ofNat, Nat.mod_eq_of_lt hU,
    VirtqUsedElem.length_toBytes]

end Queue

namespace Publication

/-! ### The system -/

/-- Where the device is in a call that reaches the rings twice. -/
inductive Phase where
  /-- In no call. -/
  | idle
  /-- In `pop_descriptor_chain`: `iter` read `idx` and made the cursor `it`, whose `next` has
  yet to read an entry. -/
  | popping (it : AvailIter)
  /-- In `add_used` for the chain at `h` with `len` bytes written: the element is written, and
  `idx` has yet to be stored. -/
  | adding (h : BitVec 16) (len : BitVec 32)
  deriving DecidableEq, Repr

/-- The transfer, and where the device is in its call. -/
structure System extends Transfer.System where
  /-- Where the device is in its call. -/
  phase : Phase

/-- The system before any transfer, the device in no call. -/
def System.init (q : Queue) (mem : GuestMemoryMmap) : System :=
  ⟨Transfer.System.init q mem, .idle⟩

/-- A step of one side: those of `Transfer`, with the device's `pop_descriptor_chain` and
`add_used` each in two. -/
inductive Action where
  /-- The driver writes the head `h` into the available ring at its `idx`. -/
  | stage (h : BitVec 16)
  /-- The driver raises the available ring's `idx` past the staged head. -/
  | publish
  /-- The device calls `pop_descriptor_chain`, which calls `iter`: it reads `idx`. -/
  | iter
  /-- The cursor's `next`, the rest of `pop_descriptor_chain`: it reads an entry. -/
  | next
  /-- The device calls `go_to_previous_position`. -/
  | unpop
  /-- The device calls `add_used` for its chain at `h` with `len` bytes written, and runs it
  up to its `write_obj`. -/
  | write (h : BitVec 16) (len : BitVec 32)
  /-- The rest of `add_used`, the `store` of `idx`. -/
  | store
  /-- The driver reads the used ring's `idx`, and the next element if there is one. -/
  | reclaim
  deriving DecidableEq, Repr

/-- One step.  The driver's steps are those of `Transfer`.  The device starts a call only when it
is in none, calls `add_used` only for a chain it holds, and finishes the call it is in. -/
def step (S : System) : Action → System
  | .stage h => { S with toSystem := Transfer.step S.toSystem (.stage h) }
  | .publish => { S with toSystem := Transfer.step S.toSystem .publish }
  | .iter =>
    if S.phase = .idle then
      match S.q.iter S.mem with
      | .ok it => { S with phase := .popping it }
      | .error _ => S
    else S
  | .next =>
    match S.phase with
    | .popping it =>
      match it.next S.q S.mem with
      | some (some h, q) =>
        { S with
          q
          phase := .idle
          chans :=
            { S.chans with
              taken := S.chans.taken ++ [h]
              avail := S.chans.avail.tail
              inflight := S.chans.inflight ++ [h] } }
      | some (none, q) => { S with q, phase := .idle }
      | none => { S with failed := true }
    | _ => S
  | .unpop =>
    if S.phase = .idle then { S with toSystem := Transfer.step S.toSystem .unpop } else S
  | .write h len =>
    if S.phase = .idle ∧ h ∈ S.chans.inflight then
      match S.q.addUsedElem S.mem h len with
      | some (.ok (), mem) => { S with mem, phase := .adding h len }
      | _ => { S with failed := true }
    else S
  | .store =>
    match S.phase with
    | .adding h len =>
      match S.q.addUsedIdx S.mem with
      | (.ok (), q, mem) =>
        { S with
          q
          mem
          phase := .idle
          chans :=
            { S.chans with
              inflight := S.chans.inflight.erase h
              returned := S.chans.returned ++ [Transfer.usedElem h len]
              used := S.chans.used ++ [Transfer.usedElem h len] } }
      | _ => { S with failed := true }
    | _ => S
  | .reclaim => { S with toSystem := Transfer.step S.toSystem .reclaim }

/-- The steps of a schedule, one after another. -/
def run (S : System) : List Action → System
  | [] => S
  | a :: as => run (step S a) as

/-! ### The invariant -/

/-- What the device's place in its call keeps: a cursor over the queue's rings, up to an `idx`
no further than the driver published; or, in `add_used`, a chain in flight whose element is in
the slot at `next_used`. -/
def PhaseInv (q : Queue) (mem : GuestMemoryMmap) (c : Transfer.Channels) : Phase → Prop
  | .idle => True
  | .popping it =>
    ∃ idx, it = AvailIter.new idx q ∧ (idx - q.nextAvail).toNat ≤ c.avail.length
  | .adding h len =>
    h ∈ c.inflight ∧ mem.readBytes q.usedSlot 8 = (Transfer.usedElem h len).toBytes

/-- A step of the driver keeps the device's place: it leaves the chains in flight and the slot
at `next_used`, and publishes heads, never takes them. -/
theorem PhaseInv.of_driver {q : Queue} {mem mem' : GuestMemoryMmap} {c c' : Transfer.Channels}
    {ph : Phase} (h : PhaseInv q mem c ph) (hin : c'.inflight = c.inflight)
    (hav : c.avail.length ≤ c'.avail.length)
    (hslot : mem'.readBytes q.usedSlot 8 = mem.readBytes q.usedSlot 8) :
    PhaseInv q mem' c' ph := by
  cases ph with
  | idle => trivial
  | popping it =>
    obtain ⟨idx, hit, hle⟩ := h
    exact ⟨idx, hit, hle.trans hav⟩
  | adding x len => exact ⟨hin ▸ h.1, hslot.trans h.2⟩

/-- The invariant of every run: that of `Transfer`, and what the device's place keeps. -/
structure Inv (S : System) extends Transfer.Inv S.toSystem : Prop where
  phase : PhaseInv S.q S.mem S.chans S.phase

/-- The invariant holds before any transfer. -/
theorem Inv.init {m : BitVec 16} {q : Queue} {mem : GuestMemoryMmap} (h : Transfer.Start m q mem) :
    Inv (System.init q mem) :=
  ⟨Transfer.Inv.init h, trivial⟩

/-! ### Frames of the element write -/

section Slot

variable {q : Queue} {mem mem' : GuestMemoryMmap}

/-- A halfword write off the used ring's elements leaves the slot at `next_used`. -/
theorem readBytes_usedSlot_write16 {a : Nat} (v : BitVec 16) (hs : 0 < q.size.toNat)
    (h : a + 2 ≤ q.usedRing.toNat + 4 ∨ q.usedRing.toNat + 4 + 8 * q.size.toNat ≤ a) :
    (mem.write16 a v).readBytes q.usedSlot 8 = mem.readBytes q.usedSlot 8 := by
  have := Nat.mod_lt q.nextUsed.toNat hs
  exact GuestMemoryMmap.readBytes_congr fun _ _ _ =>
    Transfer.bytes_write16_of_lt v (by unfold Queue.usedSlot at *; omega)

/-- A successful `write_obj` of an element into the slot at `next_used` keeps the regions,
changes no byte outside the slot, and leaves the element there. -/
theorem writeObj_usedSlot {e : VirtqUsedElem} (hU : q.usedSlot < 2 ^ 64)
    (hok : (mem.writeObj e.toBytes ⟨BitVec.ofNat 64 q.usedSlot⟩).1 = .ok ()) :
    let mem' := (mem.writeObj e.toBytes ⟨BitVec.ofNat 64 q.usedSlot⟩).2
    mem'.regions = mem.regions ∧
      (∀ i, i < q.usedSlot ∨ q.usedSlot + 8 ≤ i → mem'.bytes i = mem.bytes i) ∧
      mem'.readBytes q.usedSlot 8 = e.toBytes := by
  have ha : (⟨BitVec.ofNat 64 q.usedSlot⟩ : GuestAddress).toNat = q.usedSlot := by
    rw [GuestAddress.toNat_mk, BitVec.toNat_ofNat, Nat.mod_eq_of_lt hU]
  refine ⟨mem.regions_writeObj _ _, fun i h => mem.writeObj_bytes_of_lt _ ?_, ?_⟩
  · rwa [ha, VirtqUsedElem.length_toBytes]
  · have hr := GuestMemoryMmap.readBytes_writeObj hok
    rwa [ha, VirtqUsedElem.length_toBytes] at hr

variable (hs : 0 < q.size.toNat)
  (hout : ∀ i, i < q.usedSlot ∨ q.usedSlot + 8 ≤ i → mem'.bytes i = mem.bytes i)
include hs hout

/-- A write of the slot at `next_used` leaves every halfword off the used ring's elements. -/
theorem read16_of_usedSlot {a : Nat}
    (h : a + 2 ≤ q.usedRing.toNat + 4 ∨ q.usedRing.toNat + 4 + 8 * q.size.toNat ≤ a) :
    mem'.read16 a = mem.read16 a := by
  have := Nat.mod_lt q.nextUsed.toNat hs
  exact GuestMemoryMmap.read16_congr (hout _ (by unfold Queue.usedSlot; omega))
    (hout _ (by unfold Queue.usedSlot; omega))

/-- A write of the slot at `next_used`, with fewer than `size` elements pending, keeps what the
used ring holds: `idx`, and the pending elements in their other slots. -/
theorem UsedInv.of_usedSlot {lastUsed : BitVec 16} {used : List VirtqUsedElem}
    (h : Transfer.UsedInv q mem lastUsed used) (hdvd : q.size.toNat ∣ 2 ^ 16)
    (hlen : used.length < q.size.toNat) : Transfer.UsedInv q mem' lastUsed used := by
  refine ⟨(read16_of_usedSlot hs hout (by omega)).trans h.idx, h.count, fun j hj => ?_⟩
  rw [← h.elems j hj]
  have hne := h.slot_ne hdvd hlen hj
  have := Nat.mod_lt (lastUsed.toNat + j) hs
  exact congrArg VirtqUsedElem.ofBytes (GuestMemoryMmap.readBytes_congr fun b h1 h2 =>
    hout b (by unfold Queue.usedSlot; omega))

end Slot

/-! ### What each step keeps -/

section Steps

variable {S : System}

/-- A step of the driver keeps the invariant when it leaves the queue, the chains in flight and
the slot at `next_used`, and takes no head. -/
theorem Inv.lift (hi : Inv S) (a : Transfer.Action)
    (hq : (Transfer.step S.toSystem a).q = S.q)
    (hin : (Transfer.step S.toSystem a).chans.inflight = S.chans.inflight)
    (hav : S.chans.avail.length ≤ (Transfer.step S.toSystem a).chans.avail.length)
    (hslot : (Transfer.step S.toSystem a).mem.readBytes S.q.usedSlot 8 =
      S.mem.readBytes S.q.usedSlot 8) :
    Inv { S with toSystem := Transfer.step S.toSystem a } :=
  ⟨hi.toInv.step a, by
    show PhaseInv (Transfer.step S.toSystem a).q _ _ S.phase
    rw [hq]
    exact hi.phase.of_driver hin hav hslot⟩

/-- A call the device makes in one step keeps the invariant, when it is in no other. -/
theorem Inv.idle (hi : Inv S) (hp : S.phase = .idle) (a : Transfer.Action) :
    Inv { S with toSystem := Transfer.step S.toSystem a } :=
  ⟨hi.toInv.step a, by show PhaseInv _ _ _ S.phase; rw [hp]; trivial⟩

theorem Inv.stage (hi : Inv S) (x : BitVec 16) : Inv (step S (.stage x)) := by
  have hap := hi.apart
  unfold RingsApart at hap
  have := Nat.mod_lt S.drv.availIdx.toNat hi.size_pos
  refine hi.lift _ ?_ ?_ ?_ ?_ <;> simp only [Transfer.step] <;> split_ifs <;> try rfl
  exact readBytes_usedSlot_write16 _ hi.size_pos (by omega)

theorem Inv.publish (hi : Inv S) : Inv (step S .publish) := by
  have hap := hi.apart
  unfold RingsApart at hap
  refine hi.lift _ ?_ ?_ ?_ ?_ <;> simp only [Transfer.step] <;> split <;> try rfl
  · exact Nat.le_of_lt (by simp)
  · exact readBytes_usedSlot_write16 _ hi.size_pos (by omega)

theorem Inv.reclaim (hi : Inv S) : Inv (step S .reclaim) := by
  refine hi.lift _ ?_ ?_ ?_ ?_ <;> simp only [Transfer.step] <;> split_ifs <;> rfl

theorem Inv.unpop (hi : Inv S) : Inv (step S .unpop) := by
  simp only [step]
  split_ifs with hp
  · exact hi.idle hp _
  · exact hi

/-- The first half of `pop_descriptor_chain` keeps the invariant: the cursor it makes runs up
to the `idx` the driver last published. -/
theorem Inv.iter (hi : Inv S) : Inv (step S .iter) := by
  simp only [step]
  split_ifs
  · rw [Queue.iter_of_mapped hi.availMapped]
    exact ⟨hi.toInv, _, rfl, by rw [hi.availRing.idx, hi.availRing.count]⟩
  · exact hi

/-- **The cursor's `next` is the atomic `pop_descriptor_chain`**, or takes nothing.  With the
cursor up to `idx`, it takes nothing when `next_avail` is there, and otherwise leaves the system
where `Transfer`'s atomic `pop_descriptor_chain`, made from here, would: the entry it reads was
published before `idx`, and the driver has not written its slot since. -/
theorem Inv.step_next (hi : Inv S) {idx : BitVec 16}
    (hp : S.phase = .popping (AvailIter.new idx S.q)) :
    step S .next = if S.q.nextAvail = idx then { S with phase := .idle }
      else ⟨Transfer.step S.toSystem .pop, .idle⟩ := by
  have hle : (idx - S.q.nextAvail).toNat ≤ S.chans.avail.length := by
    obtain ⟨idx', hit, hle⟩ : PhaseInv S.q S.mem S.chans (.popping (AvailIter.new idx S.q)) :=
      hp ▸ hi.phase
    rwa [show idx = idx' from congrArg AvailIter.lastIndex hit]
  simp only [step, hp, AvailIter.next_of_mapped _ hi.size_pos hi.availMapped]
  split_ifs with h
  · rfl
  · have hne : S.q.nextAvail ≠ S.drv.availIdx := fun he => by
      have hnil := hi.availRing.eq_iff_nil.mp he
      rw [hnil, List.length_nil, Nat.le_zero] at hle
      exact h (eq_of_sub_toNat_eq_zero hle)
    simp only [Transfer.step, Queue.popDescriptorChain_eq hi.size_pos hi.availMapped,
      hi.availRing.idx, if_neg hne]

theorem Inv.next (hi : Inv S) : Inv (step S .next) := by
  cases hp : S.phase with
  | popping it =>
    obtain ⟨idx, rfl, -⟩ : PhaseInv S.q S.mem S.chans (.popping it) := hp ▸ hi.phase
    rw [hi.step_next hp]
    split_ifs
    · exact ⟨hi.toInv, trivial⟩
    · exact ⟨hi.toInv.step .pop, trivial⟩
  | idle | adding _ _ =>
    simp only [step, hp]
    exact hi

/-- The first half of `add_used` keeps the invariant: the element goes into the slot at
`next_used`, which holds none of the pending elements and lies apart from the available ring. -/
theorem Inv.write (hi : Inv S) (x : BitVec 16) (len : BitVec 32) :
    Inv (step S (.write x len)) := by
  simp only [step]
  split_ifs with hg
  · obtain ⟨-, hmem⟩ := hg
    have hs := hi.size_pos
    have hx : x < S.q.size := hi.chans.heads x (List.mem_append_right _ hmem)
    obtain ⟨hok, hw⟩ := Queue.addUsedElem_of_mapped hx hi.usedMapped len
    obtain ⟨hreg, hout, hslot⟩ := writeObj_usedSlot (Queue.usedSlot_lt hs hi.usedMapped) hok
    rw [hw]
    generalize (S.mem.writeObj (VirtqUsedElem.new (x.setWidth 32) len).toBytes
      ⟨BitVec.ofNat 64 S.q.usedSlot⟩).2 = mem' at hreg hout hslot ⊢
    have hlen : S.chans.used.length < S.q.size.toNat := by
      have := hi.chans.budget
      have := List.length_pos_of_mem hmem
      simp only [Transfer.Channels.outstanding] at *
      omega
    have hap := hi.apart
    unfold RingsApart at hap
    have hav : ∀ i, availEntry mem' S.q.availRing S.q.size.toNat i =
        availEntry S.mem S.q.availRing S.q.size.toNat i := fun i => by
      have := Nat.mod_lt i hs
      exact read16_of_usedSlot hs hout (by omega)
    exact ⟨{ hi.toInv with
      availMapped := hi.availMapped.of_regions hreg
      usedMapped := hi.usedMapped.of_regions hreg
      availRing := hi.availRing.of_same (read16_of_usedSlot hs hout (by omega)) hav
      availBack := hi.availBack.of_same hav
      usedRing := UsedInv.of_usedSlot hs hout hi.usedRing hi.size_dvd hlen }, hmem, hslot⟩
  · exact hi

/-- **The store of `idx` is the atomic `add_used`.**  In `add_used`, the second half leaves the
system where `Transfer`'s atomic `add_used` of the same chain, made from here, would: the element
is in its slot already. -/
theorem Inv.step_store (hi : Inv S) {x : BitVec 16} {len : BitVec 32}
    (hp : S.phase = .adding x len) :
    step S .store = ⟨Transfer.step S.toSystem (.complete x len), .idle⟩ := by
  obtain ⟨hin, hslot⟩ : PhaseInv S.q S.mem S.chans (.adding x len) := hp ▸ hi.phase
  have hx : x < S.q.size := hi.chans.heads x (List.mem_append_right _ hin)
  simp only [step, hp, Queue.addUsedIdx_of_mapped hi.usedMapped, Transfer.step, if_pos hin,
    Queue.addUsed_of_written hx hi.usedMapped hslot]

theorem Inv.store (hi : Inv S) : Inv (step S .store) := by
  cases hp : S.phase with
  | adding x len =>
    rw [hi.step_store hp]
    exact ⟨hi.toInv.step (.complete x len), trivial⟩
  | idle | popping _ =>
    simp only [step, hp]
    exact hi

/-- **Every step keeps the invariant.** -/
theorem Inv.step (hi : Inv S) : ∀ a, Inv (step S a)
  | .stage x => hi.stage x
  | .publish => hi.publish
  | .iter => hi.iter
  | .next => hi.next
  | .unpop => hi.unpop
  | .write x len => hi.write x len
  | .store => hi.store
  | .reclaim => hi.reclaim

/-- The run lemma: the invariant holds after every schedule. -/
theorem Inv.run (hi : Inv S) (sched : List Action) : Inv (run S sched) := by
  induction sched generalizing S with
  | nil => exact hi
  | cons a as ih => exact ih (hi.step a)

/-- Every step is a step of the channels, or leaves them, and keeps the size: the first halves
move no channel, and the second halves are the channels' pop and completion. -/
theorem Inv.step_chans (hi : Inv S) (a : Action) :
    (Publication.step S a).q.size = S.q.size ∧ ((Publication.step S a).chans = S.chans ∨
      ∃ a', (Publication.step S a).chans = S.chans.step S.q.size a') := by
  have hT (b : Transfer.Action) :
      (Transfer.step S.toSystem b).q.size = S.q.size ∧ ((Transfer.step S.toSystem b).chans =
        S.chans ∨ ∃ a', (Transfer.step S.toSystem b).chans = S.chans.step S.q.size a') :=
    ⟨Transfer.step_size _ _, .inr ⟨b, (hi.toInv.step_rel b).1⟩⟩
  have hS : S.q.size = S.q.size ∧ (S.chans = S.chans ∨
      ∃ a', S.chans = S.chans.step S.q.size a') := ⟨rfl, .inl rfl⟩
  cases a with
  | stage x => exact hT _
  | publish => exact hT _
  | reclaim => exact hT _
  | unpop =>
    rw [Publication.step]
    by_cases hp : S.phase = .idle
    · rw [if_pos hp]
      exact hT _
    · rw [if_neg hp]
      exact hS
  | iter =>
    rw [Publication.step]
    by_cases hp : S.phase = .idle
    · rw [if_pos hp]
      split <;> exact hS
    · rw [if_neg hp]
      exact hS
  | write x len =>
    rw [Publication.step]
    by_cases hg : S.phase = .idle ∧ x ∈ S.chans.inflight
    · rw [if_pos hg]
      split <;> exact hS
    · rw [if_neg hg]
      exact hS
  | next =>
    cases hp : S.phase with
    | popping it =>
      obtain ⟨idx, rfl, -⟩ : PhaseInv S.q S.mem S.chans (.popping it) := hp ▸ hi.phase
      rw [hi.step_next hp]
      split_ifs
      exacts [hS, hT _]
    | idle | adding _ _ =>
      rw [Publication.step, hp]
      exact hS
  | store =>
    cases hp : S.phase with
    | adding x len =>
      rw [hi.step_store hp]
      exact hT _
    | idle | popping _ =>
      rw [Publication.step, hp]
      exact hS

/-- Over a whole run, what the two sides exchanged is a run of the channels. -/
theorem Inv.run_chans (hi : Inv S) (sched : List Action) :
    ∃ cs, (Publication.run S sched).chans = S.chans.run S.q.size cs := by
  induction sched generalizing S with
  | nil => exact ⟨[], rfl⟩
  | cons a as ih =>
    obtain ⟨cs, hcs⟩ := ih (hi.step a)
    obtain ⟨hsize, h | ⟨a', h⟩⟩ := hi.step_chans a
    · exact ⟨cs, by rw [Publication.run, hcs, hsize, h]⟩
    · exact ⟨a' :: cs, by rw [Publication.run, hcs, hsize, h]; rfl⟩

end Steps

/-! ### Calls that run through -/

/-- An action of `Transfer` as steps of the split system: a call of the device runs through,
its two halves one after the other. -/
def atomic : Transfer.Action → List Action
  | .stage h => [.stage h]
  | .publish => [.publish]
  | .pop => [.iter, .next]
  | .unpop => [.unpop]
  | .complete h len => [.write h len, .store]
  | .reclaim => [.reclaim]

theorem run_append (S : System) (l₁ l₂ : List Action) :
    run S (l₁ ++ l₂) = run (run S l₁) l₂ := by
  induction l₁ generalizing S with
  | nil => rfl
  | cons a as ih => exact ih _

section Atomic

variable {S : System}

/-- A call that runs through, from a state in which the device is in no call, leaves the system
where `Transfer`'s atomic step does. -/
theorem Inv.atomic_step (hi : Inv S) (hp : S.phase = .idle) :
    ∀ a, Publication.run S (atomic a) = ⟨Transfer.step S.toSystem a, .idle⟩
  | .stage _ | .publish | .reclaim => by
    obtain ⟨T, ph⟩ := S
    cases hp
    rfl
  | .unpop => by
    obtain ⟨T, ph⟩ := S
    cases hp
    rw [atomic, Publication.run, Publication.step, if_pos rfl]
    rfl
  | .pop => by
    have h1 : Publication.step S .iter =
        { S with phase := .popping (AvailIter.new S.drv.availIdx S.q) } := by
      rw [Publication.step, if_pos hp, Queue.iter_of_mapped hi.availMapped, hi.availRing.idx]
    have hi1 := hi.iter
    rw [h1] at hi1
    show Publication.step (Publication.step S .iter) .next = _
    rw [h1, hi1.step_next rfl]
    split_ifs with he
    · simp only [Transfer.step, Queue.popDescriptorChain_eq hi.size_pos hi.availMapped,
        hi.availRing.idx, if_pos he]
    · rfl
  | .complete x len => by
    by_cases hin : x ∈ S.chans.inflight
    · have hx : x < S.q.size := hi.chans.heads x (List.mem_append_right _ hin)
      obtain ⟨hok, hw⟩ := Queue.addUsedElem_of_mapped hx hi.usedMapped len
      obtain ⟨hreg, -, hslot⟩ := writeObj_usedSlot (Queue.usedSlot_lt hi.size_pos hi.usedMapped) hok
      have hmap := hi.usedMapped.of_regions hreg
      have h1 : Publication.step S (.write x len) = { S with
          mem := (S.mem.writeObj (VirtqUsedElem.new (x.setWidth 32) len).toBytes
            ⟨BitVec.ofNat 64 S.q.usedSlot⟩).2
          phase := .adding x len } := by
        rw [Publication.step, if_pos ⟨hp, hin⟩, hw]
      have hi1 := hi.write x len
      rw [h1] at hi1
      show Publication.step (Publication.step S (.write x len)) .store = _
      rw [h1, hi1.step_store rfl]
      simp only [Transfer.step, if_pos hin, Queue.addUsed_eq_addUsedIdx hx hi.usedMapped,
        Queue.addUsed_of_written hx hmap hslot, Queue.addUsedIdx_of_mapped hmap]
    · have h1 : Publication.step S (.write x len) = S := by
        rw [Publication.step, if_neg fun h => hin h.2]
      show Publication.step (Publication.step S (.write x len)) .store = _
      rw [h1, Publication.step, hp]
      simp only [Transfer.step, if_neg hin]
      obtain ⟨T, ph⟩ := S
      cases hp
      rfl

/-- Over a whole schedule of `Transfer`, from a state in which the device is in no call. -/
theorem Inv.run_atomic_of_idle (hi : Inv S) (hp : S.phase = .idle)
    (sched : List Transfer.Action) :
    Publication.run S (sched.flatMap atomic) = ⟨Transfer.run S.toSystem sched, .idle⟩ := by
  induction sched generalizing S with
  | nil =>
    obtain ⟨T, ph⟩ := S
    cases hp
    rfl
  | cons a as ih =>
    rw [List.flatMap_cons, run_append, hi.atomic_step hp a]
    exact ih ⟨hi.toInv.step a, trivial⟩ rfl

end Atomic

/-! ### Runs from the start -/

/-- **Neither side sees an entry or an element half published.**  From a start, run the driver
and the device in any interleaving, with the device's `pop_descriptor_chain` split between its
read of `idx` and its read of the entry, its `add_used` split between the write of the element
and the store of `idx`, and the driver free to run in between.  No call fails; what the two
sides exchanged is a run of the channels, so the device takes exactly the heads published, in
order; and at every point, in the middle of a call of the device too, the driver's reclaim reads
the oldest element returned and not yet reclaimed, if there is one, and nothing else: never an
element written and not yet published. -/
theorem run_split_refines {m : BitVec 16} {q : Queue} {mem : GuestMemoryMmap}
    (h : Transfer.Start m q mem) (sched : List Action) :
    let S := run (System.init q mem) sched
    S.failed = false ∧ (∃ cs, S.chans = Transfer.Channels.init.run q.size cs) ∧
      (step S .reclaim).chans.reclaimed =
        S.chans.reclaimed ++ (S.chans.returned.drop S.chans.reclaimed.length).take 1 := by
  intro S
  have hi : Inv S := (Inv.init h).run sched
  refine ⟨hi.ok, (Inv.init h).run_chans sched, ?_⟩
  show (Transfer.step S.toSystem .reclaim).chans.reclaimed = _
  rw [(hi.toInv.step_rel .reclaim).1, Transfer.Channels.step_reclaim_reclaimed,
    ← hi.chans.reclaimed_used, List.drop_left]

/-- The driver stages head `1`; the device reads `idx` before the driver publishes it; the
device's `next` takes nothing, a second pop takes the head, and the device writes its element;
the driver tries to reclaim before the device stores `idx`. -/
theorem run_split_refines_two :
    let q : Queue := { Queue.new 2 with availRing := ⟨0x100⟩, usedRing := ⟨0x200⟩ }
    let mem : GuestMemoryMmap := ⟨[⟨0, 0x1000⟩], fun _ => 0⟩
    let sched : List Action :=
      [.stage 1, .iter, .publish, .next, .iter, .next, .write 1 0x10, .reclaim]
    Transfer.Start 2 q mem ∧ (run (System.init q mem) sched).failed = false :=
  ⟨Transfer.twoEntryRings_start, (run_split_refines Transfer.twoEntryRings_start _).1⟩

/-- In the run of `run_split_refines_two`, the first `next` takes nothing, the second takes
head `1`, the reclaim between the halves of `add_used` reads nothing, and after the store of
`idx` it reads the element. -/
example :
    let q : Queue := { Queue.new 2 with availRing := ⟨0x100⟩, usedRing := ⟨0x200⟩ }
    let mem : GuestMemoryMmap := ⟨[⟨0, 0x1000⟩], fun _ => 0⟩
    (run (System.init q mem) [.stage 1, .iter, .publish, .next]).chans.taken = [] ∧
    (run (System.init q mem)
      [.stage 1, .iter, .publish, .next, .iter, .next, .write 1 0x10, .reclaim]).chans =
      { Transfer.Channels.init with published := [1], taken := [1], inflight := [1] } ∧
    (run (System.init q mem) [.stage 1, .iter, .publish, .next, .iter, .next, .write 1 0x10,
      .reclaim, .store, .reclaim]).chans.reclaimed = [Transfer.usedElem 1 0x10] := by
  decide

/-- **The split system runs every atomic schedule.**  From a start, a schedule of `Transfer` in
which each call of the device runs through, its two halves one after the other, gives exactly
the run of `Transfer`, with the device in no call at the end: the split system does all the
atomic one does, and by `run_split_refines` nothing the channels do not. -/
theorem run_atomic {m : BitVec 16} {q : Queue} {mem : GuestMemoryMmap}
    (h : Transfer.Start m q mem) (sched : List Transfer.Action) :
    run (System.init q mem) (sched.flatMap atomic) =
      ⟨Transfer.run (Transfer.System.init q mem) sched, .idle⟩ :=
  (Inv.init h).run_atomic_of_idle rfl sched

/-- The transfer of head `1`, with each call of the device run through. -/
theorem run_atomic_two :
    let q : Queue := { Queue.new 2 with availRing := ⟨0x100⟩, usedRing := ⟨0x200⟩ }
    let mem : GuestMemoryMmap := ⟨[⟨0, 0x1000⟩], fun _ => 0⟩
    let sched : List Transfer.Action := [.stage 1, .publish, .pop, .complete 1 0x10, .reclaim]
    Transfer.Start 2 q mem ∧ run (System.init q mem) (sched.flatMap atomic) =
      ⟨Transfer.run (Transfer.System.init q mem) sched, .idle⟩ :=
  ⟨Transfer.twoEntryRings_start, run_atomic Transfer.twoEntryRings_start _⟩

end Publication

end VirtioQueue
