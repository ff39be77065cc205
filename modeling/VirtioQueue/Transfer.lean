import VirtioQueue.Serve
import VirtioQueue.Channels

/-!
# Moving chains through the rings

The queue exists to carry descriptor chains from the driver to the device and back.  The
driver writes the head of a chain into the available ring at its `idx`, then raises `idx`; the
device takes chains with `pop_descriptor_chain` and returns them with `add_used`, in any order,
or gives back the chain it took last with `go_to_previous_position`; the driver reads the used
ring's `idx` and takes the elements below it.  Both sides run concurrently over the same guest
memory, under sequential consistency, and each call of `queue.rs` is one atomic step.  The
driver's publication is two steps, the write of the entry and the write of `idx`, so that the
device may run between them.

The driver hands out at most `size` descriptors at a time: a chain it published counts until
it reclaimed its element from the used ring.  That is all the flow control the rings have, and
it is enough: over every interleaving, the rings behave as the two channels of `Channels`, and
no call of the device fails (`run_refines`).  So the device takes exactly the heads the driver
published, in order, returns each at most once, and the driver reclaims exactly the elements
the device returned, in order (`run_in_order`); and from every state the two sides can bring
every chain in progress back to the driver (`run_finish_returns`).  A chain given back is
still in its slot behind `next_avail`, since the driver does not write that slot again while
the device holds the chain, so the next pop takes it again (`unpop_pop`).

The state carries the channels as ghost state, updated from what the calls return and what the
driver reads.

## Main definitions

* `Driver`, `System` — the driver, and the system of both sides over the guest memory.
* `step`, `run` — the interleaved system, with the actions of `Channels`.
* `AvailInv`, `AvailBack`, `UsedInv`, `Rel` — what the rings hold, in terms of the channels.
* `Inv` — the invariant of every run.

## Main results

* `Inv.step_rel` — every step of the rings is the step of the channels, and keeps the relation.
* `run_refines` — **the rings refine the channels, and no call fails.**
* `run_in_order` — no chain is lost, duplicated or reordered.
* `run_finish_returns` — every chain in progress can be brought back.
* `unpop_pop` — a chain given back is taken again by the next pop.
-/

namespace VirtioQueue

namespace Transfer

/-! ### The system -/

/-- What the driver keeps of the transfer. -/
structure Driver where
  /-- The available ring's `idx` as the driver last wrote it. -/
  availIdx : BitVec 16
  /-- The head written into the available ring at `availIdx` and not yet published. -/
  staged : Option (BitVec 16)
  /-- The next used-ring position the driver reads. -/
  lastUsed : BitVec 16
  /-- The descriptors handed to the device and not yet reclaimed, the staged one included. -/
  outstanding : Nat

/-- The driver, the device's queue, the guest memory they share, and the channels. -/
structure System where
  /-- The device's queue. -/
  q : Queue
  /-- The shared guest memory. -/
  mem : GuestMemoryMmap
  /-- The driver. -/
  drv : Driver
  /-- The transfer as the channels see it, read off what the calls return. -/
  chans : Channels
  /-- Whether a call of the device panicked or returned an error. -/
  failed : Bool

/-- The system before any transfer: the driver's indices are the device's. -/
def System.init (q : Queue) (mem : GuestMemoryMmap) : System :=
  ⟨q, mem, ⟨q.nextAvail, none, q.nextUsed, 0⟩, .init, false⟩

/-- One step.  A side whose step is not enabled does nothing: the driver stages only with a
descriptor to spare and nothing staged, the device completes only a chain it holds, and gives
back with `go_to_previous_position` only the chain it took last, while it holds it.  The
device's take is the head `pop_descriptor_chain` returns, and the driver's the element it reads
from the used ring. -/
def step (S : System) : Action → System
  | .stage h =>
    if S.drv.staged = none ∧ S.drv.outstanding < S.q.size.toNat ∧ h < S.q.size then
      { S with
        mem := S.mem.write16
          (S.q.availRing.toNat + 4 + 2 * (S.drv.availIdx.toNat % S.q.size.toNat)) h
        drv := { S.drv with staged := some h, outstanding := S.drv.outstanding + 1 }
        chans := { S.chans with staged := some h } }
    else S
  | .publish =>
    match S.drv.staged with
    | none => S
    | some h =>
      { S with
        mem := S.mem.write16 (S.q.availRing.toNat + 2) (S.drv.availIdx + 1)
        drv := { S.drv with availIdx := S.drv.availIdx + 1, staged := none }
        chans :=
          { S.chans with
            staged := none
            published := S.chans.published ++ [h]
            avail := S.chans.avail ++ [h] } }
  | .pop =>
    match S.q.popDescriptorChain S.mem with
    | some (some h, q) =>
      { S with
        q
        chans :=
          { S.chans with
            taken := S.chans.taken ++ [h]
            avail := S.chans.avail.tail
            inflight := S.chans.inflight ++ [h] } }
    | some (none, q) => { S with q }
    | none => { S with failed := true }
  | .unpop =>
    match S.chans.taken.getLast? with
    | none => S
    | some h =>
      if h ∈ S.chans.inflight then
        { S with
          q := S.q.goToPreviousPosition
          chans :=
            { S.chans with
              taken := S.chans.taken.dropLast
              avail := h :: S.chans.avail
              inflight := S.chans.inflight.erase h } }
      else S
  | .complete h len =>
    if h ∈ S.chans.inflight then
      match S.q.addUsed S.mem h len with
      | some (.ok (), q, mem) =>
        { S with
          q
          mem
          chans :=
            { S.chans with
              inflight := S.chans.inflight.erase h
              returned := S.chans.returned ++ [usedElem h len]
              used := S.chans.used ++ [usedElem h len] } }
      | _ => { S with failed := true }
    else S
  | .reclaim =>
    if S.mem.read16 (S.q.usedRing.toNat + 2) = S.drv.lastUsed then S
    else
      { S with
        drv := { S.drv with lastUsed := S.drv.lastUsed + 1, outstanding := S.drv.outstanding - 1 }
        chans :=
          { S.chans with
            reclaimed := S.chans.reclaimed ++
              [readUsedElem S.mem S.q.usedRing S.q.size.toNat S.drv.lastUsed.toNat]
            used := S.chans.used.tail } }

/-- The steps of a schedule, one after another. -/
def run (S : System) : List Action → System
  | [] => S
  | a :: as => run (step S a) as

/-- No step moves more of the queue than its three counters. -/
theorem step_q (S : System) : ∀ a, ∃ na nu n,
    (step S a).q = { S.q with nextAvail := na, nextUsed := nu, numAdded := n }
  | .stage _ => by simp only [step]; split_ifs <;> exact ⟨_, _, _, rfl⟩
  | .publish => by simp only [step]; split <;> exact ⟨_, _, _, rfl⟩
  | .pop => by
    simp only [step]
    split
    · next hq => rcases Queue.popDescriptorChain_queue hq with rfl | rfl <;> exact ⟨_, _, _, rfl⟩
    · next hq => rcases Queue.popDescriptorChain_queue hq with rfl | rfl <;> exact ⟨_, _, _, rfl⟩
    · exact ⟨_, _, _, rfl⟩
  | .unpop => by
    simp only [step]
    split
    · exact ⟨_, _, _, rfl⟩
    · split_ifs <;> exact ⟨_, _, _, rfl⟩
  | .complete _ _ => by
    simp only [step]
    split_ifs
    · split
      · next hq => rcases Queue.addUsed_queue hq with rfl | rfl <;> exact ⟨_, _, _, rfl⟩
      · exact ⟨_, _, _, rfl⟩
    · exact ⟨_, _, _, rfl⟩
  | .reclaim => by simp only [step]; split_ifs <;> exact ⟨_, _, _, rfl⟩

theorem step_size (S : System) (a : Action) : (step S a).q.size = S.q.size := by
  obtain ⟨_, _, _, h⟩ := step_q S a
  rw [h]

/-! ### Wrapping indices -/

/-- The unbounded position `n + (a - n)` is `a`, modulo `2 ^ 16`. -/
theorem toNat_of_sub (a n : BitVec 16) : a.toNat % 2 ^ 16 = (n.toNat + (a - n).toNat) % 2 ^ 16 := by
  bv_omega

/-- Raising `a` raises a short wrapping difference `a - n` by one. -/
theorem sub_toNat_add_one {a n : BitVec 16} (h : (a - n).toNat + 1 < 2 ^ 16) :
    (a + 1 - n).toNat = (a - n).toNat + 1 := by
  bv_omega

/-- One position on, `k` positions further, is `k + 1` positions on. -/
theorem toNat_add_one_add (n : BitVec 16) (k : Nat) :
    ((n + 1).toNat + k) % 2 ^ 16 = (n.toNat + (k + 1)) % 2 ^ 16 := by
  rw [toNat_add_one_u16]
  omega

/-- One position back, `k + 1` positions further, is `k` positions on. -/
theorem toNat_sub_one_add (n : BitVec 16) (k : Nat) :
    ((n - 1).toNat + (k + 1)) % 2 ^ 16 = (n.toNat + k) % 2 ^ 16 := by
  rw [BitVec.toNat_sub, toNat_one_u16]
  omega

/-- For a size dividing `2 ^ 16`, the wrapped position may stand for the unbounded one. -/
theorem readUsedElem_congr {mem : GuestMemoryMmap} {usedRing : GuestAddress} {size i i' : Nat}
    (hs : size ∣ 2 ^ 16) (h : i % 2 ^ 16 = i' % 2 ^ 16) :
    readUsedElem mem usedRing size i = readUsedElem mem usedRing size i' := by
  rw [readUsedElem, readUsedElem, ← Nat.mod_mod_of_dvd i hs, h, Nat.mod_mod_of_dvd i' hs]

/-! ### Frames of the driver's writes -/

section Frames

variable {mem : GuestMemoryMmap} {availRing usedRing : GuestAddress} {size : Nat}

/-- A halfword write changes no byte outside it. -/
theorem bytes_write16_of_lt {a i : Nat} (v : BitVec 16) (h : i < a ∨ a + 2 ≤ i) :
    (mem.write16 a v).bytes i = mem.bytes i := by
  simp only [GuestMemoryMmap.write16]
  rw [if_neg (by omega), if_neg (by omega)]

/-- A halfword write off the used ring's elements leaves every element the driver reads. -/
theorem readUsedElem_write16 {a : Nat} (v : BitVec 16) (hs : 0 < size)
    (h : a + 2 ≤ usedRing.toNat + 4 ∨ usedRing.toNat + 4 + 8 * size ≤ a) (i : Nat) :
    readUsedElem (mem.write16 a v) usedRing size i = readUsedElem mem usedRing size i := by
  have := Nat.mod_lt i hs
  exact congrArg VirtqUsedElem.ofBytes
    (GuestMemoryMmap.readBytes_congr fun b _ _ => bytes_write16_of_lt v (by omega))

/-- A write into the slot of ring position `k` leaves the entries of the other slots. -/
theorem availEntry_write16_ne {k i : Nat} (v : BitVec 16) (hne : i % size ≠ k % size) :
    availEntry (mem.write16 (availRing.toNat + 4 + 2 * (k % size)) v) availRing size i =
      availEntry mem availRing size i :=
  mem.read16_write16_of_disjoint v (by omega)

/-- The write of `idx` leaves every entry. -/
theorem availEntry_write16_idx (v : BitVec 16) (i : Nat) :
    availEntry (mem.write16 (availRing.toNat + 2) v) availRing size i =
      availEntry mem availRing size i :=
  mem.read16_write16_of_disjoint v (by omega)

end Frames

/-! ### The invariant -/

/-- What the available ring holds: the driver's `idx`, the heads published and not taken at
positions `next_avail, next_avail + 1, …`, and the staged head at `idx`. -/
structure AvailInv (q : Queue) (mem : GuestMemoryMmap) (drv : Driver) (avail : List (BitVec 16)) :
    Prop where
  idx : mem.read16 (q.availRing.toNat + 2) = drv.availIdx
  count : (drv.availIdx - q.nextAvail).toNat = avail.length
  entries : ∀ j (hj : j < avail.length),
    availEntry mem q.availRing q.size.toNat (q.nextAvail.toNat + j) = avail[j]
  staged : ∀ h, drv.staged = some h → availEntry mem q.availRing q.size.toNat drv.availIdx.toNat = h

/-- What the used ring holds: `next_used` in `idx`, and the elements returned and not
reclaimed at positions `last_used, last_used + 1, …`. -/
structure UsedInv (q : Queue) (mem : GuestMemoryMmap) (lastUsed : BitVec 16)
    (used : List VirtqUsedElem) : Prop where
  idx : mem.read16 (q.usedRing.toNat + 2) = q.nextUsed
  count : (q.nextUsed - lastUsed).toNat = used.length
  elems : ∀ j (hj : j < used.length),
    readUsedElem mem q.usedRing q.size.toNat (lastUsed.toNat + j) = used[j]

/-- What the available ring still holds behind `next_avail`: the heads the device took, the last
first, in the slots of positions `next_avail - 1, next_avail - 2, …` that the driver has not
written since.  The slot of position `next_avail - (j + 1)` is the slot of
`next_avail + (size - (j + 1))`, and the driver writes the slots from `next_avail` on, one for
each head pending or staged. -/
def AvailBack (q : Queue) (mem : GuestMemoryMmap) (drv : Driver) (avail taken : List (BitVec 16)) :
    Prop :=
  ∀ j (hj : j < taken.reverse.length), drv.staged.toList.length + avail.length + j < q.size.toNat →
    availEntry mem q.availRing q.size.toNat (q.nextAvail.toNat + (q.size.toNat - (j + 1))) =
      taken.reverse[j]

/-- What the available ring holds depends only on the halfwords the driver and the cursor read. -/
theorem AvailInv.of_same {q : Queue} {mem mem' : GuestMemoryMmap} {drv : Driver}
    {avail : List (BitVec 16)} (h : AvailInv q mem drv avail)
    (hidx : mem'.read16 (q.availRing.toNat + 2) = mem.read16 (q.availRing.toNat + 2))
    (hent : ∀ i, availEntry mem' q.availRing q.size.toNat i =
      availEntry mem q.availRing q.size.toNat i) :
    AvailInv q mem' drv avail :=
  ⟨hidx.trans h.idx, h.count, fun j hj => (hent _).trans (h.entries j hj),
    fun s hs => (hent _) ▸ h.staged s hs⟩

/-- What the used ring holds depends only on its `idx` and the elements the driver reads. -/
theorem UsedInv.of_same {q : Queue} {mem mem' : GuestMemoryMmap} {lastUsed : BitVec 16}
    {used : List VirtqUsedElem} (h : UsedInv q mem lastUsed used)
    (hidx : mem'.read16 (q.usedRing.toNat + 2) = mem.read16 (q.usedRing.toNat + 2))
    (hel : ∀ i, readUsedElem mem' q.usedRing q.size.toNat i =
      readUsedElem mem q.usedRing q.size.toNat i) :
    UsedInv q mem' lastUsed used :=
  ⟨hidx.trans h.idx, h.count, fun j hj => (hel _).trans (h.elems j hj)⟩

/-- Nothing is pending exactly when the device's cursor has met the driver's `idx`. -/
theorem AvailInv.eq_iff_nil {q : Queue} {mem : GuestMemoryMmap} {drv : Driver}
    {avail : List (BitVec 16)} (h : AvailInv q mem drv avail) :
    q.nextAvail = drv.availIdx ↔ avail = [] := by
  rw [← List.length_eq_zero, ← h.count]
  exact ⟨fun he => by rw [he, BitVec.sub_self]; rfl, eq_of_sub_toNat_eq_zero⟩

/-- Nothing is returned and unread exactly when the driver's cursor has met `next_used`. -/
theorem UsedInv.eq_iff_nil {q : Queue} {mem : GuestMemoryMmap} {lastUsed : BitVec 16}
    {used : List VirtqUsedElem} (h : UsedInv q mem lastUsed used) :
    lastUsed = q.nextUsed ↔ used = [] := by
  rw [← List.length_eq_zero, ← h.count]
  exact ⟨fun he => by rw [he, BitVec.sub_self]; rfl, eq_of_sub_toNat_eq_zero⟩

/-- A halfword write of the driver off the used ring keeps what the used ring holds. -/
theorem UsedInv.write16 {q : Queue} {mem : GuestMemoryMmap} {lastUsed : BitVec 16}
    {used : List VirtqUsedElem} (h : UsedInv q mem lastUsed used) (hs : 0 < q.size.toNat)
    {a : Nat} (ha : a + 2 ≤ q.usedRing.toNat + 2 ∨ q.usedRing.toNat + 4 + 8 * q.size.toNat ≤ a)
    (v : BitVec 16) : UsedInv q (mem.write16 a v) lastUsed used :=
  h.of_same (mem.read16_write16_of_disjoint v (by omega)) (readUsedElem_write16 v hs (by omega))

/-- The slots behind `next_avail` depend only on the entries. -/
theorem AvailBack.of_same {q : Queue} {mem mem' : GuestMemoryMmap} {drv : Driver}
    {avail taken : List (BitVec 16)} (h : AvailBack q mem drv avail taken)
    (hent : ∀ i, availEntry mem' q.availRing q.size.toNat i =
      availEntry mem q.availRing q.size.toNat i) :
    AvailBack q mem' drv avail taken :=
  fun j hj hb => (hent _).trans (h j hj hb)

/-- How the system stands to its channels: the layout is served and apart, the rings hold what
the channels say is between the two sides, and what the device took behind `next_avail`, the
driver's own count and staged head are the channels', and no call failed. -/
structure Rel (S : System) : Prop where
  size_pos : 0 < S.q.size.toNat
  size_dvd : S.q.size.toNat ∣ 2 ^ 16
  availMapped : AvailMapped S.mem S.q.availRing S.q.size.toNat
  usedMapped : UsedMapped S.mem S.q.usedRing S.q.size.toNat
  apart : RingsApart S.q.availRing S.q.usedRing S.q.size.toNat
  availRing : AvailInv S.q S.mem S.drv S.chans.avail
  availBack : AvailBack S.q S.mem S.drv S.chans.avail S.chans.taken
  usedRing : UsedInv S.q S.mem S.drv.lastUsed S.chans.used
  staged : S.drv.staged = S.chans.staged
  outstanding : S.drv.outstanding = S.chans.outstanding
  ok : S.failed = false

/-- The invariant of every run: the relation, and the channels' own invariant. -/
structure Inv (S : System) extends Rel S : Prop where
  chans : S.chans.Inv S.q.size

/-! ### Slots -/

section Slots

variable {q : Queue} {mem : GuestMemoryMmap}

/-- The driver's `idx` lies `avail.length` positions past `next_avail`, in slots too. -/
theorem AvailInv.idx_mod {drv : Driver} {avail : List (BitVec 16)} (h : AvailInv q mem drv avail)
    (hdvd : q.size.toNat ∣ 2 ^ 16) :
    drv.availIdx.toNat % q.size.toNat = (q.nextAvail.toNat + avail.length) % q.size.toNat := by
  have := toNat_of_sub drv.availIdx q.nextAvail
  rw [h.count, Nat.mod_eq_of_lt drv.availIdx.isLt] at this
  rw [this, Nat.mod_mod_of_dvd _ hdvd]

/-- With fewer than `size` heads pending, the slot at the driver's `idx` holds none of them. -/
theorem AvailInv.slot_ne {drv : Driver} {avail : List (BitVec 16)} (h : AvailInv q mem drv avail)
    (hdvd : q.size.toNat ∣ 2 ^ 16) (hlen : avail.length < q.size.toNat) {j : Nat}
    (hj : j < avail.length) :
    (q.nextAvail.toNat + j) % q.size.toNat ≠ drv.availIdx.toNat % q.size.toNat := by
  rw [h.idx_mod hdvd, show q.nextAvail.toNat + avail.length =
    q.nextAvail.toNat + j + (avail.length - j) by omega]
  exact (add_mod_ne (by omega) (by omega)).symm

/-- `next_used` lies `used.length` positions past the driver's cursor, in slots too. -/
theorem UsedInv.idx_mod {lastUsed : BitVec 16} {used : List VirtqUsedElem}
    (h : UsedInv q mem lastUsed used) (hdvd : q.size.toNat ∣ 2 ^ 16) :
    q.nextUsed.toNat % q.size.toNat = (lastUsed.toNat + used.length) % q.size.toNat := by
  have := toNat_of_sub q.nextUsed lastUsed
  rw [h.count, Nat.mod_eq_of_lt q.nextUsed.isLt] at this
  rw [this, Nat.mod_mod_of_dvd _ hdvd]

/-- With fewer than `size` elements pending, the slot at `next_used` holds none of them. -/
theorem UsedInv.slot_ne {lastUsed : BitVec 16} {used : List VirtqUsedElem}
    (h : UsedInv q mem lastUsed used) (hdvd : q.size.toNat ∣ 2 ^ 16)
    (hlen : used.length < q.size.toNat) {j : Nat} (hj : j < used.length) :
    (lastUsed.toNat + j) % q.size.toNat ≠ q.nextUsed.toNat % q.size.toNat := by
  rw [h.idx_mod hdvd, show lastUsed.toNat + used.length =
    lastUsed.toNat + j + (used.length - j) by omega]
  exact (add_mod_ne (by omega) (by omega)).symm

end Slots

/-! ### What each step does to the rings -/

section RingSteps

variable {q : Queue} {mem : GuestMemoryMmap} {drv : Driver} {avail : List (BitVec 16)}

/-- The driver's write of a head into the slot at its `idx`, with fewer than `size` heads
pending, leaves the pending heads and stages the new one. -/
theorem AvailInv.stage (h : AvailInv q mem drv avail) (hdvd : q.size.toNat ∣ 2 ^ 16)
    (hs : 0 < q.size.toNat) (hlen : avail.length < q.size.toNat) (x : BitVec 16) (o : Nat) :
    AvailInv q (mem.write16 (q.availRing.toNat + 4 + 2 * (drv.availIdx.toNat % q.size.toNat)) x)
      { drv with staged := some x, outstanding := o } avail := by
  have hslot := Nat.mod_lt drv.availIdx.toNat hs
  refine ⟨(mem.read16_write16_of_disjoint x (by omega)).trans h.idx, h.count, fun j hj => ?_,
    fun y hy => ?_⟩
  · exact (availEntry_write16_ne x (h.slot_ne hdvd hlen hj)).trans (h.entries j hj)
  · cases hy
    exact mem.read16_write16_self _ x

/-- The driver's write of `idx + 1` publishes the staged head. -/
theorem AvailInv.publish (h : AvailInv q mem drv avail) (hdvd : q.size.toNat ∣ 2 ^ 16)
    {x : BitVec 16} (hst : drv.staged = some x) (hcount : avail.length + 1 < 2 ^ 16) :
    AvailInv q (mem.write16 (q.availRing.toNat + 2) (drv.availIdx + 1))
      { drv with availIdx := drv.availIdx + 1, staged := none } (avail ++ [x]) := by
  refine ⟨mem.read16_write16_self _ _, ?_, fun j hj => ?_, fun _ hy => by cases hy⟩
  · show (drv.availIdx + 1 - q.nextAvail).toNat = (avail ++ [x]).length
    rw [sub_toNat_add_one (h.count ▸ hcount), h.count, List.length_append, List.length_singleton]
  · rw [availEntry_write16_idx]
    rw [List.length_append, List.length_singleton] at hj
    rcases Nat.lt_or_ge j avail.length with hj' | hj'
    · rw [List.getElem_append_left hj']
      exact h.entries j hj'
    · obtain rfl : j = avail.length := by omega
      rw [List.getElem_append_right (Nat.le_refl _)]
      simp only [Nat.sub_self, List.getElem_singleton]
      exact (Queue.availEntry_congr hdvd
        (by rw [toNat_of_sub drv.availIdx q.nextAvail, h.count])).trans (h.staged x hst)

/-- The device's take of the oldest pending head. -/
theorem AvailInv.pop (h : AvailInv q mem drv avail) (hdvd : q.size.toNat ∣ 2 ^ 16)
    (hne : q.nextAvail ≠ drv.availIdx) :
    ∃ x rest, avail = x :: rest ∧
      availEntry mem q.availRing q.size.toNat q.nextAvail.toNat = x ∧
      AvailInv { q with nextAvail := q.nextAvail + 1 } mem drv rest := by
  obtain ⟨x, rest, rfl⟩ : ∃ x rest, avail = x :: rest := by
    cases avail with
    | nil => exact absurd (eq_of_sub_toNat_eq_zero h.count) hne
    | cons x rest => exact ⟨x, rest, rfl⟩
  obtain ⟨-, hcount⟩ := sub_toNat_succ h.count
  refine ⟨x, rest, rfl, h.entries 0 (Nat.succ_pos _), h.idx, hcount, fun j hj => ?_, h.staged⟩
  exact (Queue.availEntry_congr hdvd (toNat_add_one_add _ _)).trans
    (h.entries (j + 1) (Nat.succ_lt_succ hj))

/-- Adding `size` to a position keeps its slot. -/
theorem availEntry_add_size (i : Nat) :
    availEntry mem q.availRing q.size.toNat (i + q.size.toNat) =
      availEntry mem q.availRing q.size.toNat i := by
  rw [availEntry, availEntry, Nat.add_mod_right]

variable {taken : List (BitVec 16)}

/-- The driver's write of a head at its `idx` takes the farthest slot from behind
`next_avail`, and leaves the others. -/
theorem AvailBack.stage (hb : AvailBack q mem drv avail taken) (h : AvailInv q mem drv avail)
    (hdvd : q.size.toNat ∣ 2 ^ 16) (hst : drv.staged = none) (x : BitVec 16) (o : Nat) :
    AvailBack q (mem.write16 (q.availRing.toNat + 4 + 2 * (drv.availIdx.toNat % q.size.toNat)) x)
      { drv with staged := some x, outstanding := o } avail taken := by
  intro j hj hlt
  simp only [Option.toList_some, List.length_singleton] at hlt
  rw [availEntry_write16_ne x ?_]
  · exact hb j hj (by simp only [hst, Option.toList_none, List.length_nil]; omega)
  · rw [h.idx_mod hdvd, show q.nextAvail.toNat + (q.size.toNat - (j + 1)) =
      q.nextAvail.toNat + avail.length + (q.size.toNat - (j + 1) - avail.length) by omega]
    exact add_mod_ne (by omega) (by omega)

/-- The write of `idx` leaves the slots behind `next_avail`. -/
theorem AvailBack.publish (hb : AvailBack q mem drv avail taken) {x : BitVec 16}
    (hst : drv.staged = some x) :
    AvailBack q (mem.write16 (q.availRing.toNat + 2) (drv.availIdx + 1))
      { drv with availIdx := drv.availIdx + 1, staged := none } (avail ++ [x]) taken := by
  intro j hj hlt
  simp only [Option.toList_none, List.length_nil, List.length_append, List.length_singleton] at hlt
  rw [availEntry_write16_idx]
  exact hb j hj (by simp only [hst, Option.toList_some, List.length_singleton]; omega)

/-- The device's take leaves its head in the slot just behind the new `next_avail`. -/
theorem AvailBack.pop {x : BitVec 16} {rest : List (BitVec 16)}
    (hb : AvailBack q mem drv (x :: rest) taken)
    (hx : availEntry mem q.availRing q.size.toNat q.nextAvail.toNat = x)
    (hdvd : q.size.toNat ∣ 2 ^ 16) :
    AvailBack { q with nextAvail := q.nextAvail + 1 } mem drv rest (taken ++ [x]) := by
  -- position `next_avail + 1 + k` is position `next_avail + (k + 1)`
  have hfwd (k : Nat) :
      availEntry mem q.availRing q.size.toNat ((q.nextAvail + 1).toNat + k) =
        availEntry mem q.availRing q.size.toNat (q.nextAvail.toNat + (k + 1)) :=
    Queue.availEntry_congr hdvd (toNat_add_one_add _ _)
  intro j hj hlt
  dsimp only at hlt ⊢
  cases j with
  | zero =>
    simp only [List.reverse_concat, List.getElem_cons_zero]
    rw [hfwd, Nat.sub_add_cancel (by omega), availEntry_add_size, hx]
  | succ j =>
    simp only [List.reverse_concat, List.getElem_cons_succ]
    rw [hfwd, show q.size.toNat - (j + 1 + 1) + 1 = q.size.toNat - (j + 1) by omega]
    exact hb j (by simpa using hj) (by simp only [List.length_cons]; omega)

/-- The device's step back, with a slot behind `next_avail` that the driver has not written
again, makes the head it took last the oldest pending one. -/
theorem AvailInv.unpop {x : BitVec 16} {t : List (BitVec 16)} (h : AvailInv q mem drv avail)
    (hb : AvailBack q mem drv avail (t ++ [x])) (hdvd : q.size.toNat ∣ 2 ^ 16)
    (hroom : drv.staged.toList.length + avail.length < q.size.toNat) :
    AvailInv { q with nextAvail := q.nextAvail - 1 } mem drv (x :: avail) ∧
      AvailBack { q with nextAvail := q.nextAvail - 1 } mem drv (x :: avail) t := by
  -- position `next_avail - 1 + (k + 1)` is position `next_avail + k`
  have hback (k : Nat) :
      availEntry mem q.availRing q.size.toNat ((q.nextAvail - 1).toNat + (k + 1)) =
        availEntry mem q.availRing q.size.toNat (q.nextAvail.toNat + k) :=
    Queue.availEntry_congr hdvd (toNat_sub_one_add _ _)
  refine ⟨⟨h.idx, ?_, fun j hj => ?_, h.staged⟩, fun j hj hlt => ?_⟩
  · have := h.count
    have := q.size.isLt
    show (drv.availIdx - (q.nextAvail - 1)).toNat = avail.length + 1
    bv_omega
  · dsimp only
    cases j with
    | zero =>
      have hx := hb 0 (by simp) (by omega)
      simp only [List.reverse_concat, List.getElem_cons_zero, Nat.zero_add] at hx
      rw [← hback, Nat.sub_add_cancel (by omega), availEntry_add_size] at hx
      simpa using hx
    | succ j =>
      rw [List.getElem_cons_succ, hback]
      exact h.entries j (by simpa using hj)
  · dsimp only at hlt ⊢
    simp only [List.length_cons] at hlt
    have := hb (j + 1) (by simpa using hj) (by omega)
    simp only [List.reverse_concat, List.getElem_cons_succ] at this
    rw [show q.size.toNat - (j + 1) = q.size.toNat - (j + 1 + 1) + 1 by omega, hback]
    exact this

variable {lastUsed : BitVec 16} {used : List VirtqUsedElem}

/-- A successful `add_used` at `next_used`, with fewer than `size` elements pending, leaves the
pending elements and appends its own. -/
theorem UsedInv.complete (h : UsedInv q mem lastUsed used) (hdvd : q.size.toNat ∣ 2 ^ 16)
    (hs : 0 < q.size.toNat) (hlen : used.length < q.size.toNat) {c : AddUsedCall}
    (hc : c.mem = mem) (hw : c.Writes q.usedRing q.size.toNat q.nextUsed.toNat) :
    UsedInv { q with nextUsed := q.nextUsed + 1, numAdded := q.numAdded + 1 } c.mem' lastUsed
      (used ++ [VirtqUsedElem.new (c.headIndex.setWidth 32) c.len]) := by
  subst hc
  refine ⟨?_, ?_, fun j hj => ?_⟩ <;> dsimp only
  · rw [hw.2.2, GuestMemoryMmap.read16_write16_self]
    exact BitVec.eq_of_toNat_eq (by simp only [BitVec.toNat_ofNat, toNat_add_one_u16])
  · rw [sub_toNat_add_one (by rw [h.count]; have := q.size.isLt; omega), h.count,
      List.length_append, List.length_singleton]
  · rw [List.length_append, List.length_singleton] at hj
    rcases Nat.lt_or_ge j used.length with hj' | hj'
    · rw [List.getElem_append_left hj', ← h.elems j hj']
      have hne := h.slot_ne hdvd hlen hj'
      have := Nat.mod_lt (lastUsed.toNat + j) hs
      exact congrArg VirtqUsedElem.ofBytes (GuestMemoryMmap.readBytes_congr fun b h1 h2 =>
        hw.bytes_eq (by omega) (by omega))
    · obtain rfl : j = used.length := by omega
      rw [List.getElem_append_right (Nat.le_refl _)]
      simp only [Nat.sub_self, List.getElem_singleton]
      rw [readUsedElem_congr hdvd (by rw [toNat_of_sub q.nextUsed lastUsed, h.count] :
          (lastUsed.toNat + used.length) % 2 ^ 16 = q.nextUsed.toNat % 2 ^ 16),
        readUsedElem, hw.readBytes, VirtqUsedElem.ofBytes_toBytes]

/-- The driver's read of the oldest pending element. -/
theorem UsedInv.reclaim (h : UsedInv q mem lastUsed used) (hdvd : q.size.toNat ∣ 2 ^ 16)
    (hne : q.nextUsed ≠ lastUsed) :
    ∃ e rest, used = e :: rest ∧ readUsedElem mem q.usedRing q.size.toNat lastUsed.toNat = e ∧
      UsedInv q mem (lastUsed + 1) rest := by
  obtain ⟨e, rest, rfl⟩ : ∃ e rest, used = e :: rest := by
    cases used with
    | nil => exact absurd (eq_of_sub_toNat_eq_zero h.count).symm hne
    | cons e rest => exact ⟨e, rest, rfl⟩
  obtain ⟨-, hcount⟩ := sub_toNat_succ h.count
  refine ⟨e, rest, rfl, h.elems 0 (Nat.succ_pos _), h.idx, hcount, fun j hj => ?_⟩
  exact (readUsedElem_congr hdvd (toNat_add_one_add _ _)).trans
    (h.elems (j + 1) (Nat.succ_lt_succ hj))

end RingSteps

/-! ### What each step does -/

section Steps

variable {S : System}

theorem Inv.stage (hi : Inv S) (x : BitVec 16) :
    (step S (.stage x)).chans = S.chans.step S.q.size (.stage x) ∧ Rel (step S (.stage x)) := by
  by_cases hg : S.drv.staged = none ∧ S.drv.outstanding < S.q.size.toNat ∧ x < S.q.size
  · have hc : S.chans.staged = none ∧ S.chans.outstanding < S.q.size.toNat ∧ x < S.q.size := by
      rwa [← hi.staged, ← hi.outstanding]
    rw [step, Channels.step, if_pos hg, if_pos hc]
    obtain ⟨hst, hout, -⟩ := hg
    have hs := hi.size_pos
    have hlen : S.chans.avail.length < S.q.size.toNat := by
      have := hi.outstanding
      simp only [Channels.outstanding] at this
      omega
    -- the slot lies in the available ring, apart from the used ring
    have hslot := Nat.mod_lt S.drv.availIdx.toNat hs
    have hap := hi.apart
    unfold RingsApart at hap
    set a := S.q.availRing.toNat + 4 + 2 * (S.drv.availIdx.toNat % S.q.size.toNat) with ha
    refine ⟨rfl, { hi.toRel with
      availMapped := hi.availMapped.of_regions (S.mem.regions_write16 _ x)
      usedMapped := hi.usedMapped.of_regions (S.mem.regions_write16 _ x)
      availRing := hi.availRing.stage hi.size_dvd hs hlen x _
      availBack := hi.availBack.stage hi.availRing hi.size_dvd hst x _
      usedRing := hi.usedRing.write16 hs (by omega) x
      staged := rfl
      outstanding := ?_ }⟩
    have h := hi.outstanding
    dsimp only
    simp only [Channels.outstanding, hc.1, Option.toList_some, Option.toList_none,
      List.length_singleton, List.length_nil] at h ⊢
    omega
  · have hc : ¬(S.chans.staged = none ∧ S.chans.outstanding < S.q.size.toNat ∧ x < S.q.size) := by
      rwa [← hi.staged, ← hi.outstanding]
    rw [step, Channels.step, if_neg hg, if_neg hc]
    exact ⟨rfl, hi.toRel⟩

theorem Inv.publish (hi : Inv S) :
    (step S .publish).chans = S.chans.step S.q.size .publish ∧ Rel (step S .publish) := by
  cases hst : S.drv.staged with
  | none =>
    have hc : S.chans.staged = none := hi.staged ▸ hst
    refine ⟨by simp only [step, Channels.step, hst, hc], ?_⟩
    simp only [step, hst]
    exact hi.toRel
  | some x =>
    have hc : S.chans.staged = some x := hi.staged ▸ hst
    refine ⟨by simp only [step, Channels.step, hst, hc], ?_⟩
    simp only [step, hst]
    have hap := hi.apart
    unfold RingsApart at hap
    have hcount : S.chans.avail.length + 1 < 2 ^ 16 := by
      have hb := hi.chans.budget
      have := S.q.size.isLt
      simp only [Channels.outstanding, hc, Option.toList_some, List.length_singleton] at hb
      omega
    refine { hi.toRel with
      availMapped := hi.availMapped.of_regions (S.mem.regions_write16 _ _)
      usedMapped := hi.usedMapped.of_regions (S.mem.regions_write16 _ _)
      availRing := hi.availRing.publish hi.size_dvd hst hcount
      availBack := hi.availBack.publish hst
      usedRing := hi.usedRing.write16 hi.size_pos (by omega) _
      staged := rfl
      outstanding := ?_ }
    have h := hi.outstanding
    dsimp only
    simp only [Channels.outstanding, hc, Option.toList_some, Option.toList_none,
      List.length_singleton, List.length_nil, List.length_append] at h ⊢
    omega

theorem Inv.pop (hi : Inv S) :
    (step S .pop).chans = S.chans.step S.q.size .pop ∧ Rel (step S .pop) := by
  obtain ⟨q, mem, drv, ⟨staged, published, taken, avail, inflight, returned, reclaimed, used⟩,
    failed⟩ := S
  simp only [step]
  rw [Queue.popDescriptorChain_eq hi.size_pos hi.availMapped, hi.availRing.idx]
  split_ifs with hne
  · obtain rfl : avail = [] := hi.availRing.eq_iff_nil.mp hne
    exact ⟨rfl, hi.toRel⟩
  · obtain ⟨x, rest, rfl, hx, hA⟩ := hi.availRing.pop hi.size_dvd hne
    dsimp only
    rw [hx]
    refine ⟨rfl, { hi.toRel with
      availRing := hA
      availBack := hi.availBack.pop hx hi.size_dvd
      usedRing := ⟨hi.usedRing.idx, hi.usedRing.count, hi.usedRing.elems⟩
      outstanding := ?_ }⟩
    have h := hi.outstanding
    simp only [Channels.outstanding, List.length_append, List.length_cons, List.length_nil,
      List.tail_cons] at h ⊢
    omega

theorem Inv.unpop (hi : Inv S) :
    (step S .unpop).chans = S.chans.step S.q.size .unpop ∧ Rel (step S .unpop) := by
  rw [step, Channels.step]
  cases hl : S.chans.taken.getLast? with
  | none => exact ⟨rfl, hi.toRel⟩
  | some x =>
    dsimp only
    by_cases hin : x ∈ S.chans.inflight
    · rw [if_pos hin, if_pos hin]
      obtain ⟨t, ht⟩ := List.getLast?_eq_some_iff.mp hl
      -- the slot behind `next_avail` is still the device's: it holds a descriptor
      have hroom : S.drv.staged.toList.length + S.chans.avail.length < S.q.size.toNat := by
        have hb := hi.chans.budget
        have := List.length_pos_of_mem hin
        rw [hi.staged]
        simp only [Channels.outstanding] at hb
        omega
      have hb := hi.availBack
      rw [ht] at hb
      obtain ⟨hA, hB⟩ := hi.availRing.unpop hb hi.size_dvd hroom
      refine ⟨rfl, { hi.toRel with
        availRing := hA
        availBack := by rw [ht, List.dropLast_concat]; exact hB
        usedRing := ⟨hi.usedRing.idx, hi.usedRing.count, hi.usedRing.elems⟩
        outstanding := ?_ }⟩
      have h := hi.outstanding
      have := List.length_pos_of_mem hin
      simp only [Channels.outstanding, List.length_cons, List.length_erase_of_mem hin] at h ⊢
      omega
    · rw [if_neg hin, if_neg hin]
      exact ⟨rfl, hi.toRel⟩

theorem Inv.complete (hi : Inv S) (x : BitVec 16) (len : BitVec 32) :
    (step S (.complete x len)).chans = S.chans.step S.q.size (.complete x len) ∧
      Rel (step S (.complete x len)) := by
  simp only [step, Channels.step]
  split_ifs with hmem
  · have hx := hi.chans.heads x (List.mem_append_right _ hmem)
    obtain ⟨mem', hadd⟩ := Queue.addUsed_of_mapped hx hi.usedMapped len
    have hw := (Queue.addUsed_eq_ok hadd).1
    rw [hadd]
    have hs := hi.size_pos
    have hlen : S.chans.used.length < S.q.size.toNat := by
      have := hi.chans.budget
      have := List.length_pos_of_mem hmem
      simp only [Channels.outstanding] at *
      omega
    have hA :=
      hi.availRing.of_same (hw.availEntry_eq hs hi.apart).1 (hw.availEntry_eq hs hi.apart).2
    refine ⟨rfl, { hi.toRel with
      availMapped := hi.availMapped.of_regions hw.regions
      usedMapped := hi.usedMapped.of_regions hw.regions
      availRing := ⟨hA.idx, hA.count, hA.entries, hA.staged⟩
      availBack := hi.availBack.of_same (hw.availEntry_eq hs hi.apart).2
      usedRing := hi.usedRing.complete hi.size_dvd hs hlen rfl hw
      outstanding := ?_ }⟩
    simp only [hi.outstanding, Channels.outstanding, List.length_erase_of_mem hmem,
      List.length_append, List.length_singleton]
    have := List.length_pos_of_mem hmem
    omega
  · exact ⟨rfl, hi.toRel⟩

theorem Inv.reclaim (hi : Inv S) :
    (step S .reclaim).chans = S.chans.step S.q.size .reclaim ∧ Rel (step S .reclaim) := by
  obtain ⟨q, mem, drv, ⟨staged, published, taken, avail, inflight, returned, reclaimed, used⟩,
    failed⟩ := S
  simp only [step, hi.usedRing.idx]
  split_ifs with hne
  · obtain rfl : used = [] := hi.usedRing.eq_iff_nil.mp hne.symm
    exact ⟨rfl, hi.toRel⟩
  · obtain ⟨e, rest, rfl, he, hU⟩ := hi.usedRing.reclaim hi.size_dvd hne
    rw [he]
    refine ⟨rfl, { hi.toRel with
      availRing := ⟨hi.availRing.idx, hi.availRing.count, hi.availRing.entries, hi.availRing.staged⟩
      usedRing := hU
      outstanding := ?_ }⟩
    have h := hi.outstanding
    dsimp only at h ⊢
    simp only [Channels.outstanding, List.length_cons, List.tail_cons] at h ⊢
    omega

/-- The invariant does not read `num_added`. -/
theorem Inv.numAdded (hi : Inv S) (n : BitVec 16) : Inv { S with q := { S.q with numAdded := n } } :=
  { hi with
    availRing := ⟨hi.availRing.idx, hi.availRing.count, hi.availRing.entries, hi.availRing.staged⟩
    usedRing := ⟨hi.usedRing.idx, hi.usedRing.count, hi.usedRing.elems⟩ }

/-- **Every step of the rings is the step of the channels**, and keeps the relation. -/
theorem Inv.step_rel (hi : Inv S) :
    ∀ a, (step S a).chans = S.chans.step S.q.size a ∧ Rel (step S a)
  | .stage x => hi.stage x
  | .publish => hi.publish
  | .pop => hi.pop
  | .unpop => hi.unpop
  | .complete x len => hi.complete x len
  | .reclaim => hi.reclaim

/-- Every step keeps the invariant: the relation by `step_rel`, the channels' by theirs. -/
theorem Inv.step (hi : Inv S) (a : Action) : Inv (step S a) :=
  ⟨(hi.step_rel a).2, by rw [(hi.step_rel a).1, step_size]; exact hi.chans.step a⟩

/-- The run lemma: the invariant holds after every schedule. -/
theorem Inv.run (hi : Inv S) (sched : List Action) : Inv (run S sched) := by
  induction sched generalizing S with
  | nil => exact hi
  | cons a as ih => exact ih (hi.step a)

/-- Over a whole run, the channels of the rings are the channels' own run. -/
theorem Inv.run_chans (hi : Inv S) (sched : List Action) :
    (Transfer.run S sched).chans = S.chans.run S.q.size sched := by
  induction sched generalizing S with
  | nil => rfl
  | cons a as ih =>
    rw [Transfer.run, ih (hi.step a), (hi.step_rel a).1, step_size, Channels.run_cons]

end Steps

/-! ### Runs from the start -/

/-- Where a transfer may start: a queue reachable from `Queue::new m`, `m` a power of two, over a
guest memory that serves both rings, with the available ring apart from the bytes `add_used`
writes, and both `idx` fields holding the queue's `next_avail` and `next_used`. -/
structure Start (m : BitVec 16) (q : Queue) (mem : GuestMemoryMmap) : Prop where
  pow : m.toNat.isPowerOfTwo
  reachable : Reachable m q
  availMapped : AvailMapped mem q.availRing q.size.toNat
  usedMapped : UsedMapped mem q.usedRing q.size.toNat
  apart : RingsApart q.availRing q.usedRing q.size.toNat
  availIdx : mem.read16 (q.availRing.toNat + 2) = q.nextAvail
  usedIdx : mem.read16 (q.usedRing.toNat + 2) = q.nextUsed

/-- The invariant holds before any transfer. -/
theorem Inv.init {m : BitVec 16} {q : Queue} {mem : GuestMemoryMmap} (h : Start m q mem) :
    Inv (System.init q mem) := by
  have hw := h.reachable.wf h.pow
  exact
    { size_pos := hw.size_pos
      size_dvd := dvd_two_pow_sixteen hw.size_pow
      availMapped := h.availMapped
      usedMapped := h.usedMapped
      apart := h.apart
      availRing := ⟨h.availIdx, by simp [System.init, Channels.init],
        fun _ hj => absurd hj (Nat.not_lt_zero _), fun _ h => (nomatch h)⟩
      availBack := fun _ hj => absurd hj (Nat.not_lt_zero _)
      usedRing := ⟨h.usedIdx, by simp [System.init, Channels.init],
        fun _ hj => absurd hj (Nat.not_lt_zero _)⟩
      staged := rfl
      outstanding := rfl
      ok := rfl
      chans := Channels.Inv.init }

/-- The two-entry queue of the examples, over a zeroed memory, is a start. -/
theorem twoEntryRings_start :
    Start 2 { Queue.new 2 with availRing := ⟨0x100⟩, usedRing := ⟨0x200⟩ }
      ⟨[⟨0, 0x1000⟩], fun _ => 0⟩ :=
  have h := twoEntryRings_served fun _ => 0
  ⟨⟨1, rfl⟩, h.1, h.2.1, h.2.2.1, h.2.2.2, rfl, rfl⟩

/-- **The rings refine the channels, and no call fails.**  From a start, let the driver publish
heads below the size, entry before `idx`, with at most `size` descriptors handed out until
reclaimed, and let the device call `pop_descriptor_chain`, and `add_used` for chains it holds,
all interleaved in any order.  Then no call of the device panics or fails, and what
`pop_descriptor_chain` returns and what the driver reads from the used ring are, step for step,
what the two channels give. -/
theorem run_refines {m : BitVec 16} {q : Queue} {mem : GuestMemoryMmap} (h : Start m q mem)
    (sched : List Action) :
    (run (System.init q mem) sched).failed = false ∧
      (run (System.init q mem) sched).chans = Channels.init.run q.size sched :=
  have hi := Inv.init h
  ⟨(hi.run sched).ok, hi.run_chans sched⟩

/-- The driver publishes head `1`, the device takes it and returns it with length `0x10`, and
the driver reclaims it. -/
theorem run_refines_two :
    let q : Queue := { Queue.new 2 with availRing := ⟨0x100⟩, usedRing := ⟨0x200⟩ }
    let mem : GuestMemoryMmap := ⟨[⟨0, 0x1000⟩], fun _ => 0⟩
    let sched : List Action := [.stage 1, .publish, .pop, .complete 1 0x10, .reclaim]
    Start 2 q mem ∧ (run (System.init q mem) sched).failed = false ∧
      (run (System.init q mem) sched).chans = Channels.init.run q.size sched :=
  ⟨twoEntryRings_start, run_refines twoEntryRings_start _⟩

/-- The run of `run_refines_two` completes the transfer. -/
example :
    let q : Queue := { Queue.new 2 with availRing := ⟨0x100⟩, usedRing := ⟨0x200⟩ }
    let mem : GuestMemoryMmap := ⟨[⟨0, 0x1000⟩], fun _ => 0⟩
    (run (System.init q mem) [.stage 1, .publish, .pop, .complete 1 0x10, .reclaim]).chans =
      { Channels.init with
        published := [1], taken := [1], returned := [usedElem 1 0x10]
        reclaimed := [usedElem 1 0x10] } := by
  decide

/-- **No chain is lost, duplicated or reordered.**  From a start, over every schedule: no call
fails; the heads the device took are the first of those the driver published, in order; the
elements the driver reclaimed are the first of those the device returned, in order, with their
heads and lengths; each head taken is returned at most once, and the ones not returned are in
flight; and at every point a poll of either side takes the oldest entry pending for it, whenever
there is one. -/
theorem run_in_order {m : BitVec 16} {q : Queue} {mem : GuestMemoryMmap} (h : Start m q mem)
    (sched : List Action) :
    let S := run (System.init q mem) sched
    S.failed = false ∧ S.chans.taken <+: S.chans.published ∧
      S.chans.reclaimed <+: S.chans.returned ∧
      (S.chans.returned.map (·.id) ++ S.chans.inflight.map (·.setWidth 32)).Perm
        (S.chans.taken.map (·.setWidth 32)) ∧
      (step S .pop).chans.taken =
        S.chans.taken ++ (S.chans.published.drop S.chans.taken.length).take 1 ∧
      (step S .reclaim).chans.reclaimed =
        S.chans.reclaimed ++ (S.chans.returned.drop S.chans.reclaimed.length).take 1 := by
  intro S
  have hi : Inv S := (Inv.init h).run sched
  have hc := hi.chans
  refine ⟨hi.ok, ⟨_, hc.taken_avail⟩, ⟨_, hc.reclaimed_used⟩, hc.completions, ?_, ?_⟩
  · rw [(hi.step_rel .pop).1, Channels.step_pop_taken, ← hc.taken_avail, List.drop_left]
  · rw [(hi.step_rel .reclaim).1, Channels.step_reclaim_reclaimed, ← hc.reclaimed_used,
      List.drop_left]

theorem run_in_order_two :
    let q : Queue := { Queue.new 2 with availRing := ⟨0x100⟩, usedRing := ⟨0x200⟩ }
    let mem : GuestMemoryMmap := ⟨[⟨0, 0x1000⟩], fun _ => 0⟩
    let sched : List Action := [.stage 1, .publish, .pop, .stage 0, .publish]
    Start 2 q mem ∧ (run (System.init q mem) sched).failed = false ∧
      (run (System.init q mem) sched).chans.taken <+:
        (run (System.init q mem) sched).chans.published :=
  have h := run_in_order twoEntryRings_start [.stage 1, .publish, .pop, .stage 0, .publish]
  ⟨twoEntryRings_start, h.1, h.2.1⟩

/-- **Every chain in progress can be brought back.**  From a start, after any schedule, let the
device pop until the available ring is empty and return every chain it holds with the length
`len` gives it, and let the driver reclaim until the used ring is empty.  Then no call fails;
the device's `next_avail` has met the driver's `idx`, and the driver's cursor the device's
`next_used`; the driver's count of descriptors out is back to the one it staged, if any; and
the driver has reclaimed every head it ever published, once for each publication. -/
theorem run_finish_returns {m : BitVec 16} {q : Queue} {mem : GuestMemoryMmap}
    (h : Start m q mem) (sched : List Action) (len : BitVec 16 → BitVec 32) :
    let S := run (System.init q mem) sched
    let S' := run S (S.chans.finish len)
    S'.failed = false ∧ S'.q.nextAvail = S'.drv.availIdx ∧ S'.drv.lastUsed = S'.q.nextUsed ∧
      S'.drv.outstanding = S.drv.staged.toList.length ∧
      (S'.chans.reclaimed.map (·.id)).Perm (S.chans.published.map (·.setWidth 32)) := by
  intro S S'
  have hi : Inv S := (Inv.init h).run sched
  have hi' : Inv S' := hi.run _
  have hch : S'.chans = S.chans.run S.q.size (S.chans.finish len) := hi.run_chans _
  obtain ⟨havail, hin, hused, -, -, hperm⟩ := Channels.run_finish hi.chans len
  rw [← hch] at havail hin hused hperm
  refine ⟨hi'.ok, hi'.availRing.eq_iff_nil.mpr havail, hi'.usedRing.eq_iff_nil.mpr hused, ?_, hperm⟩
  rw [hi'.outstanding, Channels.outstanding, havail, hin, hused, hch, Channels.run_finish_eq,
    ← hi.staged]
  rfl

theorem run_finish_returns_two :
    let q : Queue := { Queue.new 2 with availRing := ⟨0x100⟩, usedRing := ⟨0x200⟩ }
    let mem : GuestMemoryMmap := ⟨[⟨0, 0x1000⟩], fun _ => 0⟩
    let sched : List Action := [.stage 1, .publish, .pop, .stage 0, .publish]
    Start 2 q mem ∧
      (run (run (System.init q mem) sched)
        ((run (System.init q mem) sched).chans.finish fun _ => 0x10)).failed = false :=
  ⟨twoEntryRings_start,
    (run_finish_returns twoEntryRings_start [.stage 1, .publish, .pop, .stage 0, .publish]
      fun _ => 0x10).1⟩

/-! ### Giving a chain back -/

/-- The device's steps leave the driver alone. -/
theorem step_pop_drv (S : System) : (step S .pop).drv = S.drv := by
  simp only [step]
  split <;> rfl

theorem step_unpop_drv (S : System) : (step S .unpop).drv = S.drv := by
  simp only [step]
  split
  · rfl
  · split_ifs <;> rfl

/-- A pop moves at most `next_avail`. -/
theorem step_pop_q (S : System) : ∃ n, (step S .pop).q = { S.q with nextAvail := n } := by
  simp only [step]
  split
  · next hq => rcases Queue.popDescriptorChain_queue hq with rfl | rfl <;> exact ⟨_, rfl⟩
  · next hq => rcases Queue.popDescriptorChain_queue hq with rfl | rfl <;> exact ⟨_, rfl⟩
  · exact ⟨_, rfl⟩

/-- **Giving a chain back is undone by the next pop.**  From a start, after any schedule, let
the device hold the chain it took last, give it back with `go_to_previous_position`, and pop
again.  No call fails, the queue is as it was, and the device has taken the same head again:
the channels differ only in the order of the chains in flight. -/
theorem unpop_pop {m : BitVec 16} {q : Queue} {mem : GuestMemoryMmap} (h : Start m q mem)
    (sched : List Action) {x : BitVec 16}
    (hx : (run (System.init q mem) sched).chans.taken.getLast? = some x)
    (hin : x ∈ (run (System.init q mem) sched).chans.inflight) :
    let S := run (System.init q mem) sched
    let S' := run S [.unpop, .pop]
    S'.failed = false ∧ S'.q = S.q ∧
      S'.chans = { S.chans with inflight := S.chans.inflight.erase x ++ [x] } := by
  intro S S'
  have hi : Inv S := (Inv.init h).run sched
  have hi' : Inv S' := hi.run _
  have hch : S'.chans = { S.chans with inflight := S.chans.inflight.erase x ++ [x] } := by
    rw [hi.run_chans, Channels.run_cons, Channels.run_cons, Channels.run_nil,
      Channels.step_unpop_pop hx hin]
  -- `go_to_previous_position` and the pop move only `next_avail`, and the count puts it back
  have hq1 : (step S .unpop).q = { S.q with nextAvail := S.q.nextAvail - 1 } := by
    simp only [step, hx, if_pos hin]
    rfl
  obtain ⟨n, hn⟩ := step_pop_q (step S .unpop)
  have hq : S'.q = { S.q with nextAvail := n } := by
    rw [show S' = step (step S .unpop) .pop from rfl, hn, hq1]
  have hcount := hi'.availRing.count
  rw [show S'.drv = S.drv from (step_pop_drv _).trans (step_unpop_drv _), hch, hq] at hcount
  have hn' : n = S.q.nextAvail := by
    have := hi.availRing.count
    dsimp only at hcount
    bv_omega
  exact ⟨hi'.ok, by rw [hq, hn'], hch⟩

/-- The device takes head `1`, gives it back and takes it again. -/
theorem unpop_pop_two :
    let q : Queue := { Queue.new 2 with availRing := ⟨0x100⟩, usedRing := ⟨0x200⟩ }
    let mem : GuestMemoryMmap := ⟨[⟨0, 0x1000⟩], fun _ => 0⟩
    let sched : List Action := [.stage 1, .publish, .pop]
    Start 2 q mem ∧ (run (System.init q mem) sched).chans.taken.getLast? = some 1 ∧
      1 ∈ (run (System.init q mem) sched).chans.inflight ∧
      (run (run (System.init q mem) sched) [.unpop, .pop]).q = (run (System.init q mem) sched).q :=
  ⟨twoEntryRings_start, by decide, by decide,
    (@unpop_pop 2 _ _ twoEntryRings_start [.stage 1, .publish, .pop] 1 (by decide)
      (by decide)).2.1⟩

end Transfer

end VirtioQueue
