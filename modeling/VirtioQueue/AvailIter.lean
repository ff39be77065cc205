import VirtioQueue.Queue

/-!
# The available-ring cursor

`Queue::iter` reads the available ring's `idx` and hands out an `AvailIter`, which walks the
ring from `next_avail` up to that index and advances the queue's `next_avail` once per entry
it yields.  `AvailIter` itself belongs to the crate's root module, which is not among the
sources; it is modelled here from the specification (§4.1): the walk stops when
`next_avail` equals the index read, and the entry at ring position `next_avail` lies at
offset `4 + 2 * (next_avail % size)` of the available ring (§6).  Equality is the only stop,
so a driver that moves `idx` backwards makes the walk go on through the wrap of `next_avail`.

The iterator borrows `next_avail` mutably, so `AvailIter.next` takes and returns the queue.
It yields the head index of the chain; the chain itself is the walker's business.

## Main definitions

* `AvailIter`, `AvailIter.next` — the cursor.
* `Queue.iter`, `Queue.popDescriptorChain` — the two ways `queue.rs` starts it.
* `availEntry`, `AvailMapped` — the entry at a ring position, and a memory that serves the
  cursor's loads.

## Main results

* `AvailIter.next_eq` — the cursor changes nothing but `next_avail`.
* `AvailMapped.of_region` — a ring inside one region of a memory is served.
* `AvailIter.next_of_mapped` — one step of the cursor over a memory that serves it.
-/

namespace VirtioQueue

/-- Modelled from the spec: `AvailIter`, the cursor over the available ring up to the `idx`
read when it was created. -/
structure AvailIter where
  /-- The queue's descriptor table. -/
  descTable : GuestAddress
  /-- The queue's available ring. -/
  availRing : GuestAddress
  /-- The queue's size. -/
  queueSize : BitVec 16
  /-- The available ring's `idx` when the cursor was created. -/
  lastIndex : BitVec 16
  deriving DecidableEq, Repr

/-! ### A memory that serves the cursor -/

/-- The head index at available-ring position `i`, counted over unbounded integers: the
halfword in slot `i mod size`. -/
def availEntry (mem : GuestMemoryMmap) (availRing : GuestAddress) (size i : Nat) : BitVec 16 :=
  mem.read16 (availRing.toNat + 4 + 2 * (i % size))

/-- Guest memory serves every load the cursor makes over a ring of `size` entries at
`availRing`: the ring ends below `2 ^ 64`, and the atomic loads of `idx` and of each entry pass
their checks. -/
structure AvailMapped (mem : GuestMemoryMmap) (availRing : GuestAddress) (size : Nat) : Prop where
  noOverflow : availRing.toNat + 4 + 2 * size < 2 ^ 64
  idx : mem.checkAtomic ⟨BitVec.ofNat 64 (availRing.toNat + 2)⟩ 2 = .ok ()
  entry : ∀ i < size, mem.checkAtomic ⟨BitVec.ofNat 64 (availRing.toNat + 4 + 2 * i)⟩ 2 = .ok ()

/-- Whether memory serves the cursor depends only on its regions. -/
theorem AvailMapped.of_regions {mem mem' : GuestMemoryMmap} {availRing : GuestAddress} {size : Nat}
    (h : AvailMapped mem availRing size) (hr : mem'.regions = mem.regions) :
    AvailMapped mem' availRing size :=
  ⟨h.noOverflow, (mem.checkAtomic_of_regions hr _ _).trans h.idx,
    fun i hi => (mem.checkAtomic_of_regions hr _ _).trans (h.entry i hi)⟩

/-- A ring that lies, 2-byte aligned, inside one region of a memory with disjoint regions is
served. -/
theorem AvailMapped.of_region {mem : GuestMemoryMmap} (hd : mem.RegionsDisjoint)
    {r : GuestRegion} (hr : r ∈ mem.regions) {availRing : GuestAddress} {size : Nat}
    (hov : availRing.toNat + 4 + 2 * size < 2 ^ 64) (h1 : r.start ≤ availRing.toNat)
    (h2 : availRing.toNat + 4 + 2 * size ≤ r.start + r.len)
    (hal : (availRing.toNat - r.start) % 2 = 0) : AvailMapped mem availRing size := by
  refine ⟨hov, ?_, fun i hi => ?_⟩ <;>
    refine mem.checkAtomic_of_region hd hr Nat.two_pos ?_ ?_ ?_ <;>
    simp (disch := omega) only [GuestAddress.toNat_mk, BitVec.toNat_ofNat, Nat.mod_eq_of_lt] <;>
    omega

namespace AvailIter

/-- Modelled from the spec: `AvailIter::new`, a cursor over `q`'s rings up to `idx`. -/
def new (idx : BitVec 16) (q : Queue) : AvailIter := ⟨q.descTable, q.availRing, q.size, idx⟩

/-- Modelled from the spec: `AvailIter::next`.  Nothing is left once `next_avail` is the
index read; otherwise the head index at ring position `next_avail % size` is read and
`next_avail` advances by one.  The remainder is `checked_rem(..)?`, so a cursor over a queue of
size `0` yields nothing, as does a failed read. -/
def next (it : AvailIter) (q : Queue) (mem : GuestMemoryMmap) :
    Option (Option (BitVec 16) × Queue) :=
  if q.nextAvail = it.lastIndex then some (none, q)
  else if it.queueSize = 0 then some (none, q) else do
  let elemOff ← Rust.mulU64 ((q.nextAvail % it.queueSize).setWidth 64) virtqAvailElementSize
  let offset ← Rust.addU64 virtqAvailRingHeaderSize elemOff
  pure <| match it.availRing.checkedAdd offset with
    | none => (none, q)
    | some addr =>
      match mem.load addr with
      | .error _ => (none, q)
      | .ok headIndex => (some headIndex, { q with nextAvail := q.nextAvail + 1 })

/-- The cursor changes nothing but `next_avail`. -/
theorem next_eq {it : AvailIter} {q q' : Queue} {mem : GuestMemoryMmap} {c : Option (BitVec 16)}
    (h : it.next q mem = some (c, q')) : q' = q ∨ q' = { q with nextAvail := q.nextAvail + 1 } := by
  unfold next at h
  split at h
  · exact .inl (congrArg Prod.snd (Option.some.inj h)).symm
  · split at h
    · exact .inl (congrArg Prod.snd (Option.some.inj h)).symm
    · simp only [Option.bind_eq_bind, Option.bind_eq_some, Option.pure_def,
        Option.some.injEq] at h
      obtain ⟨_, -, _, -, h⟩ := h
      split at h
      · exact .inl (congrArg Prod.snd h).symm
      · split at h
        · exact .inl (congrArg Prod.snd h).symm
        · exact .inr (congrArg Prod.snd h).symm

/-- One step of a cursor over a memory that serves it: nothing once `next_avail` is the index
read, and otherwise the entry at `next_avail`, with `next_avail` advanced. -/
theorem next_of_mapped {q : Queue} {mem : GuestMemoryMmap} (idx : BitVec 16) (hs : 0 < q.size.toNat)
    (hmap : AvailMapped mem q.availRing q.size.toNat) :
    (AvailIter.new idx q).next q mem =
      if q.nextAvail = idx then some (none, q)
      else some (some (availEntry mem q.availRing q.size.toNat q.nextAvail.toNat),
        { q with nextAvail := q.nextAvail + 1 }) := by
  have hs0 : q.size ≠ 0 := fun h => by rw [h] at hs; exact Nat.lt_irrefl 0 hs
  have hr := Nat.mod_lt q.nextAvail.toNat hs
  have hov := hmap.noOverflow
  have hoff : (Rust.mulU64 ((q.nextAvail % q.size).setWidth 64) virtqAvailElementSize).bind
      (Rust.addU64 virtqAvailRingHeaderSize ·) =
        some (BitVec.ofNat 64 (4 + q.nextAvail.toNat % q.size.toNat * 2)) := by
    rw [Rust.addU64_mulU64] <;>
      simp only [toNat_setWidth_u16, BitVec.toNat_umod, toNat_virtqAvailElementSize,
        toNat_virtqAvailRingHeaderSize]
    omega
  have haddr : q.availRing.checkedAdd (BitVec.ofNat 64 (4 + q.nextAvail.toNat % q.size.toNat * 2)) =
      some ⟨BitVec.ofNat 64 (q.availRing.toNat + 4 + 2 * (q.nextAvail.toNat % q.size.toNat))⟩ :=
    GuestAddress.checkedAdd_ofNat (by omega) (by omega)
  have hA : q.availRing.toNat + 4 + 2 * (q.nextAvail.toNat % q.size.toNat) < 2 ^ 64 := by omega
  have hload := GuestMemoryMmap.load_eq (hmap.entry _ hr)
  simp only [GuestAddress.toNat_mk, BitVec.toNat_ofNat, Nat.mod_eq_of_lt hA] at hload
  simp only [next, AvailIter.new]
  split
  · rfl
  · simp only [hs0, if_false, Option.bind_eq_bind, Option.some_bind,
      ← Option.bind_assoc, hoff, haddr, hload, Option.pure_def, availEntry]

end AvailIter

namespace Queue

/-- `iter`: read the available ring's `idx` (with `Acquire`) and start a cursor up to it. -/
def iter (q : Queue) (mem : GuestMemoryMmap) : Except Error AvailIter :=
  (q.availIdx mem).map fun idx => AvailIter.new idx q

/-- `pop_descriptor_chain`: one step of a fresh cursor; an error of `iter` yields nothing. -/
def popDescriptorChain (q : Queue) (mem : GuestMemoryMmap) : Option (Option (BitVec 16) × Queue) :=
  match q.iter mem with
  | .ok it => it.next q mem
  | .error _ => some (none, q)

/-- `pop_descriptor_chain` changes nothing but `next_avail`. -/
theorem popDescriptorChain_queue {q q' : Queue} {mem : GuestMemoryMmap} {c : Option (BitVec 16)}
    (h : q.popDescriptorChain mem = some (c, q')) :
    q' = q ∨ q' = { q with nextAvail := q.nextAvail + 1 } := by
  unfold popDescriptorChain at h
  split at h
  · exact AvailIter.next_eq h
  · cases h
    exact .inl rfl

end Queue

end VirtioQueue
