import VirtioQueue.GuestMemory

/-!
# The queue

`Queue` of `queue.rs`, field for field, and its methods.  A method that takes `&mut self`
returns the queue it leaves behind, also when it returns `Err`: Rust keeps every assignment
made before the error.  A method that writes guest memory returns the memory it leaves
behind, also after an error.  A method whose arithmetic can panic returns an `Option`,
`none` where Rust would panic (`VirtioQueue.Rust`).

The fields are public in Rust, so a `Queue` may hold any values; the invariant the setters
maintain is stated and proved in `VirtioQueue.Ops`.

`fence(Ordering::SeqCst)` and the memory orderings of the accesses have no effect on a
single-threaded run; `VirtioQueue.Wakeup` interleaves the driver at the fence of
`enable_notification`.  The `error!` log lines are left out: nothing reads them.

## Main definitions

* `Queue`, `Queue.new`, `Queue.reset` and the configuration setters.
* `Queue.isValid` — the ring regions end inside guest memory.
* `Queue.addUsed` — publish one used element; `Queue.addUsedElem` and `Queue.addUsedIdx`, its
  halves before and after the store of the used ring's `idx` (`Queue.addUsed_halves`).
* `Queue.setNotification`, `Queue.enableNotification`, `Queue.disableNotification`,
  `Queue.needsNotification` — notification suppression.
-/

namespace VirtioQueue

/-- The queue's `Error`, as far as `queue.rs` raises it. -/
inductive Error where
  /-- An address computation overflows a `u64`. -/
  | addressOverflow
  /-- A descriptor index is not below the queue size. -/
  | invalidDescriptorIndex
  /-- Guest memory refused an access. -/
  | guestMemory (e : GuestMemoryError)
  deriving DecidableEq, Repr

/-- Modelled from the spec: `VirtqUsedElem`, one element of the used ring. -/
structure VirtqUsedElem where
  /-- The head index of the completed chain. -/
  id : BitVec 32
  /-- The number of bytes written into the chain's buffers. -/
  len : BitVec 32
  deriving DecidableEq, Repr

/-- `VirtqUsedElem::new`. -/
def VirtqUsedElem.new (id len : BitVec 32) : VirtqUsedElem := ⟨id, len⟩

/-- The element as it lies in guest memory: `id`, then `len`, both little-endian. -/
def VirtqUsedElem.toBytes (e : VirtqUsedElem) : List (BitVec 8) :=
  GuestMemoryMmap.leBytes 4 e.id.toNat ++ GuestMemoryMmap.leBytes 4 e.len.toNat

@[simp] theorem VirtqUsedElem.length_toBytes (e : VirtqUsedElem) : e.toBytes.length = 8 := rfl

/-- `struct Queue`. -/
structure Queue where
  /-- The maximum size in elements offered by the device. -/
  maxSize : BitVec 16
  /-- Tail position of the available ring. -/
  nextAvail : BitVec 16
  /-- Head position of the used ring. -/
  nextUsed : BitVec 16
  /-- `VIRTIO_F_RING_EVENT_IDX` negotiated. -/
  eventIdxEnabled : Bool
  /-- Chains placed in the used ring by `add_used` since the last `needs_notification`. -/
  numAdded : BitVec 16
  /-- The queue size in elements the driver selected. -/
  size : BitVec 16
  /-- The queue is finished with configuration. -/
  ready : Bool
  /-- Guest physical address of the descriptor table. -/
  descTable : GuestAddress
  /-- Guest physical address of the available ring. -/
  availRing : GuestAddress
  /-- Guest physical address of the used ring. -/
  usedRing : GuestAddress
  deriving DecidableEq, Repr

namespace Queue

/-! ### Ring fields -/

/-- `avail_event_offset` of `set_avail_event`: the used ring's header and elements. -/
def availEventOffset (q : Queue) : Option (BitVec 64) := do
  Rust.addU64 virtqUsedRingHeaderSize (← Rust.mulU64 virtqUsedElementSize (q.size.setWidth 64))

theorem availEventOffset_eq (q : Queue) :
    q.availEventOffset = some (BitVec.ofNat 64 (4 + 8 * q.size.toNat)) := by
  have hs := q.size.isLt
  simp only [availEventOffset, Option.bind_eq_bind]
  exact Rust.addU64_mulU64 (by simp only [toNat_virtqUsedElementSize,
    toNat_virtqUsedRingHeaderSize, toNat_setWidth_u16]; omega)

/-- `set_avail_event`: store `val` into the used ring's `avail_event`, after its elements. -/
def setAvailEvent (q : Queue) (mem : GuestMemoryMmap) (val : BitVec 16) :
    Option (Except Error Unit × GuestMemoryMmap) := do
  let availEventOffset ← q.availEventOffset
  pure <| match q.usedRing.checkedAdd availEventOffset with
    | none => (.error .addressOverflow, mem)
    | some addr =>
      let r := mem.store val addr
      (r.1.mapError .guestMemory, r.2)

/-- `set_used_flags`: store `val` into the used ring's `flags`. -/
def setUsedFlags (q : Queue) (mem : GuestMemoryMmap) (val : BitVec 16) :
    Except Error Unit × GuestMemoryMmap :=
  let r := mem.store val q.usedRing
  (r.1.mapError .guestMemory, r.2)

/-- `set_notification`: arm (`enable`) or suppress driver notifications. -/
def setNotification (q : Queue) (mem : GuestMemoryMmap) (enable : Bool) :
    Option (Except Error Unit × GuestMemoryMmap) :=
  if enable then
    if q.eventIdxEnabled then q.setAvailEvent mem q.nextAvail
    else some (q.setUsedFlags mem 0)
  else if !q.eventIdxEnabled then some (q.setUsedFlags mem vringUsedFNoNotify)
  else some (.ok (), mem)

/-- `used_event_offset` of `used_event`: the available ring's header and elements. -/
def usedEventOffset (q : Queue) : Option (BitVec 64) := do
  Rust.addU64 virtqAvailRingHeaderSize (← Rust.mulU64 (q.size.setWidth 64) virtqAvailElementSize)

theorem usedEventOffset_eq (q : Queue) :
    q.usedEventOffset = some (BitVec.ofNat 64 (4 + q.size.toNat * 2)) := by
  have hs := q.size.isLt
  simp only [usedEventOffset, Option.bind_eq_bind]
  exact Rust.addU64_mulU64 (by simp only [toNat_virtqAvailElementSize,
    toNat_virtqAvailRingHeaderSize, toNat_setWidth_u16]; omega)

/-- `used_event`: the available ring's `used_event`, after its elements. -/
def usedEvent (q : Queue) (mem : GuestMemoryMmap) : Option (Except Error (BitVec 16)) := do
  let usedEventOffset ← q.usedEventOffset
  pure <| match q.availRing.checkedAdd usedEventOffset with
    | none => .error .addressOverflow
    | some addr => (mem.load addr).mapError .guestMemory

/-! ### Construction and configuration -/

/-- `Queue::new`. -/
def new (maxSize : BitVec 16) : Queue where
  maxSize := maxSize
  size := maxSize
  ready := false
  descTable := ⟨defaultDescTableAddr⟩
  availRing := ⟨defaultAvailRingAddr⟩
  usedRing := ⟨defaultUsedRingAddr⟩
  nextAvail := 0
  nextUsed := 0
  eventIdxEnabled := false
  numAdded := 0

/-- `desc_table_size` of `is_valid`. -/
def descTableSize (q : Queue) : Option (BitVec 64) :=
  Rust.mulU64 descriptorSize (q.size.setWidth 64)

/-- `avail_ring_size` of `is_valid`: header, elements and `used_event`. -/
def availRingSize (q : Queue) : Option (BitVec 64) := do
  Rust.addU64 virtqAvailRingMetaSize (← Rust.mulU64 virtqAvailElementSize (q.size.setWidth 64))

/-- `used_ring_size` of `is_valid`: header, elements and `avail_event`. -/
def usedRingSize (q : Queue) : Option (BitVec 64) := do
  Rust.addU64 virtqUsedRingMetaSize (← Rust.mulU64 virtqUsedElementSize (q.size.setWidth 64))

theorem descTableSize_eq (q : Queue) :
    q.descTableSize = some (BitVec.ofNat 64 (16 * q.size.toNat)) := by
  have hs := q.size.isLt
  exact Rust.mulU64_eq_ofNat (by simp only [toNat_descriptorSize, toNat_setWidth_u16]; omega)

theorem availRingSize_eq (q : Queue) :
    q.availRingSize = some (BitVec.ofNat 64 (6 + 2 * q.size.toNat)) := by
  have hs := q.size.isLt
  simp only [availRingSize, Option.bind_eq_bind]
  exact Rust.addU64_mulU64 (by simp only [toNat_virtqAvailElementSize,
    toNat_virtqAvailRingMetaSize, toNat_setWidth_u16]; omega)

theorem usedRingSize_eq (q : Queue) :
    q.usedRingSize = some (BitVec.ofNat 64 (6 + 8 * q.size.toNat)) := by
  have hs := q.size.isLt
  simp only [usedRingSize, Option.bind_eq_bind]
  exact Rust.addU64_mulU64 (by simp only [toNat_virtqUsedElementSize,
    toNat_virtqUsedRingMetaSize, toNat_setWidth_u16]; omega)

/-- `is_valid`: the queue is ready, and the address one past each ring region neither
overflows nor lies outside guest memory. -/
def isValid (q : Queue) (mem : GuestMemoryMmap) : Option Bool := do
  let descTableSize ← q.descTableSize
  let availRingSize ← q.availRingSize
  let usedRingSize ← q.usedRingSize
  pure <|
    if !q.ready then false
    else if (q.descTable.checkedAdd descTableSize).elim true (!mem.addressInRange ·) then false
    else if (q.availRing.checkedAdd availRingSize).elim true (!mem.addressInRange ·) then false
    else if (q.usedRing.checkedAdd usedRingSize).elim true (!mem.addressInRange ·) then false
    else true

/-- `reset`: back to the configuration of `new`, keeping `max_size`. -/
def reset (q : Queue) : Queue :=
  { q with
    ready := false
    size := q.maxSize
    descTable := ⟨defaultDescTableAddr⟩
    availRing := ⟨defaultAvailRingAddr⟩
    usedRing := ⟨defaultUsedRingAddr⟩
    nextAvail := 0
    nextUsed := 0
    numAdded := 0
    eventIdxEnabled := false }

/-- `set_size`: accept a power of two in `1 ..= max_size`, ignore anything else.  The
subtraction `size - 1` is evaluated only when `size != 0`, after `||` short-circuits. -/
def setSize (q : Queue) (size : BitVec 16) : Option Queue := do
  let invalid ←
    if size > q.maxSize || size == 0 then pure true
    else do pure ((size &&& (← Rust.subU16 size 1)) != 0)
  pure (if invalid then q else { q with size := size })

/-- `set_size` never panics: `size - 1` is taken only when `size != 0`. -/
theorem setSize_eq (q : Queue) (s : BitVec 16) :
    q.setSize s =
      some (if s ≤ q.maxSize ∧ s ≠ 0 ∧ s &&& (s - 1) = 0 then { q with size := s } else q) := by
  by_cases hs : s = 0
  · simp [setSize, hs]
  · by_cases hm : q.maxSize < s
    · simp [setSize, hm, BitVec.not_le.mpr hm]
    · have h1 : 1#16 ≤ s := by
        rw [BitVec.le_def]; exact toNat_pos_of_ne_zero hs
      have hs' : ¬ s = 0#16 := hs
      simp [setSize, Rust.subU16, hs', hm, h1, BitVec.not_lt.mp hm]

/-- `set_ready`. -/
def setReady (q : Queue) (ready : Bool) : Queue := { q with ready := ready }

/-- `set_event_idx`. -/
def setEventIdx (q : Queue) (enabled : Bool) : Queue := { q with eventIdxEnabled := enabled }

/-- `set_next_avail`. -/
def setNextAvail (q : Queue) (nextAvail : BitVec 16) : Queue := { q with nextAvail := nextAvail }

/-- `set_next_used`. -/
def setNextUsed (q : Queue) (nextUsed : BitVec 16) : Queue := { q with nextUsed := nextUsed }

/-- `go_to_previous_position`. -/
def goToPreviousPosition (q : Queue) : Queue := { q with nextAvail := q.nextAvail - 1 }

/-! ### Ring addresses

The three address setters differ only in the field they write and the alignment they
demand, so they share one body. -/

/-- The address a setter assembles: each half that is given replaces that half of `cur`. -/
def combineAddress (cur : GuestAddress) (low high : Option (BitVec 32)) : GuestAddress :=
  let low := (low.getD (cur.rawValue.setWidth 32)).setWidth 64
  let high := (high.getD ((cur.rawValue >>> 32).setWidth 32)).setWidth 64
  ⟨(high <<< 32) ||| low⟩

/-- The body of a ring-address setter: the assembled address, or `cur` when the assembled
address has a bit of `mask` set. -/
def setRingAddress (mask : BitVec 64) (cur : GuestAddress) (low high : Option (BitVec 32)) :
    GuestAddress :=
  let a := combineAddress cur low high
  if a.mask mask != 0 then cur else a

/-- `set_desc_table_address`: 16-byte aligned. -/
def setDescTableAddress (q : Queue) (low high : Option (BitVec 32)) : Queue :=
  { q with descTable := setRingAddress 0xf q.descTable low high }

/-- `set_avail_ring_address`: 2-byte aligned. -/
def setAvailRingAddress (q : Queue) (low high : Option (BitVec 32)) : Queue :=
  { q with availRing := setRingAddress 0x1 q.availRing low high }

/-- `set_used_ring_address`: 4-byte aligned. -/
def setUsedRingAddress (q : Queue) (low high : Option (BitVec 32)) : Queue :=
  { q with usedRing := setRingAddress 0x3 q.usedRing low high }

/-! ### Ring indices -/

/-- `avail_idx`: the available ring's `idx`. -/
def availIdx (q : Queue) (mem : GuestMemoryMmap) : Except Error (BitVec 16) :=
  match q.availRing.checkedAdd 2 with
  | none => .error .addressOverflow
  | some addr => (mem.load addr).mapError .guestMemory

/-- `used_idx`: the used ring's `idx`. -/
def usedIdx (q : Queue) (mem : GuestMemoryMmap) : Except Error (BitVec 16) :=
  match q.usedRing.checkedAdd 2 with
  | none => .error .addressOverflow
  | some addr => (mem.load addr).mapError .guestMemory

/-- `offset` of `add_used`: the header, and `next_used % size` elements. -/
def usedElemOffset (q : Queue) : Option (BitVec 64) := do
  let nextUsedIndex := (← Rust.remU16 q.nextUsed q.size).setWidth 64
  Rust.addU64 virtqUsedRingHeaderSize (← Rust.mulU64 nextUsedIndex virtqUsedElementSize)

/-- The remainder of `add_used` is taken by a nonzero size, and the offset is exact. -/
theorem usedElemOffset_eq {q : Queue} (h : q.size ≠ 0) :
    q.usedElemOffset = some (BitVec.ofNat 64 (4 + q.nextUsed.toNat % q.size.toNat * 8)) := by
  have hm := Nat.mod_lt q.nextUsed.toNat (toNat_pos_of_ne_zero h)
  have hs := q.size.isLt
  simp only [usedElemOffset, Rust.remU16, h, if_false, Option.bind_eq_bind, Option.some_bind]
  rw [Rust.addU64_mulU64] <;>
    simp only [toNat_virtqUsedElementSize, toNat_virtqUsedRingHeaderSize, toNat_setWidth_u16,
      BitVec.toNat_umod]
  omega

/-- `add_used` once the element's `offset` in the used ring is known: write the element,
advance `next_used` and `num_added`, then publish `next_used` in the used ring's `idx`.  The
counters advance before that last store, whatever it returns. -/
def addUsedAtOffset (q : Queue) (mem : GuestMemoryMmap) (headIndex : BitVec 16) (len : BitVec 32)
    (offset : BitVec 64) : Except Error Unit × Queue × GuestMemoryMmap :=
  match q.usedRing.checkedAdd offset with
  | none => (.error .addressOverflow, q, mem)
  | some addr =>
    match mem.writeObj (VirtqUsedElem.new (headIndex.setWidth 32) len).toBytes addr with
    | (.error e, mem) => (.error (.guestMemory e), q, mem)
    | (.ok (), mem) =>
      let q := { q with nextUsed := q.nextUsed + 1, numAdded := q.numAdded + 1 }
      match q.usedRing.checkedAdd 2 with
      | none => (.error .addressOverflow, q, mem)
      | some idxAddr =>
        let r := mem.store q.nextUsed idxAddr
        (r.1.mapError .guestMemory, q, r.2)

/-- `add_used`: reject a head index not below the size, then write the element `(head_index,
len)` into the used ring's slot `next_used % size` (`addUsedAtOffset`). -/
def addUsed (q : Queue) (mem : GuestMemoryMmap) (headIndex : BitVec 16) (len : BitVec 32) :
    Option (Except Error Unit × Queue × GuestMemoryMmap) :=
  if q.size ≤ headIndex then some (.error .invalidDescriptorIndex, q, mem) else do
  let offset ← q.usedElemOffset
  pure (q.addUsedAtOffset mem headIndex len offset)

theorem addUsed_of_le {q : Queue} {headIndex : BitVec 16} (h : q.size ≤ headIndex)
    (mem : GuestMemoryMmap) (len : BitVec 32) :
    q.addUsed mem headIndex len = some (.error .invalidDescriptorIndex, q, mem) := by
  simp only [addUsed, h, if_true]

/-- Below the size, `add_used` never panics: the slot is `next_used % size`. -/
theorem addUsed_of_lt {q : Queue} {headIndex : BitVec 16} (h : headIndex < q.size)
    (mem : GuestMemoryMmap) (len : BitVec 32) :
    q.addUsed mem headIndex len = some (q.addUsedAtOffset mem headIndex len
      (BitVec.ofNat 64 (4 + q.nextUsed.toNat % q.size.toNat * 8))) := by
  have hs : q.size ≠ 0 := by
    intro h0; rw [h0, BitVec.lt_def] at h; simp at h
  simp only [addUsed, BitVec.not_le.mpr h, if_false, usedElemOffset_eq hs, Option.bind_eq_bind,
    Option.some_bind, Option.pure_def]

/-- The queue after `add_used`: unchanged, or with both counters advanced. -/
theorem addUsedAtOffset_queue {q q' : Queue} {mem mem' : GuestMemoryMmap} {headIndex : BitVec 16}
    {len : BitVec 32} {offset : BitVec 64} {r : Except Error Unit}
    (h : q.addUsedAtOffset mem headIndex len offset = (r, q', mem')) :
    q' = q ∨ q' = { q with nextUsed := q.nextUsed + 1, numAdded := q.numAdded + 1 } := by
  have hq : q' = (q.addUsedAtOffset mem headIndex len offset).2.1 := by rw [h]
  rw [hq]
  unfold addUsedAtOffset
  split
  · exact .inl rfl
  · split
    · exact .inl rfl
    · dsimp only
      split <;> exact .inr rfl

theorem addUsed_queue {q q' : Queue} {mem mem' : GuestMemoryMmap} {headIndex : BitVec 16}
    {len : BitVec 32} {r : Except Error Unit}
    (h : q.addUsed mem headIndex len = some (r, q', mem')) :
    q' = q ∨ q' = { q with nextUsed := q.nextUsed + 1, numAdded := q.numAdded + 1 } := by
  by_cases hs : q.size ≤ headIndex
  · rw [addUsed_of_le hs] at h
    exact .inl (congrArg (·.2.1) (Option.some.inj h)).symm
  · rw [addUsed_of_lt (BitVec.not_le.mp hs), Option.some.injEq] at h
    exact addUsedAtOffset_queue h

/-- `add_used` up to its `write_obj`: reject a head index not below the size, then write the
element `(head_index, len)` into the used ring's slot `next_used % size`. -/
def addUsedElem (q : Queue) (mem : GuestMemoryMmap) (headIndex : BitVec 16) (len : BitVec 32) :
    Option (Except Error Unit × GuestMemoryMmap) :=
  if q.size ≤ headIndex then some (.error .invalidDescriptorIndex, mem) else do
  let offset ← q.usedElemOffset
  pure <| match q.usedRing.checkedAdd offset with
    | none => (.error .addressOverflow, mem)
    | some addr =>
      let r := mem.writeObj (VirtqUsedElem.new (headIndex.setWidth 32) len).toBytes addr
      (r.1.mapError .guestMemory, r.2)

/-- The rest of `add_used`, once its element is written: advance `next_used` and `num_added`,
then store the new `next_used` into the used ring's `idx`. -/
def addUsedIdx (q : Queue) (mem : GuestMemoryMmap) : Except Error Unit × Queue × GuestMemoryMmap :=
  let q := { q with nextUsed := q.nextUsed + 1, numAdded := q.numAdded + 1 }
  match q.usedRing.checkedAdd 2 with
  | none => (.error .addressOverflow, q, mem)
  | some idxAddr =>
    let r := mem.store q.nextUsed idxAddr
    (r.1.mapError .guestMemory, q, r.2)

/-- `add_used` is its two halves, the second made when the first returned `Ok`. -/
theorem addUsed_halves (q : Queue) (mem : GuestMemoryMmap) (headIndex : BitVec 16)
    (len : BitVec 32) :
    q.addUsed mem headIndex len = (q.addUsedElem mem headIndex len).map fun r =>
      match r.1 with
      | .ok () => q.addUsedIdx r.2
      | .error e => (.error e, q, r.2) := by
  unfold addUsed addUsedElem
  split
  · rfl
  · cases q.usedElemOffset with
    | none => rfl
    | some offset =>
      simp only [Option.bind_eq_bind, Option.some_bind, Option.pure_def, Option.map_some',
        addUsedAtOffset]
      cases q.usedRing.checkedAdd offset with
      | none => rfl
      | some addr =>
        dsimp only
        generalize mem.writeObj _ _ = w
        obtain ⟨r, mem₁⟩ := w
        cases r <;> rfl

/-! ### Notifications -/

/-- `enable_notification`: arm notifications, then (after a `SeqCst` fence) report whether
the driver published entries past `next_avail` meanwhile. -/
def enableNotification (q : Queue) (mem : GuestMemoryMmap) :
    Option (Except Error Bool × GuestMemoryMmap) := do
  let r ← q.setNotification mem true
  pure <| match r with
    | (.error e, mem) => (.error e, mem)
    | (.ok (), mem) => ((q.availIdx mem).map (· != q.nextAvail), mem)

/-- `disable_notification`. -/
def disableNotification (q : Queue) (mem : GuestMemoryMmap) :
    Option (Except Error Unit × GuestMemoryMmap) :=
  q.setNotification mem false

/-- `needs_notification`: with `EVENT_IDX`, whether `used_event` lies in the circular
interval of used indices written since the last call, which resets `num_added`. -/
def needsNotification (q : Queue) (mem : GuestMemoryMmap) :
    Option (Except Error Bool × Queue) :=
  let usedIdx := q.nextUsed
  if q.eventIdxEnabled then do
    let r ← q.usedEvent mem
    pure <| match r with
      | .error e => (.error e, q)
      | .ok usedEvent =>
        let old := usedIdx - q.numAdded
        (.ok (decide (usedIdx - usedEvent - 1 < usedIdx - old)), { q with numAdded := 0 })
  else some (.ok true, q)

/-- The queue after `needs_notification`: unchanged, or with `num_added` reset. -/
theorem needsNotification_queue {q q' : Queue} {mem : GuestMemoryMmap} {r : Except Error Bool}
    (h : q.needsNotification mem = some (r, q')) : q' = q ∨ q' = { q with numAdded := 0 } := by
  unfold needsNotification at h
  split at h
  · simp only [Option.bind_eq_bind, Option.bind_eq_some, Option.pure_def, Option.some.injEq] at h
    obtain ⟨_, -, h⟩ := h
    split at h
    · exact .inl (congrArg Prod.snd h).symm
    · exact .inr (congrArg Prod.snd h).symm
  · exact .inl (congrArg Prod.snd (Option.some.inj h)).symm

end Queue

end VirtioQueue
