import VirtioQueue.UsedRing

/-!
# What `is_valid` checks, and what it buys

`is_valid` does not look at the ring regions themselves.  For each ring it computes the
address one past the ring's end, `base + size_of_ring`, and checks that this sum does not
overflow a `u64` and that guest memory maps that single address (`Queue.isValid_eq`).  So a
ring whose first bytes are not mapped at all is accepted; and since the probe lies one past
the ring, a ring that ends exactly at the end of guest memory is refused, although its own
error message then reports the ring out of bounds (`isValid_rejects_ring_at_memory_end`).

What the check does buy is the address arithmetic: once `is_valid` has passed, every address
the queue computes from a ring base is a plain sum, with no `AddressOverflow`, and every
access lands inside the ring it belongs to, which is `[base, base + size_of_ring)`
(`isValid_ringAccesses`).

## Main definitions

* `ringEndMapped` — the probe `is_valid` makes for one ring.
* `GuestAddress.Within` — an access of `w` bytes lies inside a region.
* `RingAccesses` — where each ring access of a queue goes, and that none overflows.

## Main results

* `Queue.isValid_eq` — **`is_valid` is `ready` and the three end probes.**
* `isValid_rejects_ring_at_memory_end` — the probe refuses a ring that ends where memory ends.
* `isValid_ringAccesses` — **a valid queue accesses only its rings, without overflow.**
-/

namespace VirtioQueue

/-! ### The end probe -/

/-- The probe `is_valid` makes for a ring of `len` bytes at `base`: the address one past the
ring's end neither overflows a `u64` nor lies outside guest memory. -/
def ringEndMapped (mem : GuestMemoryMmap) (base : GuestAddress) (len : Nat) : Bool :=
  decide (base.toNat + len < 2 ^ 64) && mem.addressInRange ⟨BitVec.ofNat 64 (base.toNat + len)⟩

/-- One test of `is_valid`, `base.checked_add(len).map_or(true, |v| !address_in_range(v))`,
is the negated probe. -/
theorem checkedAdd_elim_eq {mem : GuestMemoryMmap} (base : GuestAddress) {len : Nat}
    (hlen : len < 2 ^ 64) :
    (base.checkedAdd (BitVec.ofNat 64 len)).elim true (!mem.addressInRange ·) =
      !ringEndMapped mem base len := by
  by_cases h : base.toNat + len < 2 ^ 64
  · rw [GuestAddress.checkedAdd_ofNat h rfl]
    simp only [Option.elim, ringEndMapped, h, decide_True, Bool.true_and]
  · have hn : base.checkedAdd (BitVec.ofNat 64 len) = none := by
      rw [GuestAddress.checkedAdd_eq_none, BitVec.toNat_ofNat, Nat.mod_eq_of_lt hlen]
      omega
    simp only [hn, Option.elim, ringEndMapped, h, decide_False, Bool.false_and, Bool.not_false]

namespace Queue

/-- **What `is_valid` checks**: `ready`, and for the descriptor table (`16 * size` bytes), the
available ring (`6 + 2 * size`) and the used ring (`6 + 8 * size`), that the address one past
the end neither overflows nor is unmapped.  It never panics. -/
theorem isValid_eq (q : Queue) (mem : GuestMemoryMmap) :
    q.isValid mem = some (q.ready && ringEndMapped mem q.descTable (16 * q.size.toNat) &&
      ringEndMapped mem q.availRing (6 + 2 * q.size.toNat) &&
      ringEndMapped mem q.usedRing (6 + 8 * q.size.toNat)) := by
  have hs := q.size.isLt
  simp only [isValid, descTableSize_eq, availRingSize_eq, usedRingSize_eq, Option.bind_eq_bind,
    Option.some_bind, Option.pure_def, Option.some.injEq,
    checkedAdd_elim_eq _ (by omega : 16 * q.size.toNat < 2 ^ 64),
    checkedAdd_elim_eq _ (by omega : 6 + 2 * q.size.toNat < 2 ^ 64),
    checkedAdd_elim_eq _ (by omega : 6 + 8 * q.size.toNat < 2 ^ 64)]
  cases q.ready <;> cases ringEndMapped mem q.descTable (16 * q.size.toNat) <;>
    cases ringEndMapped mem q.availRing (6 + 2 * q.size.toNat) <;>
    cases ringEndMapped mem q.usedRing (6 + 8 * q.size.toNat) <;> rfl

/-- A valid queue's available and used rings end below `2 ^ 64`. -/
theorem isValid_bounds {q : Queue} {mem : GuestMemoryMmap} (hv : q.isValid mem = some true) :
    q.availRing.toNat + (6 + 2 * q.size.toNat) < 2 ^ 64 ∧
      q.usedRing.toNat + (6 + 8 * q.size.toNat) < 2 ^ 64 := by
  simp only [isValid_eq, Option.some.injEq, Bool.and_eq_true, ringEndMapped,
    decide_eq_true_eq] at hv
  exact ⟨hv.1.2.1, hv.2.1⟩

end Queue

/-- A descriptor table `[0, 0x10)` that guest memory `[0x10, 0x1010)` does not map at all
passes `is_valid`: only the address one past it is probed. -/
example :
    (∀ i < 16, GuestMemoryMmap.addressInRange ⟨[⟨0x10, 0x1000⟩], fun _ => 0⟩
      ⟨BitVec.ofNat 64 i⟩ = false) ∧
    Queue.isValid { Queue.new 1 with
        ready := true, descTable := ⟨0⟩, availRing := ⟨0x100⟩, usedRing := ⟨0x200⟩ }
      ⟨[⟨0x10, 0x1000⟩], fun _ => 0⟩ = some true := by
  decide

/-- The probe is one byte too far.  With guest memory `[0, 0x10000)`, a ready one-element queue
whose descriptor table fills `[0xfff0, 0x10000)`, with its available ring at `[0x100, 0x108)`
and its used ring at `[0x200, 0x20e)`, has every byte of each ring mapped; `is_valid` probes
`0x10000`, one past the table's last byte, and refuses the queue, where `queue.rs` logs that the
table "goes out of bounds". -/
theorem isValid_rejects_ring_at_memory_end :
    let q : Queue :=
      { Queue.new 1 with
        ready := true, descTable := ⟨0xfff0⟩, availRing := ⟨0x100⟩, usedRing := ⟨0x200⟩ }
    let mem : GuestMemoryMmap := ⟨[⟨0, 0x10000⟩], fun _ => 0⟩
    (∀ i < 16, mem.addressInRange ⟨BitVec.ofNat 64 (0xfff0 + i)⟩) ∧
      (∀ i < 8, mem.addressInRange ⟨BitVec.ofNat 64 (0x100 + i)⟩) ∧
      (∀ i < 14, mem.addressInRange ⟨BitVec.ofNat 64 (0x200 + i)⟩) ∧
      mem.addressInRange ⟨0x10000⟩ = false ∧ q.isValid mem = some false := by
  decide

/-! ### Accesses of a valid queue -/

/-- The `w` bytes from `a` lie in the `len` bytes from `base`. -/
def GuestAddress.Within (a : GuestAddress) (w : Nat) (base : GuestAddress) (len : Nat) : Prop :=
  base.toNat ≤ a.toNat ∧ a.toNat + w ≤ base.toNat + len

theorem GuestAddress.within_ofNat {base : GuestAddress} {n w len : Nat} (h1 : base.toNat ≤ n)
    (h2 : n + w ≤ base.toNat + len) (h3 : base.toNat + len < 2 ^ 64) :
    (⟨BitVec.ofNat 64 n⟩ : GuestAddress).Within w base len := by
  simp only [GuestAddress.Within, GuestAddress.toNat_mk, BitVec.toNat_ofNat,
    Nat.mod_eq_of_lt (by omega : n < 2 ^ 64)]
  omega

namespace Queue

theorem usedIdx_of_lt {q : Queue} (h : q.usedRing.toNat + 2 < 2 ^ 64) (mem : GuestMemoryMmap) :
    q.usedIdx mem = (mem.load ⟨BitVec.ofNat 64 (q.usedRing.toNat + 2)⟩).mapError .guestMemory := by
  have h2 : q.usedRing.checkedAdd 2 = some ⟨BitVec.ofNat 64 (q.usedRing.toNat + 2)⟩ :=
    GuestAddress.checkedAdd_ofNat h rfl
  simp only [usedIdx, h2]

theorem availIdx_of_lt {q : Queue} (h : q.availRing.toNat + 2 < 2 ^ 64) (mem : GuestMemoryMmap) :
    q.availIdx mem =
      (mem.load ⟨BitVec.ofNat 64 (q.availRing.toNat + 2)⟩).mapError .guestMemory := by
  have h2 : q.availRing.checkedAdd 2 = some ⟨BitVec.ofNat 64 (q.availRing.toNat + 2)⟩ :=
    GuestAddress.checkedAdd_ofNat h rfl
  simp only [availIdx, h2]

theorem setAvailEvent_of_lt {q : Queue} (h : q.usedRing.toNat + (4 + 8 * q.size.toNat) < 2 ^ 64)
    (mem : GuestMemoryMmap) (v : BitVec 16) :
    q.setAvailEvent mem v =
      some (let r := mem.store v ⟨BitVec.ofNat 64 (q.usedRing.toNat + (4 + 8 * q.size.toNat))⟩
        (r.1.mapError .guestMemory, r.2)) := by
  simp only [setAvailEvent, availEventOffset_eq, Option.bind_eq_bind, Option.some_bind,
    Option.pure_def, GuestAddress.checkedAdd_ofNat h rfl]

theorem usedEvent_of_lt {q : Queue} (h : q.availRing.toNat + (4 + q.size.toNat * 2) < 2 ^ 64)
    (mem : GuestMemoryMmap) :
    q.usedEvent mem = some ((mem.load
      ⟨BitVec.ofNat 64 (q.availRing.toNat + (4 + q.size.toNat * 2))⟩).mapError .guestMemory) := by
  simp only [usedEvent, usedEventOffset_eq, Option.bind_eq_bind, Option.some_bind,
    Option.pure_def, GuestAddress.checkedAdd_ofNat h rfl]

end Queue

/-! ### No `AddressOverflow` -/

theorem mapError_ne_addressOverflow {α : Type} (x : Except GuestMemoryError α) :
    x.mapError Error.guestMemory ≠ .error .addressOverflow := by
  cases x <;> simp [Except.mapError]

namespace Queue

theorem setUsedFlags_ne_addressOverflow (q : Queue) (mem : GuestMemoryMmap) (v : BitVec 16) :
    (q.setUsedFlags mem v).1 ≠ .error .addressOverflow :=
  mapError_ne_addressOverflow _

theorem addUsedAt_ne_addressOverflow (q : Queue) (mem : GuestMemoryMmap) (headIndex : BitVec 16)
    (len : BitVec 32) (e i : GuestAddress) :
    (q.addUsedAt mem headIndex len e i).1 ≠ .error .addressOverflow := by
  unfold addUsedAt
  split
  · simp
  · exact mapError_ne_addressOverflow _

end Queue

/-- Where the ring accesses of a queue go.  Each method that computes an address from a ring
base is the plain guest-memory access at an address inside that ring's region: `add_used`
writes the 8-byte element and the 2-byte `idx` inside the used ring; `used_idx` reads, and
`set_avail_event` and `set_used_flags` write, 2 bytes inside the used ring; `avail_idx` and
`used_event` read 2 bytes inside the available ring.  None of these, nor
`enable_notification`, `disable_notification`, `needs_notification` and `iter`, returns
`AddressOverflow`. -/
structure RingAccesses (q : Queue) : Prop where
  addUsed : ∀ headIndex, headIndex < q.size → ∃ e i : GuestAddress,
    e.Within 8 q.usedRing (6 + 8 * q.size.toNat) ∧ i.Within 2 q.usedRing (6 + 8 * q.size.toNat) ∧
    ∀ mem len, q.addUsed mem headIndex len = some (q.addUsedAt mem headIndex len e i)
  usedIdx : ∃ a : GuestAddress, a.Within 2 q.usedRing (6 + 8 * q.size.toNat) ∧
    ∀ mem, q.usedIdx mem = (mem.load a).mapError .guestMemory
  setAvailEvent : ∃ a : GuestAddress, a.Within 2 q.usedRing (6 + 8 * q.size.toNat) ∧
    ∀ mem v, q.setAvailEvent mem v =
      some ((mem.store v a).1.mapError .guestMemory, (mem.store v a).2)
  setUsedFlags : q.usedRing.Within 2 q.usedRing (6 + 8 * q.size.toNat) ∧
    ∀ mem v, q.setUsedFlags mem v =
      ((mem.store v q.usedRing).1.mapError .guestMemory, (mem.store v q.usedRing).2)
  availIdx : ∃ a : GuestAddress, a.Within 2 q.availRing (6 + 2 * q.size.toNat) ∧
    ∀ mem, q.availIdx mem = (mem.load a).mapError .guestMemory
  usedEvent : ∃ a : GuestAddress, a.Within 2 q.availRing (6 + 2 * q.size.toNat) ∧
    ∀ mem, q.usedEvent mem = some ((mem.load a).mapError .guestMemory)
  noOverflow : ∀ mem : GuestMemoryMmap,
    (∀ headIndex len r, q.addUsed mem headIndex len = some r → r.1 ≠ .error .addressOverflow) ∧
    q.usedIdx mem ≠ .error .addressOverflow ∧ q.availIdx mem ≠ .error .addressOverflow ∧
    q.usedEvent mem ≠ some (.error .addressOverflow) ∧
    (∀ v r, q.setAvailEvent mem v = some r → r.1 ≠ .error .addressOverflow) ∧
    (∀ v, (q.setUsedFlags mem v).1 ≠ .error .addressOverflow) ∧
    (∀ r, q.enableNotification mem = some r → r.1 ≠ .error .addressOverflow) ∧
    (∀ r, q.disableNotification mem = some r → r.1 ≠ .error .addressOverflow) ∧
    (∀ r, q.needsNotification mem = some r → r.1 ≠ .error .addressOverflow) ∧
    q.iter mem ≠ .error .addressOverflow

/-! ### A valid queue -/

namespace Queue

section Bounded

variable {q : Queue} (hA : q.availRing.toNat + (6 + 2 * q.size.toNat) < 2 ^ 64)
  (hU : q.usedRing.toNat + (6 + 8 * q.size.toNat) < 2 ^ 64) (mem : GuestMemoryMmap)

include hU in
theorem setNotification_ne_addressOverflow (enable : Bool) {r : Except Error Unit × GuestMemoryMmap}
    (h : q.setNotification mem enable = some r) : r.1 ≠ .error .addressOverflow := by
  unfold setNotification at h
  split at h
  · split at h
    · rw [setAvailEvent_of_lt (by omega), Option.some.injEq] at h
      exact h ▸ mapError_ne_addressOverflow _
    · exact Option.some.inj h ▸ q.setUsedFlags_ne_addressOverflow mem 0
  · split at h
    · exact Option.some.inj h ▸ q.setUsedFlags_ne_addressOverflow mem _
    · cases h
      simp

include hA hU in
theorem enableNotification_ne_addressOverflow {r : Except Error Bool × GuestMemoryMmap}
    (h : q.enableNotification mem = some r) : r.1 ≠ .error .addressOverflow := by
  simp only [enableNotification, Option.bind_eq_bind, Option.bind_eq_some, Option.pure_def,
    Option.some.injEq] at h
  obtain ⟨r₁, h₁, rfl⟩ := h
  have hne := setNotification_ne_addressOverflow hU mem true h₁
  obtain ⟨_ | ⟨⟩, mem₁⟩ := r₁
  · simpa using hne
  · dsimp only
    rw [availIdx_of_lt (by omega)]
    cases mem₁.load _ <;> simp [Except.mapError, Except.map]

include hA in
theorem needsNotification_ne_addressOverflow {r : Except Error Bool × Queue}
    (h : q.needsNotification mem = some r) : r.1 ≠ .error .addressOverflow := by
  unfold needsNotification at h
  split at h
  · rw [usedEvent_of_lt (by omega)] at h
    simp only [Option.bind_eq_bind, Option.some_bind, Option.pure_def, Option.some.injEq] at h
    subst h
    cases hl : mem.load _ <;> simp [hl, Except.mapError]
  · cases h
    simp

include hU in
theorem addUsed_ne_addressOverflow (headIndex : BitVec 16) (len : BitVec 32)
    {r : Except Error Unit × Queue × GuestMemoryMmap} (h : q.addUsed mem headIndex len = some r) :
    r.1 ≠ .error .addressOverflow := by
  by_cases hh : q.size ≤ headIndex
  · rw [addUsed_of_le hh, Option.some.injEq] at h
    subst h
    simp
  · have hh := BitVec.not_le.mp hh
    have := Nat.mod_lt q.nextUsed.toNat (Nat.lt_of_le_of_lt (Nat.zero_le _) hh)
    rw [addUsed_eq_addUsedAt hh (by omega), Option.some.injEq] at h
    exact h ▸ q.addUsedAt_ne_addressOverflow mem headIndex len _ _

end Bounded

end Queue

/-- **The accesses of a valid queue.**  Once `is_valid` has returned `true` (against any guest
memory), whatever `next_used` and `next_avail` hold: every address the queue computes from a
ring base is the plain sum, every access lies inside its ring, `[used_ring, used_ring + 6 +
8 * size)` or `[avail_ring, avail_ring + 6 + 2 * size)`, and no method returns
`AddressOverflow`, whatever guest memory it is called against. -/
theorem isValid_ringAccesses {q : Queue} {mem₀ : GuestMemoryMmap}
    (hv : q.isValid mem₀ = some true) : RingAccesses q := by
  obtain ⟨hA, hU⟩ := Queue.isValid_bounds hv
  refine ⟨fun headIndex hh => ?_, ⟨_, GuestAddress.within_ofNat (by omega) (by omega) hU,
      Queue.usedIdx_of_lt (by omega)⟩,
    ⟨_, GuestAddress.within_ofNat (by omega) (by omega) hU, Queue.setAvailEvent_of_lt (by omega)⟩,
    ⟨⟨Nat.le_refl _, by omega⟩, fun _ _ => rfl⟩,
    ⟨_, GuestAddress.within_ofNat (by omega) (by omega) hA, Queue.availIdx_of_lt (by omega)⟩,
    ⟨_, GuestAddress.within_ofNat (by omega) (by omega) hA, Queue.usedEvent_of_lt (by omega)⟩,
    fun mem => ⟨fun h l _ => Queue.addUsed_ne_addressOverflow hU mem h l, ?_, ?_, ?_,
      fun v r h => ?_, q.setUsedFlags_ne_addressOverflow mem,
      fun _ => Queue.enableNotification_ne_addressOverflow hA hU mem,
      fun _ => Queue.setNotification_ne_addressOverflow hU mem false,
      fun _ => Queue.needsNotification_ne_addressOverflow hA mem, ?_⟩⟩
  · have := Nat.mod_lt q.nextUsed.toNat (Nat.lt_of_le_of_lt (Nat.zero_le _) hh)
    exact ⟨_, _, GuestAddress.within_ofNat (by omega) (by omega) hU,
      GuestAddress.within_ofNat (by omega) (by omega) hU,
      Queue.addUsed_eq_addUsedAt hh (by omega)⟩
  · rw [Queue.usedIdx_of_lt (by omega)]
    exact mapError_ne_addressOverflow _
  · rw [Queue.availIdx_of_lt (by omega)]
    exact mapError_ne_addressOverflow _
  · rw [Queue.usedEvent_of_lt (by omega)]
    exact fun h => mapError_ne_addressOverflow _ (Option.some.inj h)
  · rw [Queue.setAvailEvent_of_lt (by omega), Option.some.injEq] at h
    exact h ▸ mapError_ne_addressOverflow _
  · rw [Queue.iter, Queue.availIdx_of_lt (by omega)]
    cases mem.load _ <;> simp [Except.mapError, Except.map]

/-- A ready one-element queue with its rings at `0`, `0x100` and `0x200` of guest memory
`[0, 0x1000)` is valid, and so accesses only its rings. -/
theorem isValid_ringAccesses_one :
    let q : Queue :=
      { Queue.new 1 with
        ready := true, descTable := ⟨0⟩, availRing := ⟨0x100⟩, usedRing := ⟨0x200⟩ }
    q.isValid ⟨[⟨0, 0x1000⟩], fun _ => 0⟩ = some true ∧ RingAccesses q := by
  intro q
  have hv : q.isValid ⟨[⟨0, 0x1000⟩], fun _ => 0⟩ = some true := rfl
  exact ⟨hv, isValid_ringAccesses hv⟩

end VirtioQueue
