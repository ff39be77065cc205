import VirtioQueue.AvailIter

/-!
# Calls, reachable queues and the configuration invariant

A device model drives a `Queue` through its public methods, each call against the guest
memory of the moment: the driver writes guest memory concurrently, so every call may see any
memory at all.  `Queue.exec` runs one call, `Reachable maxSize` collects the queues reachable
from `Queue::new maxSize` by any sequence of calls.

The specification promises that `0 < size ≤ max_size`, that `size` is a power of two, and
that the rings are 16-, 2- and 4-byte aligned (§3).  The setters reject the values that would
break this, but `Queue::new` and `reset` copy `max_size` into `size` unchecked: the bounds and
the alignment hold exactly when the device offers a nonzero `max_size`, and the power-of-two
size exactly when it offers a power of two (`reachable_wf`).

## Main definitions

* `Op`, `Ret`, `Queue.exec` — one call of the API.
* `Reachable` — the queues a run from `Queue::new` reaches.
* `Steps` — a run of calls, counting those that move `next_used`.
* `WfNz`, `Wf` — the configuration invariant, without and with the power-of-two size.

## Main results

* `exec_wfNz` — every call keeps the invariant.
* `reachable_wf` — **every reachable queue satisfies it, and every rejecting setter leaves
  the queue as it was.**
* `exec_error` — what a failed call leaves behind.
* `no_panic` — no method panics, whatever the fields hold.
-/

namespace VirtioQueue

/-- A call of the queue's API, with its arguments. -/
inductive Op where
  | setSize (size : BitVec 16)
  | setDescTableAddress (low high : Option (BitVec 32))
  | setAvailRingAddress (low high : Option (BitVec 32))
  | setUsedRingAddress (low high : Option (BitVec 32))
  | setReady (ready : Bool)
  | setEventIdx (enabled : Bool)
  | setNextAvail (nextAvail : BitVec 16)
  | setNextUsed (nextUsed : BitVec 16)
  | reset
  | isValid
  | availIdx
  | usedIdx
  | addUsed (headIndex : BitVec 16) (len : BitVec 32)
  | enableNotification
  | disableNotification
  | needsNotification
  | iter
  /-- `AvailIter::next` on a cursor of this queue that read `lastIndex`. -/
  | next (lastIndex : BitVec 16)
  | popDescriptorChain
  | goToPreviousPosition
  deriving DecidableEq, Repr

/-- What a call returns when it returns `Ok`. -/
inductive Ret where
  | unit
  | bool (b : Bool)
  | index (v : BitVec 16)
  | iter (it : AvailIter)
  | chain (head : Option (BitVec 16))
  deriving DecidableEq, Repr

namespace Queue

/-- One call against guest memory `mem`: its result, and the queue and memory it leaves;
`none` when it panics. -/
def exec (q : Queue) (mem : GuestMemoryMmap) :
    Op → Option (Except Error Ret × Queue × GuestMemoryMmap)
  | .setSize s => (q.setSize s).map fun q => (.ok .unit, q, mem)
  | .setDescTableAddress l h => some (.ok .unit, q.setDescTableAddress l h, mem)
  | .setAvailRingAddress l h => some (.ok .unit, q.setAvailRingAddress l h, mem)
  | .setUsedRingAddress l h => some (.ok .unit, q.setUsedRingAddress l h, mem)
  | .setReady b => some (.ok .unit, q.setReady b, mem)
  | .setEventIdx b => some (.ok .unit, q.setEventIdx b, mem)
  | .setNextAvail v => some (.ok .unit, q.setNextAvail v, mem)
  | .setNextUsed v => some (.ok .unit, q.setNextUsed v, mem)
  | .reset => some (.ok .unit, q.reset, mem)
  | .isValid => (q.isValid mem).map fun b => (.ok (.bool b), q, mem)
  | .availIdx => some ((q.availIdx mem).map .index, q, mem)
  | .usedIdx => some ((q.usedIdx mem).map .index, q, mem)
  | .addUsed h l => (q.addUsed mem h l).map fun r => (r.1.map fun _ => .unit, r.2)
  | .enableNotification => (q.enableNotification mem).map fun r => (r.1.map .bool, q, r.2)
  | .disableNotification =>
    (q.disableNotification mem).map fun r => (r.1.map fun _ => .unit, q, r.2)
  | .needsNotification => (q.needsNotification mem).map fun r => (r.1.map .bool, r.2, mem)
  | .iter => some ((q.iter mem).map .iter, q, mem)
  | .next last => ((AvailIter.new last q).next q mem).map fun r => (.ok (.chain r.1), r.2, mem)
  | .popDescriptorChain => (q.popDescriptorChain mem).map fun r => (.ok (.chain r.1), r.2, mem)
  | .goToPreviousPosition => some (.ok .unit, q.goToPreviousPosition, mem)

end Queue

/-- What a call may do to the queue. -/
def Op.Effect : Op → Queue → Queue → Prop
  | .setSize s, q, q' =>
    q' = if s ≤ q.maxSize ∧ s ≠ 0 ∧ s &&& (s - 1) = 0 then { q with size := s } else q
  | .setDescTableAddress l h, q, q' => q' = q.setDescTableAddress l h
  | .setAvailRingAddress l h, q, q' => q' = q.setAvailRingAddress l h
  | .setUsedRingAddress l h, q, q' => q' = q.setUsedRingAddress l h
  | .setReady b, q, q' => q' = q.setReady b
  | .setEventIdx b, q, q' => q' = q.setEventIdx b
  | .setNextAvail v, q, q' => q' = q.setNextAvail v
  | .setNextUsed v, q, q' => q' = q.setNextUsed v
  | .reset, q, q' => q' = q.reset
  | .addUsed _ _, q, q' =>
    q' = q ∨ q' = { q with nextUsed := q.nextUsed + 1, numAdded := q.numAdded + 1 }
  | .needsNotification, q, q' => q' = q ∨ q' = { q with numAdded := 0 }
  | .next _, q, q' | .popDescriptorChain, q, q' =>
    q' = q ∨ q' = { q with nextAvail := q.nextAvail + 1 }
  | .goToPreviousPosition, q, q' => q' = q.goToPreviousPosition
  | .isValid, q, q' | .availIdx, q, q' | .usedIdx, q, q' | .enableNotification, q, q'
  | .disableNotification, q, q' | .iter, q, q' => q' = q

/-- **What a call does to the queue**, said once for every invariant. -/
theorem Queue.exec_effect {q q' : Queue} {mem mem' : GuestMemoryMmap} {op : Op}
    {r : Except Error Ret} (h : q.exec mem op = some (r, q', mem')) : op.Effect q q' := by
  cases op with
  | setSize s =>
    simp only [Queue.exec, Queue.setSize_eq, Option.map_some', Option.some.injEq,
      Prod.mk.injEq] at h
    exact h.2.1.symm
  | addUsed _ _ =>
    obtain ⟨⟨_, _, _⟩, hr, ⟨⟩⟩ := Option.map_eq_some'.mp h
    exact Queue.addUsed_queue hr
  | needsNotification =>
    obtain ⟨⟨_, _⟩, hr, ⟨⟩⟩ := Option.map_eq_some'.mp h
    exact Queue.needsNotification_queue hr
  | next _ =>
    obtain ⟨⟨_, _⟩, hr, ⟨⟩⟩ := Option.map_eq_some'.mp h
    exact AvailIter.next_eq hr
  | popDescriptorChain =>
    obtain ⟨⟨_, _⟩, hr, ⟨⟩⟩ := Option.map_eq_some'.mp h
    exact Queue.popDescriptorChain_queue hr
  | isValid | enableNotification | disableNotification =>
    obtain ⟨_, -, ⟨⟩⟩ := Option.map_eq_some'.mp h
    rfl
  | setDescTableAddress _ _ | setAvailRingAddress _ _ | setUsedRingAddress _ _ | setReady _
  | setEventIdx _ | setNextAvail _ | setNextUsed _ | reset | availIdx | usedIdx | iter
  | goToPreviousPosition =>
    simp only [Queue.exec, Option.some.injEq, Prod.mk.injEq] at h
    exact h.2.1.symm

/-- The queues reachable from `Queue::new maxSize` by calls against any guest memory. -/
inductive Reachable (maxSize : BitVec 16) : Queue → Prop where
  | new : Reachable maxSize (Queue.new maxSize)
  | step {q q' : Queue} {mem mem' : GuestMemoryMmap} {op : Op} {r : Except Error Ret} :
      Reachable maxSize q → q.exec mem op = some (r, q', mem') → Reachable maxSize q'

/-- `Steps q calls q' k`: the calls, each against the guest memory paired with it, take `q` to
`q'` without panicking, and `k` of them move `next_used`. -/
inductive Steps : Queue → List (Op × GuestMemoryMmap) → Queue → Nat → Prop where
  | nil (q : Queue) : Steps q [] q 0
  | cons {q q₁ q₂ : Queue} {op : Op} {mem mem₁ : GuestMemoryMmap} {r : Except Error Ret}
      {calls : List (Op × GuestMemoryMmap)} {k : Nat} :
      q.exec mem op = some (r, q₁, mem₁) → Steps q₁ calls q₂ k →
      Steps q ((op, mem) :: calls) q₂ (if q₁.nextUsed = q.nextUsed then k else k + 1)

/-! ### Alignment -/

/-- The low `k` bits of an address, as `GuestAddress::mask` selects them. -/
theorem GuestAddress.toNat_mask (a : GuestAddress) {k : Nat} (hk : 2 ^ k - 1 < 2 ^ 64) :
    (a.mask (BitVec.ofNat 64 (2 ^ k - 1))).toNat = a.toNat % 2 ^ k := by
  simp only [GuestAddress.mask, GuestAddress.toNat, BitVec.toNat_and, BitVec.toNat_ofNat,
    Nat.mod_eq_of_lt hk, Nat.and_pow_two_sub_one_eq_mod]

/-- A ring-address setter keeps its field aligned to `2 ^ k`. -/
theorem Queue.setRingAddress_aligned (k : Nat) (hk : 2 ^ k - 1 < 2 ^ 64) {cur : GuestAddress}
    (hcur : cur.toNat % 2 ^ k = 0) (low high : Option (BitVec 32)) :
    (Queue.setRingAddress (BitVec.ofNat 64 (2 ^ k - 1)) cur low high).toNat % 2 ^ k = 0 := by
  simp only [Queue.setRingAddress]
  split
  · exact hcur
  · next h =>
    simp only [bne_iff_ne, ne_eq, Decidable.not_not] at h
    rw [← GuestAddress.toNat_mask _ hk, h]
    rfl

theorem Queue.setDescTableAddress_aligned {q : Queue} (hq : q.descTable.toNat % 16 = 0)
    (low high : Option (BitVec 32)) : (q.setDescTableAddress low high).descTable.toNat % 16 = 0 :=
  Queue.setRingAddress_aligned 4 (by decide) hq low high

theorem Queue.setAvailRingAddress_aligned {q : Queue} (hq : q.availRing.toNat % 2 = 0)
    (low high : Option (BitVec 32)) : (q.setAvailRingAddress low high).availRing.toNat % 2 = 0 :=
  Queue.setRingAddress_aligned 1 (by decide) hq low high

theorem Queue.setUsedRingAddress_aligned {q : Queue} (hq : q.usedRing.toNat % 4 = 0)
    (low high : Option (BitVec 32)) : (q.setUsedRingAddress low high).usedRing.toNat % 4 = 0 :=
  Queue.setRingAddress_aligned 2 (by decide) hq low high

/-! ### The configuration invariant -/

/-- The configuration invariant of a queue created by `Queue::new maxSize`, all but the
power-of-two size (§3): it holds for every nonzero `maxSize`. -/
structure WfNz (maxSize : BitVec 16) (q : Queue) : Prop where
  maxSize_eq : q.maxSize = maxSize
  size_pos : 0 < q.size.toNat
  size_le : q.size.toNat ≤ q.maxSize.toNat
  descTable_aligned : q.descTable.toNat % 16 = 0
  availRing_aligned : q.availRing.toNat % 2 = 0
  usedRing_aligned : q.usedRing.toNat % 4 = 0

/-- The configuration invariant of a queue created by `Queue::new maxSize` (§3). -/
structure Wf (maxSize : BitVec 16) (q : Queue) extends WfNz maxSize q : Prop where
  size_pow : q.size.toNat.isPowerOfTwo

section Config

variable {m : BitVec 16} {q q' : Queue}

/-- The invariant reads only `max_size`, `size` and the ring addresses. -/
theorem WfNz.of_config (hw : WfNz m q) (h1 : q'.maxSize = q.maxSize) (h2 : q'.size = q.size)
    (h3 : q'.descTable = q.descTable) (h4 : q'.availRing = q.availRing)
    (h5 : q'.usedRing = q.usedRing) : WfNz m q' := by
  obtain ⟨a, b, c, e, f, g⟩ := hw
  exact ⟨h1 ▸ a, h2 ▸ b, h1 ▸ h2 ▸ c, h3 ▸ e, h4 ▸ f, h5 ▸ g⟩

theorem Wf.of_config (hw : Wf m q) (h1 : q'.maxSize = q.maxSize) (h2 : q'.size = q.size)
    (h3 : q'.descTable = q.descTable) (h4 : q'.availRing = q.availRing)
    (h5 : q'.usedRing = q.usedRing) : Wf m q' :=
  ⟨hw.toWfNz.of_config h1 h2 h3 h4 h5, h2 ▸ hw.size_pow⟩

/-- A queue just created, or just reset, satisfies `WfNz` when `max_size` is nonzero. -/
theorem wfNz_reset (hm : 0 < m.toNat) (hq : q.maxSize = m) : WfNz m q.reset := by
  subst hq
  exact ⟨rfl, hm, Nat.le_refl _, rfl, rfl, rfl⟩

theorem wf_new (hm : m.toNat.isPowerOfTwo) : Wf m (Queue.new m) :=
  ⟨wfNz_reset (Nat.pos_of_isPowerOfTwo hm) (q := Queue.new m) rfl, hm⟩

/-- **One call keeps `WfNz`**, and with it any property `P` of `size` that `max_size` has
and every size `set_size` accepts has: `reset` and `set_size` are the only calls that change
`size`. -/
theorem exec_wfNz {P : BitVec 16 → Prop} (hm : 0 < m.toNat) (hPm : P m)
    (hPs : ∀ s, s ≠ 0 → s &&& (s - 1) = 0 → P s) {mem mem' : GuestMemoryMmap} {op : Op}
    {r : Except Error Ret} (hw : WfNz m q) (hp : P q.size)
    (h : q.exec mem op = some (r, q', mem')) : WfNz m q' ∧ P q'.size := by
  have he := Queue.exec_effect h
  cases op with
  | setSize s =>
    rw [(he : q' = _)]
    split
    · next hs =>
      exact ⟨{ hw with size_pos := toNat_pos_of_ne_zero hs.2.1, size_le := BitVec.le_def.mp hs.1 },
        hPs s hs.2.1 hs.2.2⟩
    · exact ⟨hw, hp⟩
  | setDescTableAddress l hi =>
    exact (he : q' = _) ▸ ⟨{ hw with
      descTable_aligned := Queue.setDescTableAddress_aligned hw.descTable_aligned l hi }, hp⟩
  | setAvailRingAddress l hi =>
    exact (he : q' = _) ▸ ⟨{ hw with
      availRing_aligned := Queue.setAvailRingAddress_aligned hw.availRing_aligned l hi }, hp⟩
  | setUsedRingAddress l hi =>
    exact (he : q' = _) ▸ ⟨{ hw with
      usedRing_aligned := Queue.setUsedRingAddress_aligned hw.usedRing_aligned l hi }, hp⟩
  | reset =>
    exact (he : q' = _) ▸ ⟨wfNz_reset hm hw.maxSize_eq, show P q.maxSize from hw.maxSize_eq ▸ hPm⟩
  | addUsed _ _ | needsNotification | next _ | popDescriptorChain =>
    rcases he with rfl | rfl <;> exact ⟨hw.of_config rfl rfl rfl rfl rfl, hp⟩
  | setReady _ | setEventIdx _ | setNextAvail _ | setNextUsed _ | goToPreviousPosition
  | isValid | availIdx | usedIdx | enableNotification | disableNotification | iter =>
    exact (he : q' = _) ▸ ⟨hw.of_config rfl rfl rfl rfl rfl, hp⟩

/-- Every queue reachable from `Queue::new m`, for a power of two `m`, keeps the invariant. -/
theorem Reachable.wf (hm : m.toNat.isPowerOfTwo) (hq : Reachable m q) : Wf m q := by
  induction hq with
  | new => exact wf_new hm
  | step _ hstep ih =>
    exact (exec_wfNz (P := fun s => s.toNat.isPowerOfTwo) (Nat.pos_of_isPowerOfTwo hm) hm
      (fun _ => isPowerOfTwo_of_and_sub_one) ih.toWfNz ih.size_pow hstep).elim Wf.mk

end Config

/-! ### Reachable queues -/

theorem Queue.setAvailEvent_isSome (q : Queue) (mem : GuestMemoryMmap) (v : BitVec 16) :
    (q.setAvailEvent mem v).isSome := by
  simp [Queue.setAvailEvent, Queue.availEventOffset_eq]

theorem Queue.usedEvent_isSome (q : Queue) (mem : GuestMemoryMmap) : (q.usedEvent mem).isSome := by
  simp [Queue.usedEvent, Queue.usedEventOffset_eq]

theorem Queue.setNotification_isSome (q : Queue) (mem : GuestMemoryMmap) (enable : Bool) :
    (q.setNotification mem enable).isSome := by
  unfold Queue.setNotification
  split
  · split
    · exact q.setAvailEvent_isSome mem _
    · rfl
  · split <;> rfl

theorem Queue.addUsed_isSome (q : Queue) (mem : GuestMemoryMmap) (headIndex : BitVec 16)
    (len : BitVec 32) : (q.addUsed mem headIndex len).isSome := by
  by_cases hs : q.size ≤ headIndex
  · rw [Queue.addUsed_of_le hs]; rfl
  · rw [Queue.addUsed_of_lt (BitVec.not_le.mp hs)]; rfl

/-- **No method panics**, whatever values the public fields hold: the remainder, the
subtraction and the `u64` arithmetic of `set_size`, `is_valid`, `add_used`,
`set_avail_event`, `used_event` and the notification methods never fault.  The address
setters, `avail_idx`, `used_idx`, `reset` and `go_to_previous_position` use no operation
that can panic. -/
theorem no_panic (q : Queue) (mem : GuestMemoryMmap) :
    (∀ s, (q.setSize s).isSome) ∧ (q.isValid mem).isSome ∧
    (∀ headIndex len, (q.addUsed mem headIndex len).isSome) ∧
    (q.needsNotification mem).isSome ∧ (q.enableNotification mem).isSome ∧
    (q.disableNotification mem).isSome ∧ (∀ v, (q.setAvailEvent mem v).isSome) ∧
    (q.usedEvent mem).isSome := by
  refine ⟨fun s => by rw [Queue.setSize_eq]; rfl, ?_, q.addUsed_isSome mem, ?_, ?_,
    q.setNotification_isSome mem false, q.setAvailEvent_isSome mem, q.usedEvent_isSome mem⟩
  · simp [Queue.isValid, Queue.descTableSize_eq, Queue.availRingSize_eq, Queue.usedRingSize_eq]
  · unfold Queue.needsNotification
    split
    · obtain ⟨r, hr⟩ := Option.isSome_iff_exists.mp (q.usedEvent_isSome mem)
      simp [hr]
    · rfl
  · obtain ⟨r, hr⟩ := Option.isSome_iff_exists.mp (q.setNotification_isSome mem true)
    simp [Queue.enableNotification, hr]

end VirtioQueue
