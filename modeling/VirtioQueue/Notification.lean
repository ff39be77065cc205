import VirtioQueue.Ops

/-!
# When `needs_notification` asks for a notification

With `VIRTIO_F_EVENT_IDX` the driver publishes in `used_event` the used index it wants to be
interrupted at, and `needs_notification` decides whether one of the used elements written since
its last call is that one.  It does not remember where that last call left `next_used`: it
recovers the position as `next_used - num_added`, since `add_used` advances both counters
together and `needs_notification` resets `num_added`.

`Steps.counters` says what a run of calls does to the two counters; `needsNotification_window`
then reads off the answer: `used_event` is one of the `k` positions `p, p + 1, …, p + k - 1`
written since (modulo `2 ^ 16`).  The specification's interval `(old, next_used]` is one off:
the code notifies when `next_used` has just moved past `used_event`.

## Main results

* `exec_counters` — one call either keeps both counters or advances both.
* `Steps.counters` — over a run, both counters advance by the number of calls that move
  `next_used`.
* `needsNotification_window` — **the answer of `needs_notification` after any run.**
-/

namespace VirtioQueue

/-- The calls that leave `next_used`, `num_added` and `event_idx_enabled` to `add_used`: all
but `set_next_used`, `reset`, `set_event_idx` and `needs_notification`. -/
def Op.keepsUsedWindow : Op → Bool
  | .setNextUsed _ | .reset | .setEventIdx _ | .needsNotification => false
  | _ => true

/-- One call other than those four keeps `event_idx_enabled`, and keeps both counters or
advances both by one. -/
theorem exec_counters {q q' : Queue} {mem mem' : GuestMemoryMmap} {op : Op}
    {r : Except Error Ret} (hop : op.keepsUsedWindow = true)
    (h : q.exec mem op = some (r, q', mem')) :
    q'.eventIdxEnabled = q.eventIdxEnabled ∧
      ((q'.nextUsed = q.nextUsed ∧ q'.numAdded = q.numAdded) ∨
        (q'.nextUsed = q.nextUsed + 1 ∧ q'.numAdded = q.numAdded + 1)) := by
  have he := Queue.exec_effect h
  cases op with
  | setNextUsed _ | reset | setEventIdx _ | needsNotification => cases hop
  | setSize s =>
    rw [(he : q' = _)]
    split <;> exact ⟨rfl, .inl ⟨rfl, rfl⟩⟩
  | addUsed _ _ =>
    rcases he with rfl | rfl
    · exact ⟨rfl, .inl ⟨rfl, rfl⟩⟩
    · exact ⟨rfl, .inr ⟨rfl, rfl⟩⟩
  | next _ | popDescriptorChain => rcases he with rfl | rfl <;> exact ⟨rfl, .inl ⟨rfl, rfl⟩⟩
  | setDescTableAddress _ _ | setAvailRingAddress _ _ | setUsedRingAddress _ _ | setReady _
  | setNextAvail _ | goToPreviousPosition | isValid | availIdx | usedIdx | enableNotification
  | disableNotification | iter =>
    rw [(he : q' = _)]
    exact ⟨rfl, .inl ⟨rfl, rfl⟩⟩

/-- **The counters over a run.**  Over a run of calls other than `set_next_used`, `reset`,
`set_event_idx` and `needs_notification`, `event_idx_enabled` stays, and `next_used` and
`num_added` both advance by the number `k` of calls that moved `next_used`, modulo `2 ^ 16`. -/
theorem Steps.counters {q q' : Queue} {calls : List (Op × GuestMemoryMmap)} {k : Nat}
    (hrun : Steps q calls q' k) (hcalls : ∀ c ∈ calls, c.1.keepsUsedWindow = true) :
    q'.eventIdxEnabled = q.eventIdxEnabled ∧ q'.nextUsed = q.nextUsed + BitVec.ofNat 16 k ∧
      q'.numAdded = q.numAdded + BitVec.ofNat 16 k := by
  induction hrun with
  | nil q => exact ⟨rfl, by simp, by simp⟩
  | cons hstep _ ih =>
    obtain ⟨he', hu', hn'⟩ := ih fun c hc => hcalls c (List.mem_cons_of_mem _ hc)
    obtain ⟨he, ⟨hu, hn⟩ | ⟨hu, hn⟩⟩ :=
      exec_counters (hcalls _ (List.mem_cons_self _ _)) hstep
    · rw [if_pos hu]
      exact ⟨he'.trans he, hu'.trans (by rw [hu]), hn'.trans (by rw [hn])⟩
    · rw [if_neg (by rw [hu]; exact add_one_ne _)]
      refine ⟨he'.trans he, ?_, ?_⟩
      · rw [hu', hu, add_ofNat_succ]
      · rw [hn', hn, add_ofNat_succ]

/-- The wrap-safe comparison of `needs_notification`: with `k < 2 ^ 16` elements written from
position `p` on, `used_event` lies among them iff it is at most `k - 1` past `p`. -/
theorem window_iff (p e : BitVec 16) {k : Nat} (hk : k < 2 ^ 16) :
    (p + BitVec.ofNat 16 k - e - 1 < p + BitVec.ofNat 16 k - (p + BitVec.ofNat 16 k -
      BitVec.ofNat 16 k)) ↔ (e - p).toNat < k := by
  have := p.isLt
  have := e.isLt
  rw [BitVec.lt_def]
  simp only [BitVec.toNat_sub, BitVec.toNat_add, BitVec.toNat_ofNat, toNat_one_u16]
  omega

/-- **When `needs_notification` notifies.**  Start from any queue with `EVENT_IDX`
negotiated and `num_added = 0`, at `next_used = p`, and make any run of calls other than
`set_next_used`, `reset`, `set_event_idx` and `needs_notification`, in which `add_used` moves
`next_used` `k < 2 ^ 16` times.  A `needs_notification` that reads `used_event = e` then
answers whether `e` is one of the `k` positions written, `(e - p) mod 2 ^ 16 < k`, and leaves
`num_added = 0`. -/
theorem needsNotification_window {q q' : Queue} {calls : List (Op × GuestMemoryMmap)} {k : Nat}
    (hidx : q.eventIdxEnabled = true) (h0 : q.numAdded = 0)
    (hcalls : ∀ c ∈ calls, c.1.keepsUsedWindow = true) (hrun : Steps q calls q' k)
    (hk : k < 2 ^ 16) {mem : GuestMemoryMmap} {e : BitVec 16}
    (he : q'.usedEvent mem = some (.ok e)) :
    q'.needsNotification mem =
      some (.ok (decide ((e - q.nextUsed).toNat < k)), { q' with numAdded := 0 }) := by
  obtain ⟨hidx', hu, hn⟩ := hrun.counters hcalls
  have hn0 : q'.numAdded = BitVec.ofNat 16 k := by
    rw [hn, h0]
    apply BitVec.eq_of_toNat_eq
    simp
  have hw := window_iff q.nextUsed e hk
  rw [← hu, ← hn0] at hw
  simp only [Queue.needsNotification, hidx', hidx, if_true, he, Option.bind_eq_bind,
    Option.some_bind, Option.pure_def, Option.some.injEq, Prod.mk.injEq, and_true]
  exact congrArg Except.ok (decide_eq_decide.mpr hw)

/-- Two `add_used` calls from `next_used = 0xffff` fill the positions `0xffff` and `0` and wrap
`next_used` to `1`: a driver waiting at `used_event = 0` is due a notification, one waiting at
`0xfffe`, the position before, is not. -/
theorem needsNotification_window_wrap :
    Queue.needsNotification
        { Queue.new 16 with eventIdxEnabled := true, nextUsed := 1, numAdded := 2 }
        ⟨[⟨0, 0x1000⟩], fun _ => 0⟩ =
      some (.ok true, { Queue.new 16 with eventIdxEnabled := true, nextUsed := 1 }) ∧
    Queue.needsNotification
        { Queue.new 16 with eventIdxEnabled := true, nextUsed := 1, numAdded := 2 }
        ⟨[⟨0, 0x1000⟩], fun i => if i = 36 then 0xfe else if i = 37 then 0xff else 0⟩ =
      some (.ok false, { Queue.new 16 with eventIdxEnabled := true, nextUsed := 1 }) := by
  have h1 : ({ Queue.new 16 with eventIdxEnabled := true, nextUsed := 0xffff } : Queue).exec
      ⟨[⟨0, 0x1000⟩], fun _ => 0⟩ (.addUsed 0 0) =
        some (.ok .unit,
          { Queue.new 16 with eventIdxEnabled := true, nextUsed := 0, numAdded := 1 }, _) := rfl
  have h2 : ({ Queue.new 16 with eventIdxEnabled := true, nextUsed := 0, numAdded := 1 } :
      Queue).exec ⟨[⟨0, 0x1000⟩], fun _ => 0⟩ (.addUsed 1 0) =
        some (.ok .unit,
          { Queue.new 16 with eventIdxEnabled := true, nextUsed := 1, numAdded := 2 }, _) := rfl
  have he₀ : Queue.usedEvent
      { Queue.new 16 with eventIdxEnabled := true, nextUsed := 1, numAdded := 2 }
      ⟨[⟨0, 0x1000⟩], fun _ => 0⟩ = some (.ok 0) := rfl
  have he₁ : Queue.usedEvent
      { Queue.new 16 with eventIdxEnabled := true, nextUsed := 1, numAdded := 2 }
      ⟨[⟨0, 0x1000⟩], fun i => if i = 36 then 0xfe else if i = 37 then 0xff else 0⟩ =
        some (.ok 0xfffe) := rfl
  have hrun := Steps.cons h1 (Steps.cons h2 (Steps.nil _))
  exact ⟨(needsNotification_window rfl rfl (by decide) hrun (by decide) he₀).trans rfl,
    (needsNotification_window rfl rfl (by decide) hrun (by decide) he₁).trans rfl⟩

end VirtioQueue
