import VirtioQueue.Device
import VirtioQueue.Notification

/-!
# No lost interrupt

The other half of notification suppression: the device tells the driver about used elements.
With `EVENT_IDX` the driver writes into the available ring's `used_event` the used-ring
position it waits for, and the device, after a batch of `add_used`, asks `needs_notification`
whether the batch crossed that position.  The driver waits as drivers do with event indices:

```text
loop {
    while used.idx != last_used { consume(); last_used += 1; }
    used_event = last_used;           // arm
    fence();
    if used.idx == last_used { sleep until interrupted; }
}
```

The device interleaves `add_used` and `needs_notification` in any order, as the comment of
`needs_notification` allows, and interrupts the driver when the answer is `true`; it asks at
least once every `2 ^ 16 - 1` elements, so that `num_added` does not wrap.  Both run as atomic
steps under sequential consistency, which the `SeqCst` fences of `needs_notification` and of the
driver provide.

While the driver sleeps, `needs_notification` answers `true` exactly when the used ring holds
elements the driver has not consumed (`no_lost_interrupt`): no interrupt is lost, and none is
sent for nothing.  This needs `used_event` apart from the bytes `add_used` writes.  Nothing in
`queue.rs` checks that, and `is_valid` accepts rings placed so that the device's own write of
the used ring's `idx` overwrites `used_event`; then the interrupt is lost
(`interrupt_lost_aliased`).  The device must also ask in time: `needs_notification` counts the
elements written since its last call modulo `2 ^ 16`, and after `2 ^ 16` of them it answers
`false` whatever `used_event` holds (`needsNotification_counts_mod`).

## Main definitions

* `Queue.usedEventField` — the guest address of `used_event`.
* `DriverPc`, `System`, `Action`, `step`, `run` — the interleaved system.
* `Layout`, `Start`, `Inv` — where the fields lie, where a run starts, and what it keeps.

## Main results

* `Inv.step`, `Inv.run` — every step keeps the invariant.
* `no_lost_interrupt` — **while the driver sleeps, the device notifies exactly when there is
  work.**
* `interrupt_lost_aliased` — and a notification is lost when `used_event` is not apart.
* `Steps.addUsed_replicate` — `k` calls of `add_used` move both counters by `k`.
* `needsNotification_counts_mod` — `needs_notification` counts modulo `2 ^ 16`.
-/

namespace VirtioQueue

namespace Queue

/-- The guest address of the available ring's `used_event`, after its elements: the field
`needs_notification` reads and the driver arms. -/
def usedEventField (q : Queue) : Nat := q.availRing.toNat + 4 + 2 * q.size.toNat

end Queue

namespace Interrupt

/-- With `e` the position the driver waits for and at most `num_added` positions written since
it started waiting, the window of `needs_notification` holds `e` exactly when `next_used` has
moved past it. -/
theorem window_iff_ne (u e n : BitVec 16) (h : (u - e).toNat ≤ n.toNat) :
    u - e - 1 < u - (u - n) ↔ u ≠ e := by
  bv_omega

/-! ### The system -/

/-- Where the driver is in its wait for used elements. -/
inductive DriverPc where
  /-- Consuming used elements; it may arm at any time. -/
  | running
  /-- It wrote its cursor into `used_event` and has yet to re-read the used ring's `idx`. -/
  | armed
  /-- It found nothing to consume after arming, and waits for an interrupt. -/
  | asleep
  deriving DecidableEq, Repr

/-- What the driver keeps. -/
structure Driver where
  /-- The next used-ring position the driver consumes. -/
  lastUsed : BitVec 16
  /-- Where it is in its loop. -/
  pc : DriverPc
  deriving DecidableEq, Repr

/-- The device's queue, the guest memory, and the driver. -/
structure System where
  /-- The device's queue. -/
  q : Queue
  /-- The shared guest memory. -/
  mem : GuestMemoryMmap
  /-- The driver. -/
  drv : Driver
  /-- Whether a call of the device panicked or returned an error. -/
  failed : Bool

/-- The system before any step: the driver runs, caught up with the device. -/
def System.init (q : Queue) (mem : GuestMemoryMmap) : System :=
  ⟨q, mem, ⟨q.nextUsed, .running⟩, false⟩

/-- A step of one side. -/
inductive Action where
  /-- The device calls `add_used` for its chain at `h`, reporting `len` bytes written. -/
  | add (h : BitVec 16) (len : BitVec 32)
  /-- The device calls `needs_notification`, and interrupts the driver on `true`. -/
  | notify
  /-- The driver consumes the next used element, if there is one. -/
  | consume
  /-- The driver writes its cursor into `used_event`. -/
  | arm
  /-- The driver re-reads the used ring's `idx`, and sleeps if there is nothing to consume. -/
  | check
  deriving DecidableEq, Repr

/-- One step.  A side whose step is not enabled does nothing: the device returns only heads below
the size and asks `needs_notification` before `num_added` wraps, and the driver consumes and arms
while running and re-reads `idx` once armed.  An interrupt wakes a sleeping driver. -/
def step (S : System) : Action → System
  | .add h len =>
    if S.q.numAdded.toNat + 1 < 2 ^ 16 ∧ h < S.q.size then
      match S.q.addUsed S.mem h len with
      | some (.ok (), q, mem) => { S with q, mem }
      | _ => { S with failed := true }
    else S
  | .notify =>
    match S.q.needsNotification S.mem with
    | some (.ok b, q) =>
      { S with
        q
        drv := if b ∧ S.drv.pc = .asleep then { S.drv with pc := .running } else S.drv }
    | _ => { S with failed := true }
  | .consume =>
    if S.drv.pc = .running ∧ S.mem.read16 (S.q.usedRing.toNat + 2) ≠ S.drv.lastUsed then
      { S with drv := { S.drv with lastUsed := S.drv.lastUsed + 1 } }
    else S
  | .arm =>
    if S.drv.pc = .running then
      { S with
        mem := S.mem.write16 S.q.usedEventField S.drv.lastUsed
        drv := { S.drv with pc := .armed } }
    else S
  | .check =>
    if S.drv.pc = .armed then
      { S with
        drv :=
          { S.drv with
            pc := if S.mem.read16 (S.q.usedRing.toNat + 2) = S.drv.lastUsed then .asleep
              else .running } }
    else S

/-- The steps of a schedule, one after another. -/
def run (S : System) : List Action → System
  | [] => S
  | a :: as => run (step S a) as

/-! ### The invariant -/

/-- Where the fields lie: `EVENT_IDX` is negotiated, the memory serves `add_used` and the load
of `used_event`, and `used_event` lies apart from the used ring's `idx` and elements. -/
structure Layout (q : Queue) (mem : GuestMemoryMmap) : Prop where
  eventIdx : q.eventIdxEnabled = true
  size_pos : 0 < q.size.toNat
  usedMapped : UsedMapped mem q.usedRing q.size.toNat
  eventNoOverflow : q.usedEventField < 2 ^ 64
  eventMapped : mem.checkAtomic ⟨BitVec.ofNat 64 q.usedEventField⟩ 2 = .ok ()
  apart : q.usedEventField + 2 ≤ q.usedRing.toNat + 2 ∨
    q.usedRing.toNat + 4 + 8 * q.size.toNat ≤ q.usedEventField

/-- Where a run starts: the fields lie apart, and the used ring's `idx` holds `next_used`. -/
structure Start (q : Queue) (mem : GuestMemoryMmap) extends Layout q mem : Prop where
  idx : mem.read16 (q.usedRing.toNat + 2) = q.nextUsed

/-- The invariant of every run: the used ring's `idx` is `next_used`; once the driver armed,
`used_event` holds its cursor; while it sleeps, every position written since it last saw `idx`
is counted in `num_added`; and no call failed. -/
structure Inv (S : System) extends Start S.q S.mem : Prop where
  event : S.drv.pc ≠ .running → S.mem.read16 S.q.usedEventField = S.drv.lastUsed
  window : S.drv.pc = .asleep → (S.q.nextUsed - S.drv.lastUsed).toNat ≤ S.q.numAdded.toNat
  ok : S.failed = false

/-- `needs_notification` over a layout: it compares `used_event` with the positions written
since the last call. -/
theorem Layout.needsNotification {q : Queue} {mem : GuestMemoryMmap} (h : Layout q mem) :
    q.needsNotification mem =
      some (.ok (decide (q.nextUsed - mem.read16 q.usedEventField - 1 <
        q.nextUsed - (q.nextUsed - q.numAdded))), { q with numAdded := 0 }) :=
  Queue.needsNotification_of_mapped h.eventIdx h.eventNoOverflow h.eventMapped

/-- A layout depends only on the queue's rings and size and on the memory's regions. -/
theorem Layout.of_regions {q : Queue} {mem mem' : GuestMemoryMmap} (h : Layout q mem)
    (hr : mem'.regions = mem.regions) : Layout q mem' :=
  { h with
    usedMapped := h.usedMapped.of_regions hr
    eventMapped := (mem.checkAtomic_of_regions hr _ _).trans h.eventMapped }

/-- A layout does not depend on the queue's counters. -/
theorem Layout.counters {q : Queue} {mem : GuestMemoryMmap} (h : Layout q mem) (u n : BitVec 16) :
    Layout { q with nextUsed := u, numAdded := n } mem :=
  ⟨h.eventIdx, h.size_pos, h.usedMapped, h.eventNoOverflow, h.eventMapped, h.apart⟩

/-! ### What each step keeps -/

section Steps

variable {S : System}

theorem Inv.add (hi : Inv S) (x : BitVec 16) (len : BitVec 32) : Inv (step S (.add x len)) := by
  simp only [step]
  split_ifs with hg
  · obtain ⟨hn, hx⟩ := hg
    obtain ⟨mem', hadd⟩ := Queue.addUsed_of_mapped hx hi.usedMapped len
    have hw := (Queue.addUsed_eq_ok hadd).1
    rw [hadd]
    dsimp only
    have hs := hi.size_pos
    have hev := hw.read16_eq hs hi.apart
    refine ⟨⟨(hi.toLayout.of_regions hw.regions).counters _ _, ?_⟩,
      fun hp => hev.trans (hi.event hp), fun hp => ?_, hi.ok⟩
    · show mem'.read16 (S.q.usedRing.toNat + 2) = S.q.nextUsed + 1
      rw [show mem' = _ from hw.2.2, GuestMemoryMmap.read16_write16_self]
      exact BitVec.eq_of_toNat_eq (by simp only [BitVec.toNat_ofNat, toNat_add_one_u16])
    · have := hi.window hp
      dsimp only
      bv_omega
  · exact hi

theorem Inv.notify (hi : Inv S) : Inv (step S .notify) := by
  simp only [step, hi.needsNotification]
  split_ifs with hb
  · exact ⟨⟨hi.toLayout.counters _ _, hi.idx⟩, fun h => absurd rfl h, fun h => (nomatch h), hi.ok⟩
  · refine ⟨⟨hi.toLayout.counters _ _, hi.idx⟩, hi.event, fun hp => ?_, hi.ok⟩
    have hne : ¬S.q.nextUsed ≠ S.drv.lastUsed := fun hne => hb ⟨by
      rw [decide_eq_true_eq, hi.event (by rw [hp]; exact DriverPc.noConfusion),
        window_iff_ne _ _ _ (hi.window hp)]
      exact hne, hp⟩
    dsimp only
    rw [not_not.mp hne, BitVec.sub_self]
    exact Nat.zero_le _

theorem Inv.consume (hi : Inv S) : Inv (step S .consume) := by
  simp only [step]
  split_ifs with hg
  · exact ⟨hi.toStart, fun h => absurd hg.1 h, fun h => absurd (hg.1.symm.trans h)
      DriverPc.noConfusion, hi.ok⟩
  · exact hi

theorem Inv.arm (hi : Inv S) : Inv (step S .arm) := by
  simp only [step]
  split_ifs with hg
  · have hidx : S.q.usedEventField + 2 ≤ S.q.usedRing.toNat + 2 ∨
        S.q.usedRing.toNat + 2 + 2 ≤ S.q.usedEventField := by
      have := hi.apart
      omega
    exact ⟨⟨hi.toLayout.of_regions (S.mem.regions_write16 _ _),
      (S.mem.read16_write16_of_disjoint _ hidx).trans hi.idx⟩,
      fun _ => S.mem.read16_write16_self _ _, fun h => (nomatch h), hi.ok⟩
  · exact hi

theorem Inv.check (hi : Inv S) : Inv (step S .check) := by
  simp only [step]
  split_ifs with hg hidx
  · refine ⟨hi.toStart, fun _ => hi.event (by rw [hg]; exact DriverPc.noConfusion),
      fun _ => ?_, hi.ok⟩
    dsimp only
    rw [← hi.idx, hidx, BitVec.sub_self]
    exact Nat.zero_le _
  · exact ⟨hi.toStart, fun h => absurd rfl h, fun h => (nomatch h), hi.ok⟩
  · exact hi

/-- **Every step keeps the invariant.** -/
theorem Inv.step (hi : Inv S) : ∀ a, Inv (step S a)
  | .add x len => hi.add x len
  | .notify => hi.notify
  | .consume => hi.consume
  | .arm => hi.arm
  | .check => hi.check

/-- The run lemma: the invariant holds after every schedule. -/
theorem Inv.run (hi : Inv S) (sched : List Action) : Inv (run S sched) := by
  induction sched generalizing S with
  | nil => exact hi
  | cons a as ih => exact ih (hi.step a)

end Steps

/-- The invariant holds before any step. -/
theorem Inv.init {q : Queue} {mem : GuestMemoryMmap} (h : Start q mem) :
    Inv (System.init q mem) :=
  ⟨h, fun h => absurd rfl h, fun h => (nomatch h), rfl⟩

/-- **While the driver sleeps, the device notifies exactly when there is work.**  Start with
`EVENT_IDX` negotiated, `used_event` apart from the used ring's `idx` and elements, and the used
ring's `idx` at `next_used`, and run any interleaving of the device's `add_used` and
`needs_notification` with the driver's loop.  No call fails, and whenever the driver sleeps,
`needs_notification` returns `true` exactly when the used ring's `idx` differs from the driver's
cursor, and resets `num_added`. -/
theorem no_lost_interrupt {q : Queue} {mem : GuestMemoryMmap} (h : Start q mem)
    (sched : List Action) :
    let S := run (System.init q mem) sched
    S.failed = false ∧
      (S.drv.pc = .asleep →
        S.q.needsNotification S.mem =
          some (.ok (decide (S.mem.read16 (S.q.usedRing.toNat + 2) ≠ S.drv.lastUsed)),
            { S.q with numAdded := 0 })) := by
  intro S
  have hi : Inv S := (Inv.init h).run sched
  refine ⟨hi.ok, fun hp => ?_⟩
  rw [hi.needsNotification, hi.idx, hi.event (by rw [hp]; exact DriverPc.noConfusion),
    decide_eq_decide.mpr (window_iff_ne _ _ _ (hi.window hp))]

/-- Two-element rings with `EVENT_IDX`, available ring at `0x100` and used ring at `0x200`: the
driver arms, finds nothing and sleeps, and the device returns head `0`.  No call failed, the
driver sleeps with the element pending, and `needs_notification` asks to interrupt it. -/
theorem no_lost_interrupt_apart :
    let q : Queue := { Queue.new 2 with
      eventIdxEnabled := true, availRing := ⟨0x100⟩, usedRing := ⟨0x200⟩ }
    let mem : GuestMemoryMmap := ⟨[⟨0, 0x1000⟩], fun _ => 0⟩
    let S := run (System.init q mem) [.arm, .check, .add 0 0x10]
    Start q mem ∧ S.failed = false ∧ S.drv.pc = .asleep ∧
      S.mem.read16 (S.q.usedRing.toNat + 2) ≠ S.drv.lastUsed ∧
      S.q.needsNotification S.mem = some (.ok true, { S.q with numAdded := 0 }) := by
  dsimp only
  have hd : GuestMemoryMmap.RegionsDisjoint ⟨[⟨0, 0x1000⟩], fun _ => 0⟩ :=
    List.pairwise_singleton _ _
  have hs : Start { Queue.new 2 with
      eventIdxEnabled := true, availRing := ⟨0x100⟩, usedRing := ⟨0x200⟩ }
      ⟨[⟨0, 0x1000⟩], fun _ => 0⟩ :=
    ⟨⟨rfl, by decide, (twoEntryRings_served _).2.2.1, by decide,
      GuestMemoryMmap.checkAtomic_of_region hd (List.mem_singleton_self _) (by decide) (by decide)
        (by decide) (by decide), by decide⟩, rfl⟩
  have h := no_lost_interrupt hs [.arm, .check, .add 0 0x10]
  dsimp only at h
  generalize hS : run (System.init _ _) _ = S at h ⊢
  have hp : S.drv.pc = .asleep := by subst hS; decide
  have hne : S.mem.read16 (S.q.usedRing.toNat + 2) ≠ S.drv.lastUsed := by subst hS; decide
  refine ⟨hs, h.1, hp, hne, (h.2 hp).trans ?_⟩
  rw [decide_eq_true hne]

/-- Rings that overlap lose the interrupt: without `used_event` apart from the used ring,
`no_lost_interrupt` fails.  With `EVENT_IDX`, one-element rings at
`avail_ring = 0` and `used_ring = 4`, which `is_valid` accepts, put `used_event` on the used
ring's `idx`, both at `6`.  The driver arms `used_event = 0`, re-reads `idx = 0` and sleeps;
the device's `add_used` of head `0` writes `idx = 1` over `used_event`, `needs_notification`
reads back `1` and answers `false`, and the driver sleeps with the element pending. -/
theorem interrupt_lost_aliased :
    let q : Queue := { Queue.new 1 with
      ready := true, eventIdxEnabled := true, descTable := ⟨0x100⟩, availRing := ⟨0⟩,
      usedRing := ⟨4⟩ }
    let mem : GuestMemoryMmap := ⟨[⟨0, 0x1000⟩], fun _ => 0⟩
    let S := run (System.init q mem) [.arm, .check, .add 0 0x10, .notify]
    q.isValid mem = some true ∧ q.usedEventField = q.usedRing.toNat + 2 ∧
      S.failed = false ∧ S.drv.pc = .asleep ∧
      S.mem.read16 (S.q.usedRing.toNat + 2) ≠ S.drv.lastUsed := by
  decide

end Interrupt

/-! ### Asking in time -/

/-- `k` calls of `add_used` for head `0`, each against a memory that serves the used ring, move
both counters by `k`. -/
theorem Steps.addUsed_replicate {mem : GuestMemoryMmap} (k : Nat) :
    ∀ {q : Queue}, 0 < q.size.toNat → UsedMapped mem q.usedRing q.size.toNat →
      Steps q (List.replicate k (.addUsed 0 0, mem))
        { q with
          nextUsed := q.nextUsed + BitVec.ofNat 16 k
          numAdded := q.numAdded + BitVec.ofNat 16 k } k := by
  induction k with
  | zero => intro q _ _; simpa using Steps.nil q
  | succ k ih =>
    intro q hs hmap
    obtain ⟨mem', h⟩ := Queue.addUsed_of_mapped (BitVec.lt_def.mpr hs : 0 < q.size) hmap 0
    have hx : q.exec mem (.addUsed 0 0) = some (.ok .unit,
        { q with nextUsed := q.nextUsed + 1, numAdded := q.numAdded + 1 }, mem') := by
      rw [Queue.exec, h]
      rfl
    have hrun := Steps.cons hx (ih hs hmap)
    rw [if_neg (add_one_ne _)] at hrun
    rw [← add_ofNat_succ, ← add_ofNat_succ]
    exact hrun

/-- **`needs_notification` counts modulo `2 ^ 16`.**  Start from any queue with `EVENT_IDX`
negotiated and `num_added = 0`, at `next_used = p`, and make any run of calls other than
`set_next_used`, `reset`, `set_event_idx` and `needs_notification`, in which `add_used` moves
`next_used` any number `k` of times.  A `needs_notification` that reads `used_event = e` answers
whether `e` is one of the first `k mod 2 ^ 16` positions from `p`: after `2 ^ 16` elements, one
written at every position of the used ring, it answers `false` whatever `e` is. -/
theorem needsNotification_counts_mod {q q' : Queue} {calls : List (Op × GuestMemoryMmap)}
    {k : Nat} (hidx : q.eventIdxEnabled = true) (h0 : q.numAdded = 0)
    (hcalls : ∀ c ∈ calls, c.1.keepsUsedWindow = true) (hrun : Steps q calls q' k)
    {mem : GuestMemoryMmap} {e : BitVec 16} (he : q'.usedEvent mem = some (.ok e)) :
    q'.needsNotification mem =
      some (.ok (decide ((e - q.nextUsed).toNat < k % 2 ^ 16)), { q' with numAdded := 0 }) := by
  obtain ⟨hidx', hu, hn⟩ := hrun.counters hcalls
  have hk : BitVec.ofNat 16 (k % 2 ^ 16) = BitVec.ofNat 16 k := BitVec.eq_of_toNat_eq (by simp)
  have hn0 : q'.numAdded = BitVec.ofNat 16 k := by
    rw [hn, h0]
    exact BitVec.zero_add _
  have hw := window_iff q.nextUsed e (Nat.mod_lt k (by decide))
  rw [hk, ← hu, ← hn0] at hw
  simp only [Queue.needsNotification, hidx', hidx, if_true, he, Option.bind_eq_bind,
    Option.some_bind, Option.pure_def, Option.some.injEq, Prod.mk.injEq, and_true]
  exact congrArg Except.ok (decide_eq_decide.mpr hw)

/-- With `EVENT_IDX` and `used_event = 0` over a memory of `512 KiB`, `2 ^ 16` calls of
`add_used` bring a queue of sixteen elements back to where it was, and `needs_notification`
asks for no notification. -/
theorem needsNotification_counts_mod_wrap :
    let q : Queue := { Queue.new 16 with eventIdxEnabled := true }
    let mem : GuestMemoryMmap := ⟨[⟨0, 2 ^ 19⟩], fun _ => 0⟩
    Steps q (List.replicate (2 ^ 16) (.addUsed 0 0, mem)) q (2 ^ 16) ∧
      q.needsNotification mem = some (.ok false, q) :=
  have hd : GuestMemoryMmap.RegionsDisjoint ⟨[⟨0, 2 ^ 19⟩], fun _ => 0⟩ :=
    List.pairwise_singleton _ _
  have hrun : Steps { Queue.new 16 with eventIdxEnabled := true }
      (List.replicate (2 ^ 16) (.addUsed 0 0, ⟨[⟨0, 2 ^ 19⟩], fun _ => 0⟩))
      { Queue.new 16 with eventIdxEnabled := true } (2 ^ 16) :=
    Steps.addUsed_replicate (2 ^ 16) (by decide)
      (UsedMapped.of_region hd (List.mem_singleton_self _) (by decide) (by decide) (by decide)
        rfl)
  ⟨hrun, needsNotification_counts_mod rfl rfl
    (fun c hc => by rw [List.eq_of_mem_replicate hc]; rfl) hrun rfl⟩

end VirtioQueue
