import VirtioQueue.Address
import VirtioQueue.Interrupt
import VirtioQueue.Transfer

/-!
# Rebuilding a queue through its setters

The fields of `Queue` are public, so a device can set up a queue that no sequence of calls
produces.  The comment on `struct Queue` plans the remedy: a saved state is turned back into
a `Queue` through the checks the field setters make.  `restoreCalls q` is that sequence of
setter calls, with each ring address given as the two 32-bit halves a transport holds.

The setters' checks are exactly the configuration invariant `Wf`.  From any reachable queue,
replaying `restoreCalls q` gives `q` back, with the `num_added` of the queue it started from,
precisely when `q` is well formed (`restore_iff`).  `add_used` is the one call that moves
`num_added`, and with it every well-formed queue is reached from `Queue::new`: the invariant
of `reachable_wf` is the exact set of reachable queues (`reachable_iff_wf`).

A device may rebuild its queue so in the middle of a transfer: the chains move on exactly as
they would have (`Transfer.restore_mid_transfer`).  What it loses is `num_added`, and with it a
notification due for the chains added since the last `needs_notification`
(`Transfer.restore_mid_transfer_two`).

## Main definitions

* `GuestAddress.low`, `GuestAddress.high` — the two 32-bit halves of an address.
* `restoreCalls` — the setter calls that rebuild a queue's configuration and positions.
* `Queue.execAll` — calls in sequence, each against the memory the previous one left.

## Main results

* `Queue.execAll_restoreCalls` — the calls rebuild a well-formed queue.
* `restore_iff` — **a queue comes back from its setter calls iff it is well formed.**
* `reachable_iff_wf` — **the reachable queues are exactly the well-formed ones.**
* `Transfer.restore_mid_transfer` — a queue rebuilt in the middle of a transfer carries it on.
-/

namespace VirtioQueue

/-- The low half of an address, as a transport's 32-bit register holds it. -/
def GuestAddress.low (a : GuestAddress) : BitVec 32 := a.rawValue.setWidth 32

/-- The high half of an address. -/
def GuestAddress.high (a : GuestAddress) : BitVec 32 := (a.rawValue >>> 32).setWidth 32

/-- The setter calls that rebuild `q`: the size, which is checked against `max_size`, the
three ring addresses by both halves, the feature bit, the ring positions, and `ready` last, as
a transport ends configuration. -/
def restoreCalls (q : Queue) : List Op :=
  [.setSize q.size,
    .setDescTableAddress (some q.descTable.low) (some q.descTable.high),
    .setAvailRingAddress (some q.availRing.low) (some q.availRing.high),
    .setUsedRingAddress (some q.usedRing.low) (some q.usedRing.high),
    .setEventIdx q.eventIdxEnabled, .setNextAvail q.nextAvail, .setNextUsed q.nextUsed,
    .setReady q.ready]

namespace Queue

/-- Calls in sequence, each against the guest memory the previous call left; `none` when one
panics.  What each call returns is dropped. -/
def execAll (q : Queue) (mem : GuestMemoryMmap) : List Op → Option Queue
  | [] => some q
  | op :: ops => (q.exec mem op).bind fun r => r.2.1.execAll r.2.2 ops

/-! ### The setters take a well-formed queue's values -/

/-- A power of two passes `set_size`'s bit test. -/
theorem and_sub_one_of_isPowerOfTwo {x : BitVec 16} (h : x.toNat.isPowerOfTwo) :
    x &&& (x - 1) = 0 := by
  obtain ⟨k, hk⟩ := h
  have hpos : 0 < x.toNat := hk ▸ Nat.two_pow_pos k
  have hsub : (x - 1).toNat = x.toNat - 1 := by
    have := x.isLt
    rw [BitVec.toNat_sub, toNat_one_u16]
    omega
  apply BitVec.eq_of_toNat_eq
  rw [BitVec.toNat_and, hsub, hk, Nat.and_pow_two_sub_one_eq_mod, Nat.mod_self]
  rfl

/-- `set_size` takes the size of a well-formed queue with the same `max_size`. -/
theorem setSize_of_wf {m : BitVec 16} {q : Queue} (hw : Wf m q) {q0 : Queue}
    (h0 : q0.maxSize = m) : q0.setSize q.size = some { q0 with size := q.size } := by
  have hle : q.size ≤ q0.maxSize := by
    rw [BitVec.le_def, h0, ← hw.maxSize_eq]
    exact hw.size_le
  have hs : q.size ≠ 0 := fun h => by simpa [h] using hw.size_pos
  rw [setSize_eq, if_pos ⟨hle, hs, and_sub_one_of_isPowerOfTwo hw.size_pow⟩]

/-- The two halves assemble back into the address, whatever the current one. -/
theorem combineAddress_low_high (cur a : GuestAddress) :
    combineAddress cur (some a.low) (some a.high) = a :=
  GuestAddress.ext_toNat (by
    rw [toNat_combineAddress, Option.getD_some, Option.getD_some, GuestAddress.high, toNat_high,
      GuestAddress.low, toNat_low, Nat.div_add_mod'])

/-- A ring-address setter given both halves of an aligned address takes it. -/
theorem setRingAddress_low_high (k : Nat) (hk : 2 ^ k - 1 < 2 ^ 64) (cur : GuestAddress)
    {a : GuestAddress} (ha : a.toNat % 2 ^ k = 0) :
    setRingAddress (BitVec.ofNat 64 (2 ^ k - 1)) cur (some a.low) (some a.high) = a := by
  rw [setRingAddress_eq k hk, combineAddress_low_high, if_pos ha]

/-- **The setter calls rebuild a well-formed queue**, from any queue with its `max_size` and
whatever the guest memory: all of it but `num_added`, which no setter writes. -/
theorem execAll_restoreCalls {m : BitVec 16} {q : Queue} (hw : Wf m q) {q0 : Queue}
    (h0 : q0.maxSize = m) (mem : GuestMemoryMmap) :
    q0.execAll mem (restoreCalls q) = some { q with numAdded := q0.numAdded } := by
  have hd : ∀ cur, setRingAddress 0xf cur (some q.descTable.low) (some q.descTable.high) =
      q.descTable := fun cur => setRingAddress_low_high 4 (by decide) cur hw.descTable_aligned
  have ha : ∀ cur, setRingAddress 0x1 cur (some q.availRing.low) (some q.availRing.high) =
      q.availRing := fun cur => setRingAddress_low_high 1 (by decide) cur hw.availRing_aligned
  have hu : ∀ cur, setRingAddress 0x3 cur (some q.usedRing.low) (some q.usedRing.high) =
      q.usedRing := fun cur => setRingAddress_low_high 2 (by decide) cur hw.usedRing_aligned
  have hmax : q0.maxSize = q.maxSize := h0.trans hw.maxSize_eq.symm
  simp only [restoreCalls, execAll, exec, setSize_of_wf hw h0, Option.map_some', Option.some_bind,
    setDescTableAddress, setAvailRingAddress, setUsedRingAddress, setEventIdx, setNextAvail,
    setNextUsed, setReady, hd, ha, hu]
  cases q
  cases q0
  cases hmax
  rfl

end Queue

/-! ### Reachable queues -/

/-- A run of calls from a reachable queue reaches only reachable queues. -/
theorem Reachable.execAll {m : BitVec 16} {q q' : Queue} (hq : Reachable m q)
    {mem : GuestMemoryMmap} {ops : List Op} (h : q.execAll mem ops = some q') : Reachable m q' := by
  induction ops generalizing q mem with
  | nil => exact Option.some.inj h ▸ hq
  | cons op ops ih =>
    obtain ⟨⟨r, q₁, mem₁⟩, h1, h2⟩ := Option.bind_eq_some.mp h
    exact ih (hq.step h1) h2

/-- **Restoring checks the state.**  From a reachable queue of a power-of-two `max_size`,
the setter calls of `q` give `q` back, with the `num_added` the queue had, iff `q` is well
formed: the setters' checks let a well-formed state through whole and change any other. -/
theorem restore_iff {m : BitVec 16} (hm : m.toNat.isPowerOfTwo) {q0 : Queue}
    (h0 : Reachable m q0) (q : Queue) (mem : GuestMemoryMmap) :
    q0.execAll mem (restoreCalls q) = some { q with numAdded := q0.numAdded } ↔ Wf m q :=
  ⟨fun h => ((h0.execAll h).wf hm).of_config rfl rfl rfl rfl rfl,
    fun hw => Queue.execAll_restoreCalls hw (h0.wf hm).maxSize_eq mem⟩

/-- A used ring at `2` is not 4-byte aligned: replayed on a fresh queue, the setter calls do
not give it back. -/
theorem restore_misaligned : (16 : BitVec 16).toNat.isPowerOfTwo ∧ Reachable 16 (Queue.new 16) ∧
    (Queue.new 16).execAll ⟨[], fun _ => 0⟩ (restoreCalls { Queue.new 16 with usedRing := ⟨2⟩ }) ≠
      some { Queue.new 16 with usedRing := ⟨2⟩, numAdded := (Queue.new 16).numAdded } :=
  ⟨⟨4, rfl⟩, .new, fun h =>
    absurd ((@restore_iff 16 ⟨4, rfl⟩ _ .new _ _).mp h).usedRing_aligned (by decide)⟩

/-- The refused address leaves the used ring where it was. -/
example :
    (Queue.new 16).execAll ⟨[], fun _ => 0⟩ (restoreCalls { Queue.new 16 with usedRing := ⟨2⟩ }) =
      some (Queue.new 16) := by
  decide

/-- A run of calls from a reachable queue ends in a reachable queue. -/
theorem Reachable.steps {m : BitVec 16} {q q' : Queue} {calls : List (Op × GuestMemoryMmap)}
    {k : Nat} (hq : Reachable m q) (h : Steps q calls q' k) : Reachable m q' := by
  induction h with
  | nil => exact hq
  | cons hstep _ ih => exact ih (hq.step hstep)

/-- **The reachable queues are exactly the well-formed ones**, for a power-of-two `max_size`:
`num_added` is set by `add_used` calls over a memory holding the used ring at its default
address `0`, and the rest by the setter calls. -/
theorem reachable_iff_wf {m : BitVec 16} (hm : m.toNat.isPowerOfTwo) (q : Queue) :
    Reachable m q ↔ Wf m q := by
  refine ⟨fun hq => hq.wf hm, fun hw => ?_⟩
  have hmap : UsedMapped ⟨[⟨0, 2 ^ 19⟩], fun _ => 0⟩ (Queue.new m).usedRing m.toNat := by
    have hd : GuestMemoryMmap.RegionsDisjoint ⟨[⟨0, 2 ^ 19⟩], fun _ => 0⟩ :=
      List.pairwise_singleton _ _
    have hu : (Queue.new m).usedRing.toNat = 0 := rfl
    have := m.isLt
    exact UsedMapped.of_region hd (List.mem_singleton_self _) (by omega) (Nat.zero_le _)
      (by dsimp only; omega) rfl
  have h1 := Reachable.new.steps
    (Steps.addUsed_replicate q.numAdded.toNat (Nat.pos_of_isPowerOfTwo hm) hmap)
  have h2 := h1.execAll (Queue.execAll_restoreCalls hw rfl ⟨[], fun _ => 0⟩)
  simpa [Queue.new] using h2

/-- A queue of eight elements in a device of sixteen, its rings at `0x1000`, `0x2000` and
`0x3000`, with three chains added since the last notification check, is reachable. -/
theorem reachable_saved : (16 : BitVec 16).toNat.isPowerOfTwo ∧
    Reachable 16 { Queue.new 16 with
      size := 8, ready := true, eventIdxEnabled := true, descTable := ⟨0x1000⟩
      availRing := ⟨0x2000⟩, usedRing := ⟨0x3000⟩, nextAvail := 7, nextUsed := 5, numAdded := 3 } :=
  ⟨⟨4, rfl⟩, (@reachable_iff_wf 16 ⟨4, rfl⟩ _).mpr
    ⟨⟨rfl, by decide, by decide, rfl, rfl, rfl⟩, ⟨3, rfl⟩⟩⟩

/-! ### Rebuilding a queue in use -/

namespace Transfer

/-- A run keeps the configuration invariant of the device's queue. -/
theorem wf_run {m : BitVec 16} {S : System} (hw : Wf m S.q) (sched : List Action) :
    Wf m (run S sched).q := by
  induction sched generalizing S with
  | nil => exact hw
  | cons a as ih =>
    obtain ⟨_, _, _, h⟩ := step_q S a
    exact ih (by rw [h]; exact hw.of_config rfl rfl rfl rfl rfl)

/-- **A queue rebuilt in the middle of a transfer carries it on.**  From a start, after any
schedule, rebuild the device's queue through the setters from `Queue::new m`, over any memory.
The rebuilt queue is the device's with `num_added = 0`; put in its place, it runs every further
schedule with no failed call, and moves the chains exactly as the device's own queue would. -/
theorem restore_mid_transfer {m : BitVec 16} {q : Queue} {mem : GuestMemoryMmap}
    (h : Start m q mem) (sched sched' : List Action) (mem0 : GuestMemoryMmap) :
    (Queue.new m).execAll mem0 (restoreCalls (run (System.init q mem) sched).q) =
        some { (run (System.init q mem) sched).q with numAdded := 0 } ∧
      (run { run (System.init q mem) sched with
        q := { (run (System.init q mem) sched).q with numAdded := 0 } } sched').failed = false ∧
      (run { run (System.init q mem) sched with
        q := { (run (System.init q mem) sched).q with numAdded := 0 } } sched').chans =
        (run (run (System.init q mem) sched) sched').chans := by
  have hi : Inv (run (System.init q mem) sched) := (Inv.init h).run sched
  have hi' := hi.numAdded 0
  exact ⟨Queue.execAll_restoreCalls (wf_run (h.reachable.wf h.pow) sched) rfl mem0,
    (hi'.run sched').ok, (hi'.run_chans sched').trans (hi.run_chans sched').symm⟩

/-- The device rebuilds its queue in the middle of a transfer with `EVENT_IDX`: it has returned
head `1` to a driver waiting at `used_event = 0`, and head `0` is published and not yet taken.
The transfer goes on with no failed call, but the rebuilt queue has lost the chain added since
the last `needs_notification`: it answers `false` where the device's own queue answers `true`. -/
theorem restore_mid_transfer_two :
    let q : Queue :=
      { Queue.new 2 with availRing := ⟨0x100⟩, usedRing := ⟨0x200⟩, eventIdxEnabled := true }
    let mem : GuestMemoryMmap := ⟨[⟨0, 0x1000⟩], fun _ => 0⟩
    let S := run (System.init q mem) [.stage 1, .publish, .stage 0, .publish, .pop, .complete 1 0x10]
    Start 2 q mem ∧
      (run { S with q := { S.q with numAdded := 0 } }
        [.pop, .complete 0 0x10, .reclaim, .reclaim]).failed = false ∧
      S.q.needsNotification S.mem = some (.ok true, { S.q with numAdded := 0 }) ∧
      Queue.needsNotification { S.q with numAdded := 0 } S.mem =
        some (.ok false, { S.q with numAdded := 0 }) := by
  dsimp only
  have h := twoEntryRings_served fun _ => 0
  have hs : Start 2
      { Queue.new 2 with availRing := ⟨0x100⟩, usedRing := ⟨0x200⟩, eventIdxEnabled := true }
      ⟨[⟨0, 0x1000⟩], fun _ => 0⟩ :=
    ⟨⟨1, rfl⟩, @Reachable.step 2 _ _ ⟨[⟨0, 0x1000⟩], fun _ => 0⟩ _ (.setEventIdx true) _ h.1 rfl,
      h.2.1, h.2.2.1, h.2.2.2, rfl, rfl⟩
  have hrun := (restore_mid_transfer hs
    [.stage 1, .publish, .stage 0, .publish, .pop, .complete 1 0x10]
    [.pop, .complete 0 0x10, .reclaim, .reclaim] ⟨[], fun _ => 0⟩).2.1
  generalize hS : run (System.init _ _) _ = T at hrun ⊢
  have hq : T.q = { Queue.new 2 with
      availRing := ⟨0x100⟩, usedRing := ⟨0x200⟩, eventIdxEnabled := true, nextAvail := 1
      nextUsed := 1, numAdded := 1 } := by
    subst hS; decide
  have hue : T.mem.checkAtomic ⟨BitVec.ofNat 64 0x108⟩ 2 = .ok () := by
    rw [GuestMemoryMmap.checkAtomic_of_regions (m := ⟨[⟨0, 0x1000⟩], fun _ => 0⟩)
      (by subst hS; decide)]
    rfl
  refine ⟨hs, hrun, ?_⟩
  rw [hq]
  refine ⟨(Queue.needsNotification_of_mapped rfl (by decide) (by exact hue)).trans ?_,
    (Queue.needsNotification_of_mapped rfl (by decide) (by exact hue)).trans ?_⟩ <;>
    simp only [Option.some.injEq, Prod.mk.injEq, Except.ok.injEq, and_true] <;> subst hS <;> decide

end Transfer

end VirtioQueue
