import VirtioQueue.Validity

/-!
# No lost wakeup

The driver and the device share guest memory and run concurrently.  The device follows the
loop `queue.rs` recommends:

```text
loop {
    disable_notification()?;
    for chain in iter()? { ... }
    if !enable_notification()? { break; }
}
```

and sleeps after the `break` until the driver notifies it.  The driver publishes one entry
at a time: it writes the head into the ring's next entry, raises the available ring's `idx`
from `a` to `a + 1` and then, after a full fence, decides whether to notify from what the
device armed: with `EVENT_IDX`, iff the used ring's `avail_event` equals `a`
(`vring_need_event` for one new entry); without, iff the used ring's `flags` lack
`VRING_USED_F_NO_NOTIFY`.  At any time it may also write the available ring's `used_event`, as
it does to ask for interrupts.

Both run as interleaved atomic steps under sequential consistency, which the `SeqCst` fences
provide.  `enable_notification` is two steps, the arming write and, past its fence, the
re-read of `idx`, so that a publish can fall between them; `enableNotification_steps` says
the two steps together are `Queue.enableNotification`.  A device that runs again after
`enable_notification` returned `false` has been woken, by a notification or spuriously, and
starts the loop over.

The property is read off the trace of events by `Watch`: after `enable_notification` returned
`false`, the first driver publish must send a notification, unless the device calls
`disable_notification` or `enable_notification` before that publish's check.  It holds as
long as none of the bytes the driver writes, its `idx`, entries and `used_event`, shares a
byte with the field the device arms (`no_lost_wakeup`).  Nothing in `queue.rs` checks this,
and `is_valid` accepts rings placed so that the driver's own `idx` write overwrites
`avail_event`; then the wakeup is lost (`wakeup_lost_aliased`).

## Main definitions

* `System`, `deviceStep`, `driverStep`, `run` — the interleaved system.
* `Watch` — the obligation of the property, as an automaton over events.

## Main results

* `enableNotification_steps` — the device's two steps are `enable_notification`.
* `no_lost_wakeup` — **no wakeup is lost when the fields are apart.**
* `wakeup_lost_aliased` — and one is lost when they are not.
-/

namespace VirtioQueue

/-! ### The field the device arms -/

namespace Queue

/-- The guest address of the field `enable_notification` arms: the used ring's `avail_event`
with `EVENT_IDX`, its `flags` without. -/
def eventField (q : Queue) : Nat :=
  if q.eventIdxEnabled then q.usedRing.toNat + 4 + 8 * q.size.toNat else q.usedRing.toNat

/-- The value `enable_notification` arms it with. -/
def armedValue (q : Queue) : BitVec 16 := if q.eventIdxEnabled then q.nextAvail else 0

/-- A successful arming write stores the armed value into the event field. -/
theorem setNotification_true_ok {q : Queue} {mem mem' : GuestMemoryMmap}
    (h : q.setNotification mem true = some (.ok (), mem')) :
    mem' = mem.write16 q.eventField q.armedValue := by
  cases he : q.eventIdxEnabled
  · simp only [setNotification, he, if_true, Bool.false_eq_true, if_false, setUsedFlags,
      GuestMemoryMmap.store, Option.some.injEq] at h
    split at h <;> cases h
    simp only [eventField, armedValue, he, Bool.false_eq_true, if_false, GuestAddress.toNat]
  · simp only [setNotification, he, if_true, setAvailEvent, availEventOffset_eq,
      Option.bind_eq_bind, Option.some_bind, Option.pure_def, Option.some.injEq] at h
    split at h
    · cases h
    · next addr haddr =>
      have hto := (GuestAddress.checkedAdd_eq_some.mp haddr).2
      simp only [GuestMemoryMmap.store] at h
      split at h <;> cases h
      simp only [eventField, armedValue, he, if_true, BitVec.toNat_ofNat] at hto ⊢
      congr 1
      omega

/-- `disable_notification` writes nothing but the event field. -/
theorem disableNotification_mem {q : Queue} {mem mem' : GuestMemoryMmap} {r : Except Error Unit}
    (h : q.disableNotification mem = some (r, mem')) :
    mem' = mem ∨ ∃ v, mem' = mem.write16 q.eventField v := by
  cases he : q.eventIdxEnabled
  · simp only [disableNotification, setNotification, he, Bool.false_eq_true, if_false,
      Bool.not_false, if_true, setUsedFlags, Option.some.injEq, Prod.mk.injEq] at h
    rw [← h.2]
    rcases GuestMemoryMmap.store_mem mem vringUsedFNoNotify q.usedRing with hm | hm
    · exact .inl hm
    · refine .inr ⟨vringUsedFNoNotify, ?_⟩
      simp only [hm, eventField, he, Bool.false_eq_true, if_false]
  · simp only [disableNotification, setNotification, he, Bool.false_eq_true, if_false,
      Bool.not_true, Option.some.injEq, Prod.mk.injEq] at h
    exact .inl h.2.symm

/-- What `avail_idx` returns when it succeeds: the halfword at `avail_ring + 2`. -/
theorem availIdx_eq_ok {q : Queue} {mem : GuestMemoryMmap} {v : BitVec 16}
    (h : q.availIdx mem = .ok v) : v = mem.read16 (q.availRing.toNat + 2) := by
  unfold availIdx at h
  split at h
  · cases h
  · next addr haddr =>
    have hto := (GuestAddress.checkedAdd_eq_some.mp haddr).2
    simp only [GuestMemoryMmap.load] at h
    cases hc : mem.checkAtomic addr 2 <;> simp only [hc] at h
    · cases h
    · simp only [Except.map, Except.mapError, Except.ok.injEq] at h
      rw [← h, hto]
      rfl

end Queue

/-! ### The system -/

namespace Wakeup

/-- Where the device is in its loop. -/
inductive DevicePc where
  /-- Next: `disable_notification`. -/
  | disable
  /-- Next: `iter`, which reads the available ring's `idx`. -/
  | iter
  /-- Consuming entries with the cursor `iter` returned. -/
  | drain (it : AvailIter)
  /-- Next: `enable_notification` up to its fence, `set_notification(true)`. -/
  | arm
  /-- Next: `enable_notification` past its fence, the re-read of `idx`. -/
  | check
  /-- `enable_notification` returned `false`: waiting to be woken. -/
  | sleep
  /-- A call returned `Err`. -/
  | failed
  deriving DecidableEq, Repr

/-- Where the driver is in a publish. -/
inductive DriverPc where
  /-- Between two publishes. -/
  | idle
  /-- It wrote the head of its next entry; next: raise `idx`. -/
  | staged
  /-- It raised `idx` from `a` to `a + 1`; next: the check whether to notify. -/
  | published (a : BitVec 16)
  deriving DecidableEq, Repr

/-- The shared guest memory, the device's queue and both parties' positions.  The driver keeps
its own copy of the `idx` it last wrote, as drivers do (`avail_idx_shadow`). -/
structure System where
  /-- Guest memory. -/
  mem : GuestMemoryMmap
  /-- The device's queue. -/
  q : Queue
  /-- The device's position. -/
  dev : DevicePc
  /-- The driver's position. -/
  drv : DriverPc
  /-- The driver's copy of the available ring's `idx`. -/
  shadow : BitVec 16

/-- Who takes the next step. -/
inductive Actor where
  | device
  /-- The driver's next step of a publish; `h` is the head it writes when that step is the
  entry's. -/
  | driver (h : BitVec 16)
  /-- The driver writes `v` into the available ring's `used_event`. -/
  | usedEvent (v : BitVec 16)
  deriving DecidableEq, Repr

/-- What a step did: the device call made, or the driver's part of a publish. -/
inductive Event where
  | disable
  | iter
  | next
  | arm
  | enableTrue
  | enableFalse
  | enableErr
  /-- A failed device does nothing. -/
  | idle
  /-- The driver wrote the head of its next entry. -/
  | stage
  /-- The driver raised `idx` from `a` to `a + 1`. -/
  | publish (a : BitVec 16)
  | notify
  | noNotify
  /-- The driver wrote `used_event`. -/
  | usedEvent
  deriving DecidableEq, Repr

/-! ### Steps -/

/-- The device calls `disable_notification`. -/
def disableStep (S : System) : System × Event :=
  match S.q.disableNotification S.mem with
  | some (.ok (), mem) => ({ S with mem := mem, dev := .iter }, .disable)
  | _ => ({ S with dev := .failed }, .disable)

/-- The device calls `iter`, which reads the available ring's `idx`. -/
def iterStep (S : System) : System × Event :=
  match S.q.iter S.mem with
  | .ok it => ({ S with dev := .drain it }, .iter)
  | .error _ => ({ S with dev := .failed }, .iter)

/-- The device advances its cursor by one entry, or finds it exhausted. -/
def drainStep (S : System) (it : AvailIter) : System × Event :=
  match it.next S.q S.mem with
  | some (some _, q) => ({ S with q := q, dev := .drain it }, .next)
  | some (none, q) => ({ S with q := q, dev := .arm }, .next)
  | none => ({ S with dev := .failed }, .next)

/-- `enable_notification` up to its fence: `set_notification(true)`. -/
def armStep (S : System) : System × Event :=
  match S.q.setNotification S.mem true with
  | some (.ok (), mem) => ({ S with mem := mem, dev := .check }, .arm)
  | _ => ({ S with dev := .failed }, .arm)

/-- `enable_notification` past its fence: re-read `idx` and compare it with `next_avail`. -/
def checkStep (S : System) : System × Event :=
  match S.q.availIdx S.mem with
  | .ok idx =>
    if idx != S.q.nextAvail then ({ S with dev := .disable }, .enableTrue)
    else ({ S with dev := .sleep }, .enableFalse)
  | .error _ => ({ S with dev := .failed }, .enableErr)

/-- One step of the device.  A device that runs again after `enable_notification` returned
`false` has been woken and starts the loop over. -/
def deviceStep (S : System) : System × Event :=
  match S.dev with
  | .disable | .sleep => disableStep S
  | .iter => iterStep S
  | .drain it => drainStep S it
  | .arm => armStep S
  | .check => checkStep S
  | .failed => (S, .idle)

/-- Whether the driver notifies after raising `idx` from `a`: with `EVENT_IDX`, iff the device
asked to be notified at `a`; without, iff `flags` lack `VRING_USED_F_NO_NOTIFY`. -/
def driverNotifies (q : Queue) (mem : GuestMemoryMmap) (a : BitVec 16) : Bool :=
  if q.eventIdxEnabled then mem.read16 (q.usedRing.toNat + 4 + 8 * q.size.toNat) == a
  else mem.read16 q.usedRing.toNat &&& vringUsedFNoNotify == 0

/-- One step of a publish of head `h`: write it into the entry at position `idx`, raise `idx`,
or check whether to notify. -/
def driverStep (S : System) (h : BitVec 16) : System × Event :=
  match S.drv with
  | .idle =>
    ({ S with
        mem := S.mem.write16 (S.q.availRing.toNat + 4 + 2 * (S.shadow.toNat % S.q.size.toNat)) h
        drv := .staged }, .stage)
  | .staged =>
    ({ S with
        mem := S.mem.write16 (S.q.availRing.toNat + 2) (S.shadow + 1)
        shadow := S.shadow + 1
        drv := .published S.shadow }, .publish S.shadow)
  | .published a =>
    ({ S with drv := .idle }, if driverNotifies S.q S.mem a then .notify else .noNotify)

/-- The driver writes `v` into `used_event`, after the available ring's entries. -/
def usedEventStep (S : System) (v : BitVec 16) : System × Event :=
  ({ S with mem := S.mem.write16 (S.q.availRing.toNat + 4 + 2 * S.q.size.toNat) v }, .usedEvent)

/-- One step of the actor scheduled. -/
def step (S : System) : Actor → System × Event
  | .device => deviceStep S
  | .driver h => driverStep S h
  | .usedEvent v => usedEventStep S v

/-- A run of a schedule: the system it reaches and the events, in order. -/
def run : System → List Actor → System × List Event
  | S, [] => (S, [])
  | S, a :: as =>
    let r := run (step S a).1 as
    (r.1, (step S a).2 :: r.2)

/-! ### The two steps of `enable_notification` -/

/-- **The device's two steps are `enable_notification`**: run back to back from `arm`, they
leave the memory `enable_notification` leaves, and report what it returns. -/
theorem enableNotification_steps {S : System} (h : S.dev = .arm) {b : Bool}
    {mem' : GuestMemoryMmap} (he : S.q.enableNotification S.mem = some (.ok b, mem')) :
    (deviceStep S).2 = .arm ∧ (deviceStep S).1.mem = mem' ∧
      (deviceStep (deviceStep S).1).2 = if b then .enableTrue else .enableFalse := by
  simp only [Queue.enableNotification, Option.bind_eq_bind, Option.bind_eq_some,
    Option.pure_def, Option.some.injEq] at he
  obtain ⟨⟨r, mem₁⟩, hs, he⟩ := he
  rcases r with e | ⟨⟩
  · cases he
  · simp only [Prod.mk.injEq] at he
    obtain ⟨hi, rfl⟩ := he
    cases hidx : S.q.availIdx mem₁ with
    | error e => rw [hidx] at hi; cases hi
    | ok idx =>
      rw [hidx] at hi
      simp only [Except.map, Except.ok.injEq] at hi
      subst hi
      simp only [deviceStep, h, armStep, hs, checkStep, hidx, true_and]
      split <;> simp_all

/-! ### What a step can do -/

/-- The parts of the queue a step never changes: its layout and mode. -/
structure SameLayout (q q' : Queue) : Prop where
  availRing : q'.availRing = q.availRing
  usedRing : q'.usedRing = q.usedRing
  size : q'.size = q.size
  eventIdxEnabled : q'.eventIdxEnabled = q.eventIdxEnabled

theorem SameLayout.refl (q : Queue) : SameLayout q q := ⟨rfl, rfl, rfl, rfl⟩

theorem SameLayout.eventField {q q' : Queue} (h : SameLayout q q') :
    q'.eventField = q.eventField := by
  simp only [Queue.eventField, h.usedRing, h.size, h.eventIdxEnabled]

/-- What a device step leaves alone: the driver, the queue's layout (only `next_avail`
moves), and guest memory except the event field. -/
structure DeviceFrame (S S' : System) : Prop where
  drv : S'.drv = S.drv
  shadow : S'.shadow = S.shadow
  layout : SameLayout S.q S'.q
  mem : S'.mem = S.mem ∨ ∃ v, S'.mem = S.mem.write16 S.q.eventField v

theorem DeviceFrame.of_dev (S : System) (d : DevicePc) : DeviceFrame S { S with dev := d } :=
  ⟨rfl, rfl, SameLayout.refl _, .inl rfl⟩

theorem disableStep_spec (S : System) :
    (disableStep S).2 = .disable ∧ (disableStep S).1.dev ≠ .check ∧
      DeviceFrame S (disableStep S).1 := by
  unfold disableStep
  split
  · next mem h =>
    exact ⟨rfl, DevicePc.noConfusion, rfl, rfl, SameLayout.refl _,
      Queue.disableNotification_mem h⟩
  · exact ⟨rfl, DevicePc.noConfusion, DeviceFrame.of_dev S _⟩

theorem iterStep_spec (S : System) :
    (iterStep S).2 = .iter ∧ (iterStep S).1.dev ≠ .check ∧ DeviceFrame S (iterStep S).1 := by
  unfold iterStep
  split <;> exact ⟨rfl, DevicePc.noConfusion, DeviceFrame.of_dev S _⟩

theorem drainStep_spec (S : System) (it : AvailIter) :
    (drainStep S it).2 = .next ∧ (drainStep S it).1.dev ≠ .check ∧
      DeviceFrame S (drainStep S it).1 := by
  have layout {c : Option (BitVec 16)} {q : Queue} (h : it.next S.q S.mem = some (c, q)) :
      SameLayout S.q q := by
    rcases AvailIter.next_eq h with rfl | rfl
    · exact SameLayout.refl _
    · exact ⟨rfl, rfl, rfl, rfl⟩
  unfold drainStep
  split
  · next h => exact ⟨rfl, DevicePc.noConfusion, rfl, rfl, layout h, .inl rfl⟩
  · next h => exact ⟨rfl, DevicePc.noConfusion, rfl, rfl, layout h, .inl rfl⟩
  · exact ⟨rfl, DevicePc.noConfusion, DeviceFrame.of_dev S _⟩

/-- Arming writes the armed value into the event field, and changes nothing else. -/
theorem armStep_spec (S : System) :
    (armStep S).2 = .arm ∧ DeviceFrame S (armStep S).1 ∧
      ((armStep S).1.dev = .check →
        (armStep S).1.q = S.q ∧
          (armStep S).1.mem = S.mem.write16 S.q.eventField S.q.armedValue) := by
  unfold armStep
  split
  · next mem h =>
    have hm := Queue.setNotification_true_ok h
    exact ⟨rfl, ⟨rfl, rfl, SameLayout.refl _, .inr ⟨_, hm⟩⟩, fun _ => ⟨rfl, hm⟩⟩
  · exact ⟨rfl, DeviceFrame.of_dev S _, DevicePc.noConfusion⟩

/-- The re-read of `idx` writes nothing; it returns `false` only when `idx` is `next_avail`. -/
theorem checkStep_spec (S : System) :
    (checkStep S).1.mem = S.mem ∧ (checkStep S).1.q = S.q ∧ (checkStep S).1.dev ≠ .check ∧
      DeviceFrame S (checkStep S).1 ∧
      ((checkStep S).2 = .enableFalse →
        (checkStep S).1.dev = .sleep ∧ S.mem.read16 (S.q.availRing.toNat + 2) = S.q.nextAvail) := by
  unfold checkStep
  split
  · next idx hidx =>
    split
    · exact ⟨rfl, rfl, DevicePc.noConfusion, DeviceFrame.of_dev S _, Event.noConfusion⟩
    · next hne =>
      simp only [bne_iff_ne, ne_eq, Decidable.not_not] at hne
      exact ⟨rfl, rfl, DevicePc.noConfusion, DeviceFrame.of_dev S _,
        fun _ => ⟨rfl, (Queue.availIdx_eq_ok hidx).symm.trans hne⟩⟩
  · exact ⟨rfl, rfl, DevicePc.noConfusion, DeviceFrame.of_dev S _, Event.noConfusion⟩

/-! ### The obligation -/

/-- The obligation of the property along the events of a run: `armed` once
`enable_notification` returned `false`, `owed` once the driver has published after that, and
`lost` if that publish's check does not notify. -/
inductive Watch where
  | quiet
  | armed
  | owed
  | lost
  deriving DecidableEq, Repr

/-- The obligation after one more event.  A device call of `disable_notification`, or the
arming write that starts `enable_notification`, ends it: the device is awake. -/
def Watch.next : Watch → Event → Watch
  | .lost, _ => .lost
  | _, .enableFalse => .armed
  | _, .disable => .quiet
  | _, .arm => .quiet
  | .armed, .publish _ => .owed
  | .owed, .notify => .quiet
  | .owed, .noNotify => .lost
  | w, _ => w

theorem Watch.next_call {w : Watch} (hw : w ≠ .lost) {e : Event} (he : e = .disable ∨ e = .arm) :
    w.next e = .quiet := by
  rcases he with rfl | rfl <;> cases w <;> first | rfl | exact absurd rfl hw

/-- With no obligation, only `enable_notification` returning `false` starts one. -/
theorem Watch.quiet_next {e : Event} (he : e ≠ .enableFalse) : Watch.quiet.next e = .quiet := by
  cases e <;> first | rfl | exact absurd rfl he

/-! ### The invariant -/

/-- The rings have an entry, and the bytes the driver writes, the available ring's `idx`,
entries and `used_event`, `[avail_ring + 2, avail_ring + 6 + 2 * size)`, share none with the
field the device arms. -/
def Separated (q : Queue) : Prop :=
  0 < q.size.toNat ∧ (q.eventField + 2 ≤ q.availRing.toNat + 2 ∨
    q.availRing.toNat + 6 + 2 * q.size.toNat ≤ q.eventField)

instance : DecidablePred Separated := fun _ => inferInstanceAs (Decidable (_ ∧ (_ ∨ _)))

/-- What holds along every run, given the obligation `w` of the events so far. -/
structure Inv (S : System) (w : Watch) : Prop where
  separated : Separated S.q
  /-- The driver is the only writer of `idx`. -/
  idx : S.mem.read16 (S.q.availRing.toNat + 2) = S.shadow
  published : ∀ a, S.drv = .published a → S.shadow = a + 1
  /-- Between the two steps of `enable_notification`, the event field holds what was armed. -/
  check : S.dev = .check → S.mem.read16 S.q.eventField = S.q.armedValue
  /-- After `enable_notification` returned `false`: the device sleeps, armed at `next_avail`,
  and every entry published before its read of `idx` was consumed. -/
  armed : w = .armed →
    S.dev = .sleep ∧ S.mem.read16 S.q.eventField = S.q.armedValue ∧ S.shadow = S.q.nextAvail
  /-- Once the driver published after that: its check is pending, for the entry `next_avail`. -/
  owed : w = .owed →
    S.dev = .sleep ∧ S.mem.read16 S.q.eventField = S.q.armedValue ∧
      S.drv = .published S.q.nextAvail
  lost : w ≠ .lost

theorem Inv.quiet_or_sleep {S : System} {w : Watch} (h : Inv S w) :
    w = .quiet ∨ S.dev = .sleep := by
  cases w with
  | quiet => exact .inl rfl
  | armed => exact .inr (h.armed rfl).1
  | owed => exact .inr (h.owed rfl).1
  | lost => exact absurd rfl h.lost

/-- A write at the event field leaves the driver's `idx` alone. -/
theorem read16_idx_of_separated {q : Queue} (hs : Separated q) (mem : GuestMemoryMmap)
    (v : BitVec 16) :
    (mem.write16 q.eventField v).read16 (q.availRing.toNat + 2) =
      mem.read16 (q.availRing.toNat + 2) :=
  mem.read16_write16_of_disjoint v (by unfold Separated at hs; omega)

/-- And a write of the driver leaves the event field alone. -/
theorem read16_eventField_of_separated {q : Queue} (hs : Separated q) (mem : GuestMemoryMmap)
    {a : Nat} (h1 : q.availRing.toNat + 2 ≤ a) (h2 : a + 2 ≤ q.availRing.toNat + 6 + 2 * q.size.toNat)
    (v : BitVec 16) : (mem.write16 a v).read16 q.eventField = mem.read16 q.eventField :=
  mem.read16_write16_of_disjoint v (by unfold Separated at hs; omega)

/-- A device step that does not stop between the two halves of `enable_notification` leaves
no obligation and keeps the invariant. -/
theorem Inv.quiet_of_frame {S S' : System} {w : Watch} (h : Inv S w) (hf : DeviceFrame S S')
    (hc : S'.dev = .check → S'.mem.read16 S'.q.eventField = S'.q.armedValue) :
    Inv S' .quiet := by
  have hsep : Separated S'.q := by
    unfold Separated
    rw [hf.layout.eventField, hf.layout.availRing, hf.layout.size]
    exact h.separated
  refine ⟨hsep, ?_, fun a ha => ?_, hc, Watch.noConfusion,
    Watch.noConfusion, Watch.noConfusion⟩
  · rw [hf.layout.availRing, hf.shadow]
    rcases hf.mem with hm | ⟨v, hm⟩
    · rw [hm]; exact h.idx
    · rw [hm, read16_idx_of_separated h.separated]; exact h.idx
  · rw [hf.drv] at ha
    rw [hf.shadow]
    exact h.published a ha

/-- The driver's check for entry `next_avail` notifies when the field holds what was armed. -/
theorem driverNotifies_of_armed {q : Queue} {mem : GuestMemoryMmap}
    (h : mem.read16 q.eventField = q.armedValue) : driverNotifies q mem q.nextAvail = true := by
  cases he : q.eventIdxEnabled <;>
    simp only [driverNotifies, Queue.eventField, Queue.armedValue, he, Bool.false_eq_true,
      if_true, if_false] at h ⊢
  · rw [h]; rfl
  · simp [h]

/-- **A device step keeps the invariant.** -/
theorem Inv.deviceStep {S : System} {w : Watch} (h : Inv S w) :
    Inv (deviceStep S).1 (w.next (deviceStep S).2) := by
  cases hd : S.dev with
  | disable | sleep =>
    obtain ⟨he, hc, hf⟩ := disableStep_spec S
    simp only [Wakeup.deviceStep, hd, he, Watch.next_call h.lost (.inl rfl)]
    exact h.quiet_of_frame hf (absurd · hc)
  | iter =>
    obtain ⟨he, hc, hf⟩ := iterStep_spec S
    obtain rfl := h.quiet_or_sleep.resolve_right (by simp [hd])
    simp only [Wakeup.deviceStep, hd, he]
    exact h.quiet_of_frame hf (absurd · hc)
  | drain it =>
    obtain ⟨he, hc, hf⟩ := drainStep_spec S it
    obtain rfl := h.quiet_or_sleep.resolve_right (by simp [hd])
    simp only [Wakeup.deviceStep, hd, he]
    exact h.quiet_of_frame hf (absurd · hc)
  | arm =>
    obtain ⟨he, hf, hc⟩ := armStep_spec S
    simp only [Wakeup.deviceStep, hd, he, Watch.next_call h.lost (.inr rfl)]
    refine h.quiet_of_frame hf fun hc' => ?_
    obtain ⟨hq, hm⟩ := hc hc'
    rw [hm, hq, GuestMemoryMmap.read16_write16_self]
  | check =>
    obtain ⟨hm, hq, hc, hf, hfalse⟩ := checkStep_spec S
    obtain rfl := h.quiet_or_sleep.resolve_right (by simp [hd])
    simp only [Wakeup.deviceStep, hd]
    have hi := h.quiet_of_frame hf (absurd · hc)
    by_cases he : (checkStep S).2 = .enableFalse
    · obtain ⟨hsl, hidx⟩ := hfalse he
      rw [he]
      refine { hi with
        armed := fun _ => ⟨hsl, by rw [hm, hq]; exact h.check hd, ?_⟩
        owed := Watch.noConfusion
        lost := Watch.noConfusion }
      rw [hf.shadow, hq, ← h.idx, hidx]
    · rwa [Watch.quiet_next he]
  | failed =>
    simp only [Wakeup.deviceStep, hd]
    cases w <;> exact h

/-- A write of the driver past `idx`, into an entry or `used_event`, keeps the invariant. -/
theorem Inv.write {S : System} {w : Watch} (h : Inv S w) {a : Nat}
    (h1 : S.q.availRing.toNat + 4 ≤ a) (h2 : a + 2 ≤ S.q.availRing.toNat + 6 + 2 * S.q.size.toNat)
    (v : BitVec 16) : Inv { S with mem := S.mem.write16 a v } w := by
  have hF := read16_eventField_of_separated h.separated S.mem (by omega) h2 v
  refine ⟨h.separated,
    (S.mem.read16_write16_of_disjoint (b := S.q.availRing.toNat + 2) v (by omega)).trans h.idx,
    h.published,
    fun hc => hF.trans (h.check hc), fun hw => ?_, fun hw => ?_, h.lost⟩
  · obtain ⟨hs, hF', hn⟩ := h.armed hw
    exact ⟨hs, hF.trans hF', hn⟩
  · obtain ⟨hs, hF', hd⟩ := h.owed hw
    exact ⟨hs, hF.trans hF', hd⟩

/-- **A driver step keeps the invariant**: the first publish after `enable_notification`
returned `false` finds the event field as the device armed it, and notifies. -/
theorem Inv.driverStep {S : System} {w : Watch} (h : Inv S w) (hh : BitVec 16) :
    Inv (driverStep S hh).1 (w.next (driverStep S hh).2) := by
  cases hd : S.drv with
  | idle =>
    simp only [Wakeup.driverStep, hd]
    have := Nat.mod_lt S.shadow.toNat h.separated.1
    have hw := h.write (a := S.q.availRing.toNat + 4 + 2 * (S.shadow.toNat % S.q.size.toNat))
      (by omega) (by omega) hh
    cases w with
    | owed => cases hd.symm.trans (h.owed rfl).2.2
    | lost => exact absurd rfl h.lost
    | quiet | armed =>
      exact { hw with
        published := fun _ h' => DriverPc.noConfusion h'
        owed := Watch.noConfusion }
  | staged =>
    simp only [Wakeup.driverStep, hd]
    have hF := read16_eventField_of_separated h.separated S.mem (Nat.le_refl _) (by omega)
      (S.shadow + 1)
    have hpub : ∀ a, DriverPc.published S.shadow = .published a → S.shadow + 1 = a + 1 :=
      fun a ha => by cases ha; rfl
    cases w with
    | quiet =>
      exact ⟨h.separated, GuestMemoryMmap.read16_write16_self _ _ _, hpub,
        fun hc => hF.trans (h.check hc), Watch.noConfusion, Watch.noConfusion, Watch.noConfusion⟩
    | armed =>
      obtain ⟨hs, hF', hn⟩ := h.armed rfl
      exact ⟨h.separated, GuestMemoryMmap.read16_write16_self _ _ _, hpub,
        fun hc => hF.trans (h.check hc), Watch.noConfusion,
        fun _ => ⟨hs, hF.trans hF', by rw [hn]⟩, Watch.noConfusion⟩
    | owed => cases hd.symm.trans (h.owed rfl).2.2
    | lost => exact absurd rfl h.lost
  | published a =>
    simp only [Wakeup.driverStep, hd]
    have base : ∀ w', w' ≠ .lost → (w' = .armed → w = .armed) → w' ≠ .owed →
        Inv { S with drv := .idle } w' := fun w' hl ha ho =>
      ⟨h.separated, h.idx, fun _ h' => DriverPc.noConfusion h', h.check,
        fun h' => h.armed (ha h'), fun h' => absurd h' ho, hl⟩
    cases w with
    | quiet =>
      exact base _ (by split <;> exact Watch.noConfusion) (by split <;> exact Watch.noConfusion)
        (by split <;> exact Watch.noConfusion)
    | armed =>
      exact base _ (by split <;> exact Watch.noConfusion) (fun _ => rfl)
        (by split <;> exact Watch.noConfusion)
    | owed =>
      obtain ⟨-, hF, hp⟩ := h.owed rfl
      rw [hd, DriverPc.published.injEq] at hp
      rw [hp, driverNotifies_of_armed hF, if_pos rfl]
      exact base _ Watch.noConfusion Watch.noConfusion Watch.noConfusion
    | lost => exact absurd rfl h.lost

/-- The driver's write of `used_event` keeps the invariant. -/
theorem Inv.usedEventStep {S : System} {w : Watch} (h : Inv S w) (v : BitVec 16) :
    Inv (usedEventStep S v).1 (w.next (usedEventStep S v).2) := by
  have hw := h.write (a := S.q.availRing.toNat + 4 + 2 * S.q.size.toNat) (by omega) (by omega) v
  cases w <;> exact hw

theorem Inv.step {S : System} {w : Watch} (h : Inv S w) (a : Actor) :
    Inv (step S a).1 (w.next (step S a).2) := by
  cases a with
  | device => exact h.deviceStep
  | driver hh => exact h.driverStep hh
  | usedEvent v => exact h.usedEventStep v

/-- The run lemma: the invariant holds after every schedule. -/
theorem Inv.run {S : System} {w : Watch} (h : Inv S w) (sched : List Actor) :
    Inv (run S sched).1 ((run S sched).2.foldl Watch.next w) := by
  induction sched generalizing S w with
  | nil => exact h
  | cons a as ih => exact ih (h.step a)

/-- **No lost wakeup.**  Start the device at the top of its loop and the driver between two
publishes, with the driver's `idx` field apart from the field the device arms, and run any
interleaving of the two.  Whenever `enable_notification` returns `false`, the first publish
after its read of `idx` notifies the device, unless the device calls `disable_notification`
or `enable_notification` before that publish's check. -/
theorem no_lost_wakeup {S : System} (hsep : Separated S.q)
    (hidx : S.mem.read16 (S.q.availRing.toNat + 2) = S.shadow) (hdev : S.dev = .disable)
    (hdrv : S.drv = .idle) (sched : List Actor) :
    (run S sched).2.foldl Watch.next .quiet ≠ .lost :=
  (Inv.run ⟨hsep, hidx, fun _ h => DriverPc.noConfusion (hdrv.symm.trans h),
    fun h => DevicePc.noConfusion (hdev.symm.trans h), Watch.noConfusion, Watch.noConfusion,
    Watch.noConfusion⟩ sched).lost

/-- Rings a driver may place, one element each: used ring at `0x300`, available ring at
`0x200`.  On the schedule that loses the wakeup below, with a write of `used_event` added,
this one is not lost. -/
theorem no_lost_wakeup_apart :
    let S : System := ⟨⟨[⟨0, 0x1000⟩], fun _ => 0⟩,
      { Queue.new 1 with
        ready := true, eventIdxEnabled := true, descTable := ⟨0x100⟩, availRing := ⟨0x200⟩,
        usedRing := ⟨0x300⟩ }, .disable, .idle, 0⟩
    Separated S.q ∧ S.mem.read16 (S.q.availRing.toNat + 2) = S.shadow ∧ S.dev = .disable ∧
      S.drv = .idle ∧
      (run S [.device, .device, .device, .device, .device, .usedEvent 0, .driver 0, .driver 0,
        .driver 0]).2.foldl Watch.next .quiet ≠ .lost := by
  intro S
  have hsep : Separated S.q := by decide
  exact ⟨hsep, rfl, rfl, rfl, no_lost_wakeup hsep rfl rfl rfl _⟩

/-- Rings that overlap lose the wakeup.  With `EVENT_IDX`, one-element rings at
`used_ring = 0` and `avail_ring = 10`, which `is_valid` accepts, put the available ring's
`idx` on the used ring's `avail_event`, both at `12`.  The device arms `avail_event = 0`,
re-reads `idx = 0` and sleeps; the driver writes head `0` into its entry, at `14`, and its
raise of `idx` to `1` overwrites `avail_event`; it reads back `1` and does not notify, and the
device sleeps with the entry pending. -/
theorem wakeup_lost_aliased :
    let q : Queue := { Queue.new 1 with
      ready := true, eventIdxEnabled := true, descTable := ⟨0x100⟩, availRing := ⟨10⟩,
      usedRing := ⟨0⟩ }
    let mem : GuestMemoryMmap := ⟨[⟨0, 0x1000⟩], fun _ => 0⟩
    let r := run ⟨mem, q, .disable, .idle, 0⟩
      [.device, .device, .device, .device, .device, .driver 0, .driver 0, .driver 0]
    q.isValid mem = some true ∧ ¬ Separated q ∧
      r.2 = [.disable, .iter, .next, .arm, .enableFalse, .stage, .publish 0, .noNotify] ∧
      r.2.foldl Watch.next .quiet = .lost ∧
      r.1.dev = .sleep ∧ r.1.mem.read16 (r.1.q.availRing.toNat + 2) ≠ r.1.q.nextAvail := by
  decide

end Wakeup

end VirtioQueue
