import VirtioQueue.Serve
import VirtioQueue.Wakeup

/-!
# The device loop

The loop `queue.rs` recommends to a device, which its test `test_consume_chains_with_notif`
runs:

```text
loop {
    i += 1;
    q.disable_notification(mem).unwrap();
    while let Some(chain) = q.iter(mem).unwrap().next() {
        .. q.add_used(mem, chain.head_index(), len).unwrap();
    }
    if !q.enable_notification(mem).unwrap() { break; }
}
```

The test expects the chains to be "consumed in a single loop iteration because there's nothing
updating the `idx` field of the available ring in the meantime" (`assert_eq!(i, 1)`).
`deviceLoop_one_round` proves this for every queue reachable from `Queue::new`, over a guest
memory that serves both rings and the field the device arms, with the available ring apart
from the bytes `add_used` writes and from the field the device arms.  The loop makes one round,
serves every published chain in order, and leaves the device asleep in the state
`VirtioQueue.Wakeup` starts from after `enable_notification` returned `false`: the field it
arms holds the armed value, and the driver's `idx` equals `next_avail`.

The second separation is an assumption, not something `queue.rs` checks:
`disable_notification` and `enable_notification` write the used ring's `flags` (without
`EVENT_IDX`) or `avail_event` (with it), and `is_valid` does not keep either field off the
available ring.

The example in the documentation of `queue.rs` also asks `needs_notification` after each
`add_used`.  With `EVENT_IDX`, each call then looks at a window of one position, the one just
written, so the driver is notified once, when the completion it asked for in `used_event` is
returned (`notifies_at_usedEvent`).

## Main definitions

* `EventApart` — the field the device arms lies apart from the available ring.
* `Queue.deviceLoop` — the loop, for at most `rounds` rounds.
* `AvailRingApart` — the available ring with its `used_event` lies apart from the used ring.
* `Queue.serveNotify` — the inner loop of the documentation, with `needs_notification`.

## Main results

* `Queue.setNotification_of_mapped` — what `set_notification` writes when its store succeeds.
* `Queue.enableNotification_of_mapped` — `enable_notification` arms, then compares the `idx`
  it re-reads with `next_avail`.
* `deviceLoop_one_round` — **with a quiet driver the loop makes one round, serves every
  published chain, and leaves the device armed at `next_avail = idx`.**
* `Queue.needsNotification_after_one` — one element after the last call, `needs_notification`
  asks to notify iff `used_event` is that element's position.
* `notifies_at_usedEvent` — **the loop of the documentation notifies once, at the position the
  driver asked for, and never if that position is not reached.**
-/

namespace VirtioQueue

/-- The field the device arms, `[event_field, event_field + 2)`, shares no byte with the
available ring's `idx` and entries, which the loop reads. -/
def EventApart (q : Queue) : Prop :=
  q.eventField + 2 ≤ q.availRing.toNat + 2 ∨
    q.availRing.toNat + 4 + 2 * q.size.toNat ≤ q.eventField

/-- A write at the event field leaves what the loop reads of the available ring. -/
theorem EventApart.read16_write16 {q : Queue} (h : EventApart q) (hs : 0 < q.size.toNat)
    (mem : GuestMemoryMmap) (v : BitVec 16) :
    (mem.write16 q.eventField v).read16 (q.availRing.toNat + 2) =
        mem.read16 (q.availRing.toNat + 2) ∧
      ∀ i, availEntry (mem.write16 q.eventField v) q.availRing q.size.toNat i =
        availEntry mem q.availRing q.size.toNat i := by
  unfold EventApart at h
  refine ⟨mem.read16_write16_of_disjoint v (by omega), fun i => ?_⟩
  have := Nat.mod_lt i hs
  exact mem.read16_write16_of_disjoint v (by omega)

namespace Queue

/-- `set_notification` when the store at the event field passes its checks: arming writes the
armed value there; suppressing writes `VRING_USED_F_NO_NOTIFY` to the used ring's `flags`
without `EVENT_IDX`, and nothing with it. -/
theorem setNotification_of_mapped {q : Queue} {mem : GuestMemoryMmap}
    (hov : q.usedRing.toNat + 4 + 8 * q.size.toNat < 2 ^ 64)
    (hev : mem.checkAtomic ⟨BitVec.ofNat 64 q.eventField⟩ 2 = .ok ()) (enable : Bool) :
    q.setNotification mem enable =
      some (.ok (), if enable then mem.write16 q.eventField q.armedValue
        else if q.eventIdxEnabled then mem else mem.write16 q.eventField vringUsedFNoNotify) := by
  cases he : q.eventIdxEnabled
  · have haddr : (⟨BitVec.ofNat 64 q.eventField⟩ : GuestAddress) = q.usedRing :=
      GuestAddress.ext_toNat (by simp [eventField, he, GuestAddress.toNat])
    rw [haddr] at hev
    cases enable <;>
      simp [setNotification, setUsedFlags, he, GuestMemoryMmap.store_eq hev, Except.mapError,
        eventField, armedValue]
  · rw [eventField, if_pos he] at hev
    have hst : q.setAvailEvent mem q.nextAvail =
        some (.ok (), mem.write16 (q.usedRing.toNat + 4 + 8 * q.size.toNat) q.nextAvail) := by
      rw [@setAvailEvent_of_lt q (by omega), ← Nat.add_assoc, GuestMemoryMmap.store_eq hev]
      simp only [GuestAddress.toNat_mk, BitVec.toNat_ofNat, Nat.mod_eq_of_lt hov]
      rfl
    cases enable <;> simp [setNotification, he, hst, eventField, armedValue]

/-- `disable_notification` when the store at the event field passes its checks. -/
theorem disableNotification_of_mapped {q : Queue} {mem : GuestMemoryMmap}
    (hov : q.usedRing.toNat + 4 + 8 * q.size.toNat < 2 ^ 64)
    (hev : mem.checkAtomic ⟨BitVec.ofNat 64 q.eventField⟩ 2 = .ok ()) :
    q.disableNotification mem =
      some (.ok (), if q.eventIdxEnabled then mem
        else mem.write16 q.eventField vringUsedFNoNotify) :=
  setNotification_of_mapped hov hev false

/-- `enable_notification` when the store at the event field and the load of the available
ring's `idx` pass their checks: it arms, then reports whether the `idx` it reads after the
arming write differs from `next_avail`. -/
theorem enableNotification_of_mapped {q : Queue} {mem : GuestMemoryMmap}
    (hov : q.usedRing.toNat + 4 + 8 * q.size.toNat < 2 ^ 64)
    (hev : mem.checkAtomic ⟨BitVec.ofNat 64 q.eventField⟩ 2 = .ok ())
    (hA : q.availRing.toNat + 2 < 2 ^ 64)
    (hidx : mem.checkAtomic ⟨BitVec.ofNat 64 (q.availRing.toNat + 2)⟩ 2 = .ok ()) :
    q.enableNotification mem =
      some (.ok ((mem.write16 q.eventField q.armedValue).read16 (q.availRing.toNat + 2) !=
        q.nextAvail), mem.write16 q.eventField q.armedValue) := by
  have hidx' := (GuestMemoryMmap.checkAtomic_of_regions
    (mem.regions_write16 q.eventField q.armedValue) _ 2).trans hidx
  simp only [enableNotification, setNotification_of_mapped hov hev, if_true, Option.bind_eq_bind,
    Option.some_bind, Option.pure_def, availIdx_of_lt hA, GuestMemoryMmap.load_eq hidx',
    GuestAddress.toNat_mk, BitVec.toNat_ofNat, Nat.mod_eq_of_lt hA]
  rfl

/-- The device's loop of `test_consume_chains_with_notif`, for at most `rounds` rounds, each
serving chains as `serve` does for at most `fuel` rounds of its own:
`loop { i += 1; q.disable_notification(mem).unwrap(); ..;
if !q.enable_notification(mem).unwrap() { break; } }`.  The count `i` of rounds made, the heads
served, and the queue and guest memory it leaves; `none` when a call panics or fails, or the
rounds run out first. -/
def deviceLoop (q : Queue) (mem : GuestMemoryMmap) (len : BitVec 16 → BitVec 32) (fuel : Nat) :
    Nat → Option (Nat × List (BitVec 16) × Queue × GuestMemoryMmap)
  | 0 => none
  | rounds + 1 =>
    match q.disableNotification mem with
    | some (.ok (), mem₁) =>
      match q.serve mem₁ len fuel with
      | some (heads, q₂, mem₂) =>
        match q₂.enableNotification mem₂ with
        | some (.ok false, mem₃) => some (1, heads, q₂, mem₃)
        | some (.ok true, mem₃) =>
          (q₂.deviceLoop mem₃ len fuel rounds).map fun r => (r.1 + 1, heads ++ r.2.1, r.2.2)
        | _ => none
      | none => none
    | _ => none

/-- A round after which `enable_notification` returns `false` is the last. -/
theorem deviceLoop_last {q q₂ : Queue} {mem mem₁ mem₂ mem₃ : GuestMemoryMmap}
    {len : BitVec 16 → BitVec 32} {fuel : Nat} {heads : List (BitVec 16)} (rounds : Nat)
    (hdis : q.disableNotification mem = some (.ok (), mem₁))
    (hserve : q.serve mem₁ len fuel = some (heads, q₂, mem₂))
    (hen : q₂.enableNotification mem₂ = some (.ok false, mem₃)) :
    q.deviceLoop mem len fuel (rounds + 1) = some (1, heads, q₂, mem₃) := by
  simp only [deviceLoop, hdis, hserve, hen]

end Queue

/-- **With a quiet driver the device loop makes one round.**  From any queue reachable from
`Queue::new m`, `m` a power of two, over a guest memory that serves both rings and the field the
device arms, with the available ring apart from the bytes `add_used` writes and from that field,
let `d = idx - next_avail` (wrapping) for the `idx` the driver published, and let every
published head be below the size.  The loop, allowed more than `d` chains a round and at least
one round, returns after exactly one round.  It served the heads at available positions
`next_avail, …, next_avail + d - 1`, in that order, and left `next_avail = idx`, both
`next_used` and `num_added` advanced by `d`, and every other field as it was.  In the memory it
leaves, the field the device arms holds the armed value (`next_avail` with `EVENT_IDX`, `0`
without), and the driver's `idx` still equals `next_avail`. -/
theorem deviceLoop_one_round {m : BitVec 16} (hm : m.toNat.isPowerOfTwo) {q : Queue}
    (hq : Reachable m q) {mem : GuestMemoryMmap} (hA : AvailMapped mem q.availRing q.size.toNat)
    (hU : UsedMapped mem q.usedRing q.size.toNat)
    (hapart : RingsApart q.availRing q.usedRing q.size.toNat) (hev : EventApart q)
    (hevMap : mem.checkAtomic ⟨BitVec.ofNat 64 q.eventField⟩ 2 = .ok ())
    (len : BitVec 16 → BitVec 32)
    (hheads : ∀ j < (mem.read16 (q.availRing.toNat + 2) - q.nextAvail).toNat,
      availEntry mem q.availRing q.size.toNat (q.nextAvail.toNat + j) < q.size)
    {fuel : Nat} (hfuel : (mem.read16 (q.availRing.toNat + 2) - q.nextAvail).toNat < fuel)
    {rounds : Nat} (hrounds : 0 < rounds) :
    let idx := mem.read16 (q.availRing.toNat + 2)
    let q' : Queue := { q with
      nextAvail := idx, nextUsed := q.nextUsed + (idx - q.nextAvail),
      numAdded := q.numAdded + (idx - q.nextAvail) }
    ∃ mem', q.deviceLoop mem len fuel rounds =
        some (1, (List.range (idx - q.nextAvail).toNat).map fun j =>
          availEntry mem q.availRing q.size.toNat (q.nextAvail.toNat + j), q', mem') ∧
      mem'.read16 q'.eventField = q'.armedValue ∧
      mem'.read16 (q'.availRing.toNat + 2) = q'.nextAvail := by
  intro idx q'
  have hw := hq.wf hm
  have hs := hw.size_pos
  obtain ⟨rounds, rfl⟩ : ∃ r, rounds = r + 1 := ⟨rounds - 1, by omega⟩
  -- `disable_notification` writes at most the event field
  obtain ⟨mem₁, hdis, hreg₁, hidx₁, hentry₁⟩ : ∃ mem₁,
      q.disableNotification mem = some (.ok (), mem₁) ∧ mem₁.regions = mem.regions ∧
      mem₁.read16 (q.availRing.toNat + 2) = idx ∧
      ∀ i, availEntry mem₁ q.availRing q.size.toNat i =
        availEntry mem q.availRing q.size.toNat i := by
    refine ⟨_, Queue.disableNotification_of_mapped hU.noOverflow hevMap, ?_⟩
    split
    · exact ⟨rfl, rfl, fun _ => rfl⟩
    · exact ⟨rfl, hev.read16_write16 hs mem _⟩
  -- the chains are served against that memory
  obtain ⟨cs, mem₂, hserve, hchain, hlen, hcs⟩ := @Queue.serve_eq len
    (idx - q.nextAvail).toNat q mem₁ hs (dvd_two_pow_sixteen hw.size_pow) (hA.of_regions hreg₁)
    (hU.of_regions hreg₁) hapart (by rw [hidx₁]) (fun j hj => by rw [hentry₁]; exact hheads j hj)
    _ hfuel
  rw [hidx₁, BitVec.ofNat_toNat, BitVec.setWidth_eq,
    AddUsedCall.map_headIndex fun j hj => (hcs j hj).1, hlen] at hserve
  simp only [hentry₁] at hserve
  have hws (j : Nat) (hj : j < cs.length) := (hcs j hj).2.2
  have hreg₂ := (hchain.regions hws).trans hreg₁
  have hidx₂ : mem₂.read16 (q.availRing.toNat + 2) = idx :=
    (hchain.read16_eq hws hs (by unfold RingsApart at hapart; omega)).trans hidx₁
  -- `enable_notification` arms, and re-reads an `idx` that did not move
  have hen := @Queue.enableNotification_of_mapped q' mem₂ hU.noOverflow
    ((GuestMemoryMmap.checkAtomic_of_regions hreg₂ _ 2).trans hevMap)
    (show q.availRing.toNat + 2 < 2 ^ 64 by have := hA.noOverflow; omega)
    ((GuestMemoryMmap.checkAtomic_of_regions hreg₂ _ 2).trans hA.idx)
  have hquiet : (mem₂.write16 q'.eventField q'.armedValue).read16 (q'.availRing.toNat + 2) =
      q'.nextAvail :=
    (hev.read16_write16 hs mem₂ _).1.trans hidx₂
  rw [hquiet, bne_self_eq_false] at hen
  exact ⟨_, Queue.deviceLoop_last rounds hdis hserve hen, mem₂.read16_write16_self _ _, hquiet⟩

/-- A two-entry queue, available ring at `0x100` and used ring at `0x200`, with the heads `1`
and `0` published: the loop serves `1` and then `0` in one round. -/
theorem deviceLoop_one_round_two :
    let q : Queue := { Queue.new 2 with availRing := ⟨0x100⟩, usedRing := ⟨0x200⟩ }
    let mem : GuestMemoryMmap :=
      ⟨[⟨0, 0x1000⟩], fun i => if i = 0x102 then 2 else if i = 0x104 then 1 else 0⟩
    (2 : BitVec 16).toNat.isPowerOfTwo ∧ Reachable 2 q ∧
      AvailMapped mem q.availRing q.size.toNat ∧ UsedMapped mem q.usedRing q.size.toNat ∧
      RingsApart q.availRing q.usedRing q.size.toNat ∧ EventApart q ∧
      mem.checkAtomic ⟨BitVec.ofNat 64 q.eventField⟩ 2 = .ok () ∧
      (∀ j < (mem.read16 (q.availRing.toNat + 2) - q.nextAvail).toNat,
        availEntry mem q.availRing q.size.toNat (q.nextAvail.toNat + j) < q.size) ∧
      (q.deviceLoop mem (fun _ => 0x10) 3 1).map (fun r => (r.1, r.2.1)) = some (1, [1, 0]) := by
  intro q mem
  have hm : (2 : BitVec 16).toNat.isPowerOfTwo := ⟨1, rfl⟩
  obtain ⟨hq, hA, hU, hapart⟩ := twoEntryRings_served mem.bytes
  have hev : EventApart q := .inr (by decide)
  have hd : mem.RegionsDisjoint := List.pairwise_singleton _ _
  have hevMap : mem.checkAtomic ⟨BitVec.ofNat 64 q.eventField⟩ 2 = .ok () :=
    GuestMemoryMmap.checkAtomic_of_region hd (List.mem_singleton_self _) (by decide) (by decide)
      (by decide) (by decide)
  have hheads : ∀ j < (mem.read16 (q.availRing.toNat + 2) - q.nextAvail).toNat,
      availEntry mem q.availRing q.size.toNat (q.nextAvail.toNat + j) < q.size := by decide
  refine ⟨hm, hq, hA, hU, hapart, hev, hevMap, hheads, ?_⟩
  obtain ⟨mem', h, -⟩ := @deviceLoop_one_round 2 hm q hq mem hA hU hapart hev hevMap
    (fun _ => 0x10) hheads 3 (by decide) 1 (by decide)
  simp only [h, Option.map_some']
  decide

/-! ### The loop of the documentation, with `needs_notification` -/

/-- The available ring with its `used_event`, `[avail_ring + 2, avail_ring + 6 + 2 * size)`, lies
apart from the bytes `add_used` writes, the `idx` and the elements of the used ring. -/
def AvailRingApart (availRing usedRing : GuestAddress) (size : Nat) : Prop :=
  availRing.toNat + 6 + 2 * size ≤ usedRing.toNat + 2 ∨
    usedRing.toNat + 4 + 8 * size ≤ availRing.toNat + 2

theorem AvailRingApart.ringsApart {availRing usedRing : GuestAddress} {size : Nat}
    (h : AvailRingApart availRing usedRing size) : RingsApart availRing usedRing size := by
  unfold AvailRingApart at h
  unfold RingsApart
  omega

/-- With one element written since the last call, the window of `needs_notification` holds
`used_event` exactly when it is the position just written. -/
theorem window_one_iff (x e : BitVec 16) : x - e - 1 < x - (x - 1) ↔ e = x - 1 := by
  bv_omega

namespace Queue

/-- `needs_notification` with `EVENT_IDX`, when the load of `used_event`, after the available
ring's elements, passes its checks. -/
theorem needsNotification_of_mapped {q : Queue} {mem : GuestMemoryMmap}
    (he : q.eventIdxEnabled = true) (hov : q.availRing.toNat + 4 + 2 * q.size.toNat < 2 ^ 64)
    (hue : mem.checkAtomic ⟨BitVec.ofNat 64 (q.availRing.toNat + 4 + 2 * q.size.toNat)⟩ 2 =
      .ok ()) :
    q.needsNotification mem =
      some (.ok (decide (q.nextUsed - mem.read16 (q.availRing.toNat + 4 + 2 * q.size.toNat) - 1 <
        q.nextUsed - (q.nextUsed - q.numAdded))), { q with numAdded := 0 }) := by
  have haddr : q.availRing.toNat + (4 + q.size.toNat * 2) =
      q.availRing.toNat + 4 + 2 * q.size.toNat := by omega
  simp only [needsNotification, he, if_true, usedEvent_of_lt (haddr ▸ hov), haddr,
    GuestMemoryMmap.load_eq hue, GuestAddress.toNat_mk, BitVec.toNat_ofNat, Nat.mod_eq_of_lt hov,
    Option.bind_eq_bind, Option.some_bind, Option.pure_def]
  rfl

/-- `needs_notification` with `EVENT_IDX` when one element was written since the last call: it
asks to notify exactly when `used_event` is the position just written. -/
theorem needsNotification_after_one {q : Queue} {mem : GuestMemoryMmap}
    (he : q.eventIdxEnabled = true) (hov : q.availRing.toNat + 4 + 2 * q.size.toNat < 2 ^ 64)
    (hue : mem.checkAtomic ⟨BitVec.ofNat 64 (q.availRing.toNat + 4 + 2 * q.size.toNat)⟩ 2 = .ok ())
    (h1 : q.numAdded = 1) :
    q.needsNotification mem =
      some (.ok (decide (mem.read16 (q.availRing.toNat + 4 + 2 * q.size.toNat) = q.nextUsed - 1)),
        { q with numAdded := 0 }) := by
  simp only [needsNotification_of_mapped he hov hue, h1, window_one_iff]

/-- The inner loop of the example in the documentation of `queue.rs`, for at most `fuel` rounds:
`while let Some(chain) = queue.iter(&m).unwrap().next() { queue.add_used(&m,
chain.head_index(), len).unwrap(); if queue.needs_notification(&m).unwrap() { .. } }`, taking
the chains as `serve` does.  Each head served, with whether `needs_notification` asked to notify
the driver after it was returned, and the queue and guest memory it leaves; `none` when a call
panics or fails, or the fuel runs out first. -/
def serveNotify (q : Queue) (mem : GuestMemoryMmap) (len : BitVec 16 → BitVec 32) :
    Nat → Option (List (BitVec 16 × Bool) × Queue × GuestMemoryMmap)
  | 0 => none
  | fuel + 1 =>
    match q.popDescriptorChain mem with
    | none => none
    | some (none, q₁) => some ([], q₁, mem)
    | some (some head, q₁) =>
      match q₁.addUsed mem head (len head) with
      | some (.ok (), q₂, mem₂) =>
        match q₂.needsNotification mem₂ with
        | some (.ok notify, q₃) =>
          (q₃.serveNotify mem₂ len fuel).map fun r => ((head, notify) :: r.1, r.2)
        | _ => none
      | _ => none

/-- One round that serves a chain. -/
theorem serveNotify_succ {q q₁ q₂ q₃ : Queue} {mem mem₂ : GuestMemoryMmap}
    {len : BitVec 16 → BitVec 32} {head : BitVec 16} {notify : Bool} (fuel : Nat)
    (hpop : q.popDescriptorChain mem = some (some head, q₁))
    (hadd : q₁.addUsed mem head (len head) = some (.ok (), q₂, mem₂))
    (hnotify : q₂.needsNotification mem₂ = some (.ok notify, q₃)) :
    q.serveNotify mem len (fuel + 1) =
      (q₃.serveNotify mem₂ len fuel).map fun r => ((head, notify) :: r.1, r.2) := by
  simp only [serveNotify, hpop, hadd, hnotify]

/-- The run lemma of the loop with `needs_notification`, for a queue with `EVENT_IDX` and
`num_added = 0`.  Under the hypotheses of `serve_eq`, with `used_event` served and, with the
rest of the available ring, apart from what `add_used` writes, the loop given more than `d`
rounds serves the `d` published heads in order, and after head `j` it is told to notify exactly
when `used_event` is `next_used + j`.  It leaves `next_avail = idx`, `next_used` advanced by `d`
and `num_added = 0`. -/
theorem serveNotify_eq {len : BitVec 16 → BitVec 32} (d : Nat) {q : Queue} {mem : GuestMemoryMmap}
    (hs : 0 < q.size.toNat) (hdvd : q.size.toNat ∣ 2 ^ 16)
    (hA : AvailMapped mem q.availRing q.size.toNat) (hU : UsedMapped mem q.usedRing q.size.toNat)
    (hapart : AvailRingApart q.availRing q.usedRing q.size.toNat)
    (hue : mem.checkAtomic ⟨BitVec.ofNat 64 (q.availRing.toNat + 4 + 2 * q.size.toNat)⟩ 2 = .ok ())
    (he : q.eventIdxEnabled = true) (hna : q.numAdded = 0)
    (hd : (mem.read16 (q.availRing.toNat + 2) - q.nextAvail).toNat = d)
    (hheads : ∀ j < d, availEntry mem q.availRing q.size.toNat (q.nextAvail.toNat + j) < q.size)
    {fuel : Nat} (hfuel : d < fuel) :
    ∃ mem', q.serveNotify mem len fuel =
      some ((List.range d).map fun j =>
          (availEntry mem q.availRing q.size.toNat (q.nextAvail.toNat + j),
            decide (mem.read16 (q.availRing.toNat + 4 + 2 * q.size.toNat) =
              q.nextUsed + BitVec.ofNat 16 j)),
        { q with
          nextAvail := mem.read16 (q.availRing.toNat + 2),
          nextUsed := q.nextUsed + BitVec.ofNat 16 d }, mem') := by
  induction d generalizing q mem fuel with
  | zero =>
    obtain ⟨fuel, rfl⟩ : ∃ f, fuel = f + 1 := ⟨fuel - 1, by omega⟩
    have hidx := eq_of_sub_toNat_eq_zero hd
    refine ⟨mem, ?_⟩
    rw [serveNotify, popDescriptorChain_eq hs hA, if_pos hidx, ← hidx]
    simp
  | succ d ih =>
    obtain ⟨fuel, rfl⟩ : ∃ f, fuel = f + 1 := ⟨fuel - 1, by omega⟩
    obtain ⟨hne, hd'⟩ := sub_toNat_succ hd
    obtain ⟨mem₁, hpop, hadd, hw, hidx₁, hentry⟩ :=
      serve_round len hs hdvd hA hU hapart.ringsApart hne (hheads 0 (Nat.succ_pos d))
    have hE : mem₁.read16 (q.availRing.toNat + 4 + 2 * q.size.toNat) =
        mem.read16 (q.availRing.toNat + 4 + 2 * q.size.toNat) :=
      hw.read16_eq hs (by unfold AvailRingApart at hapart; omega)
    have hue₁ := (GuestMemoryMmap.checkAtomic_of_regions hw.regions _ 2).trans hue
    have hnotify := @needsNotification_after_one { q with
      nextAvail := q.nextAvail + 1, nextUsed := q.nextUsed + 1, numAdded := q.numAdded + 1 }
      mem₁ he hA.noOverflow hue₁ (show q.numAdded + 1 = 1 by rw [hna, zero_add])
    simp only [hE, add_sub_cancel_right] at hnotify
    obtain ⟨mem', hserve⟩ := @ih { q with
        nextAvail := q.nextAvail + 1, nextUsed := q.nextUsed + 1, numAdded := 0 }
      mem₁ hs hdvd (hA.of_regions hw.regions) (hU.of_regions hw.regions) hapart hue₁ he rfl
      (by rw [hidx₁]; exact hd') (fun j hj => by rw [hentry]; exact hheads (j + 1) (by omega))
      fuel (by omega)
    have h0 : q.nextUsed + BitVec.ofNat 16 0 = q.nextUsed := BitVec.add_zero _
    refine ⟨mem', ?_⟩
    rw [serveNotify_succ fuel hpop hadd hnotify, hserve]
    simp only [Option.map_some', List.range_succ_eq_map, List.map_cons, List.map_map,
      Function.comp_def, Nat.succ_eq_add_one, Nat.add_zero, hidx₁, hE, hentry, add_ofNat_succ, hna,
      h0]

end Queue

/-- **The device notifies the driver once, at the `used_event` it asked for.**  From any queue
reachable from `Queue::new m`, `m` a power of two, with `EVENT_IDX` negotiated and
`num_added = 0` (as after `needs_notification`), over a guest memory that serves both rings and
the driver's `used_event`, with the available ring and `used_event` apart from the bytes
`add_used` writes, let `d = idx - next_avail` (wrapping) for the `idx` the driver published,
and let every published head be below the size.  The loop of the documentation of `queue.rs`,
which asks `needs_notification` after each `add_used`, given more than `d` rounds, returns
without panicking.  It served the heads at available positions `next_avail, …,
next_avail + d - 1`, in that order, and was told to notify after the `j`-th exactly when
`j = (used_event - next_used) mod 2 ^ 16`: once if the driver's `used_event` is one of the `d`
used positions written, never otherwise.  It left `next_avail = idx`, `next_used` advanced by
`d`, and every other field as it was. -/
theorem notifies_at_usedEvent {m : BitVec 16} (hm : m.toNat.isPowerOfTwo) {q : Queue}
    (hq : Reachable m q) (he : q.eventIdxEnabled = true) (hna : q.numAdded = 0)
    {mem : GuestMemoryMmap} (hA : AvailMapped mem q.availRing q.size.toNat)
    (hU : UsedMapped mem q.usedRing q.size.toNat)
    (hapart : AvailRingApart q.availRing q.usedRing q.size.toNat)
    (hue : mem.checkAtomic ⟨BitVec.ofNat 64 (q.availRing.toNat + 4 + 2 * q.size.toNat)⟩ 2 = .ok ())
    (len : BitVec 16 → BitVec 32)
    (hheads : ∀ j < (mem.read16 (q.availRing.toNat + 2) - q.nextAvail).toNat,
      availEntry mem q.availRing q.size.toNat (q.nextAvail.toNat + j) < q.size)
    {fuel : Nat} (hfuel : (mem.read16 (q.availRing.toNat + 2) - q.nextAvail).toNat < fuel) :
    let idx := mem.read16 (q.availRing.toNat + 2)
    let usedEvent := mem.read16 (q.availRing.toNat + 4 + 2 * q.size.toNat)
    ∃ mem', q.serveNotify mem len fuel =
      some ((List.range (idx - q.nextAvail).toNat).map fun j =>
          (availEntry mem q.availRing q.size.toNat (q.nextAvail.toNat + j),
            decide (j = (usedEvent - q.nextUsed).toNat)),
        { q with nextAvail := idx, nextUsed := q.nextUsed + (idx - q.nextAvail) }, mem') := by
  intro idx usedEvent
  have hw := hq.wf hm
  obtain ⟨mem', hserve⟩ := @Queue.serveNotify_eq len (idx - q.nextAvail).toNat q mem hw.size_pos
    (dvd_two_pow_sixteen hw.size_pow) hA hU hapart hue he hna rfl hheads _ hfuel
  have hflags : ∀ j ∈ List.range (idx - q.nextAvail).toNat,
      decide (usedEvent = q.nextUsed + BitVec.ofNat 16 j) =
        decide (j = (usedEvent - q.nextUsed).toNat) := fun j hj => by
    have := lt_trans (List.mem_range.mp hj) (BitVec.isLt _)
    exact decide_eq_decide.mpr (by bv_omega)
  refine ⟨mem', ?_⟩
  rw [hserve, BitVec.ofNat_toNat, BitVec.setWidth_eq,
    List.map_congr_left fun j hj => congrArg _ (hflags j hj)]

/-- The two-entry queue with `EVENT_IDX`, the heads `1` and `0` published, and `used_event = 1`:
the loop serves `1` and then `0`, and is told to notify only after `0`, the second. -/
theorem notifies_at_usedEvent_two :
    let q : Queue :=
      { Queue.new 2 with availRing := ⟨0x100⟩, usedRing := ⟨0x200⟩, eventIdxEnabled := true }
    let mem : GuestMemoryMmap := ⟨[⟨0, 0x1000⟩],
      fun i => if i = 0x102 then 2 else if i = 0x104 then 1 else if i = 0x108 then 1 else 0⟩
    (2 : BitVec 16).toNat.isPowerOfTwo ∧ Reachable 2 q ∧ q.eventIdxEnabled = true ∧
      q.numAdded = 0 ∧ AvailMapped mem q.availRing q.size.toNat ∧
      UsedMapped mem q.usedRing q.size.toNat ∧ AvailRingApart q.availRing q.usedRing q.size.toNat ∧
      mem.checkAtomic ⟨BitVec.ofNat 64 (q.availRing.toNat + 4 + 2 * q.size.toNat)⟩ 2 = .ok () ∧
      (∀ j < (mem.read16 (q.availRing.toNat + 2) - q.nextAvail).toNat,
        availEntry mem q.availRing q.size.toNat (q.nextAvail.toNat + j) < q.size) ∧
      (q.serveNotify mem (fun _ => 0x10) 3).map (·.1) = some [(1, false), (0, true)] := by
  intro q mem
  have hm : (2 : BitVec 16).toNat.isPowerOfTwo := ⟨1, rfl⟩
  obtain ⟨hq, hA, hU, -⟩ := twoEntryRings_served mem.bytes
  have h₃ : ({ Queue.new 2 with availRing := ⟨0x100⟩, usedRing := ⟨0x200⟩ } : Queue).exec mem
      (.setEventIdx true) = some (.ok .unit, q, mem) := rfl
  have hd : mem.RegionsDisjoint := List.pairwise_singleton _ _
  have hue : mem.checkAtomic ⟨BitVec.ofNat 64 (q.availRing.toNat + 4 + 2 * q.size.toNat)⟩ 2 =
      .ok () :=
    GuestMemoryMmap.checkAtomic_of_region hd (List.mem_singleton_self _) (by decide) (by decide)
      (by decide) (by decide)
  have hapart : AvailRingApart q.availRing q.usedRing q.size.toNat := .inl (by decide)
  have hheads : ∀ j < (mem.read16 (q.availRing.toNat + 2) - q.nextAvail).toNat,
      availEntry mem q.availRing q.size.toNat (q.nextAvail.toNat + j) < q.size := by decide
  refine ⟨hm, .step hq h₃, rfl, rfl, hA, hU, hapart, hue, hheads, ?_⟩
  obtain ⟨mem', h⟩ := @notifies_at_usedEvent 2 hm q (.step hq h₃) rfl rfl mem hA hU hapart hue
    (fun _ => 0x10) hheads 3 (by decide)
  simp only [h, Option.map_some']
  decide

end VirtioQueue
