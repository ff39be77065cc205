import VirtioQueue.Drain

/-!
# Serving the rings

The tests of `queue.rs` (`test_consume_chains_with_notif`, `test_invalid_avail_idx`) run the
device's loop that takes each chain the driver made available and returns it in the used
ring: `while let Some(chain) = q.iter(mem).unwrap().next() { .. q.add_used(mem, head_index,
len).unwrap(); }`.  This is what the queue is for.  Against a guest memory that serves both
rings, with the bytes the cursor reads apart from the bytes `add_used` writes, the loop takes
the `d = idx - next_avail` published entries in order, returns each to the used ring in the
same order, and stops with `next_avail = idx` and both `next_used` and `num_added` advanced by
`d`.  The driver then finds the last `size` of them in the used ring, with their lengths, and
the used ring's `idx` counting them.

## Main definitions

* `RingsApart` — the available ring lies apart from the bytes `add_used` writes.
* `Queue.serve` — the loop, for at most `fuel` rounds.

## Main results

* `Queue.serve_eq` — the run lemma: the calls the loop makes, and what each wrote.
* `serve_relays` — **the loop returns every published chain to the used ring, in order.**
-/

namespace VirtioQueue

/-- The bytes the cursor reads, the `idx` and the entries of the available ring, lie apart from
the bytes `add_used` writes, the `idx` and the elements of the used ring. -/
def RingsApart (availRing usedRing : GuestAddress) (size : Nat) : Prop :=
  availRing.toNat + 4 + 2 * size ≤ usedRing.toNat + 2 ∨
    usedRing.toNat + 4 + 8 * size ≤ availRing.toNat + 2

/-- One call of `add_used` leaves the available ring as it was, when the two rings are apart. -/
theorem AddUsedCall.Writes.availEntry_eq {c : AddUsedCall} {availRing usedRing : GuestAddress}
    {size n : Nat} (hw : c.Writes usedRing size n) (hs : 0 < size)
    (hapart : RingsApart availRing usedRing size) :
    c.mem'.read16 (availRing.toNat + 2) = c.mem.read16 (availRing.toNat + 2) ∧
      ∀ i, availEntry c.mem' availRing size i = availEntry c.mem availRing size i := by
  refine ⟨hw.read16_eq hs (by unfold RingsApart at hapart; omega), fun i => ?_⟩
  have := Nat.mod_lt i hs
  exact hw.read16_eq hs (by unfold RingsApart at hapart; omega)

/-- The heads a run of calls returned, when call `j` returned `f j`. -/
theorem AddUsedCall.map_headIndex {cs : List AddUsedCall} {f : Nat → BitVec 16}
    (h : ∀ j (hj : j < cs.length), cs[j].headIndex = f j) :
    cs.map (·.headIndex) = (List.range cs.length).map f :=
  List.ext_getElem (by rw [List.length_map, List.length_map, List.length_range])
    fun j h1 _ => by
      rw [List.getElem_map, List.getElem_map, List.getElem_range, h j (by simpa using h1)]

namespace Queue

/-- The device's loop `while let Some(chain) = q.pop_descriptor_chain(mem) {
q.add_used(mem, chain.head_index(), len).unwrap() }` for at most `fuel` rounds, `len head`
being the number of bytes the device wrote into the chain at `head`: the heads it served, and
the queue and guest memory it leaves; `none` when a call panics or fails, or the fuel runs out
first. -/
def serve (q : Queue) (mem : GuestMemoryMmap) (len : BitVec 16 → BitVec 32) :
    Nat → Option (List (BitVec 16) × Queue × GuestMemoryMmap)
  | 0 => none
  | fuel + 1 =>
    match q.popDescriptorChain mem with
    | none => none
    | some (none, q₁) => some ([], q₁, mem)
    | some (some head, q₁) =>
      match q₁.addUsed mem head (len head) with
      | some (.ok (), q₂, mem₂) => (q₂.serve mem₂ len fuel).map fun r => (head :: r.1, r.2)
      | _ => none

/-- One round that serves a chain. -/
theorem serve_succ {q q₁ q₂ : Queue} {mem mem₂ : GuestMemoryMmap} {len : BitVec 16 → BitVec 32}
    {head : BitVec 16} (fuel : Nat) (hpop : q.popDescriptorChain mem = some (some head, q₁))
    (hadd : q₁.addUsed mem head (len head) = some (.ok (), q₂, mem₂)) :
    q.serve mem len (fuel + 1) = (q₂.serve mem₂ len fuel).map fun r => (head :: r.1, r.2) := by
  simp only [serve, hpop, hadd]

/-- One round that serves a chain.  Over a memory that serves both rings, apart, with an entry
published at `next_avail` whose head is below the size, the cursor takes that entry and
`add_used` returns it to the used ring as the completion `next_used`; the available ring reads
the same in the memory `add_used` leaves. -/
theorem serve_round (len : BitVec 16 → BitVec 32) {q : Queue} {mem : GuestMemoryMmap}
    (hs : 0 < q.size.toNat) (hdvd : q.size.toNat ∣ 2 ^ 16)
    (hA : AvailMapped mem q.availRing q.size.toNat) (hU : UsedMapped mem q.usedRing q.size.toNat)
    (hapart : RingsApart q.availRing q.usedRing q.size.toNat)
    (hne : q.nextAvail ≠ mem.read16 (q.availRing.toNat + 2))
    (hhead : availEntry mem q.availRing q.size.toNat q.nextAvail.toNat < q.size) :
    let head := availEntry mem q.availRing q.size.toNat q.nextAvail.toNat
    ∃ mem₁, q.popDescriptorChain mem = some (some head, { q with nextAvail := q.nextAvail + 1 }) ∧
      ({ q with nextAvail := q.nextAvail + 1 } : Queue).addUsed mem head (len head) =
        some (.ok (), { q with
          nextAvail := q.nextAvail + 1, nextUsed := q.nextUsed + 1,
          numAdded := q.numAdded + 1 }, mem₁) ∧
      AddUsedCall.Writes ⟨mem, head, len head, mem₁⟩ q.usedRing q.size.toNat q.nextUsed.toNat ∧
      mem₁.read16 (q.availRing.toNat + 2) = mem.read16 (q.availRing.toNat + 2) ∧
      ∀ j, availEntry mem₁ q.availRing q.size.toNat ((q.nextAvail + 1).toNat + j) =
        availEntry mem q.availRing q.size.toNat (q.nextAvail.toNat + (j + 1)) := by
  intro head
  have hpop := popDescriptorChain_eq hs hA
  rw [if_neg hne] at hpop
  obtain ⟨mem₁, hadd⟩ := @addUsed_of_mapped { q with nextAvail := q.nextAvail + 1 } mem _ hhead hU
    (len head)
  have hw := (addUsed_eq_ok hadd).1
  obtain ⟨hidx₁, hentry₁⟩ := hw.availEntry_eq hs hapart
  refine ⟨mem₁, hpop, hadd, hw, hidx₁, fun j => ?_⟩
  rw [hentry₁]
  exact availEntry_congr hdvd (by have := toNat_add_one_u16 q.nextAvail; omega)

/-- The run lemma of the loop.  With a size dividing `2 ^ 16`, both rings served and apart,
`d = idx - next_avail`, and every published head below the size, the loop given more than `d`
rounds makes `d` calls of `add_used`, each against the memory the one before left: call `j`
returns the entry at available position `next_avail + j`, with its length, and writes as the
completion `next_used + j`.  It leaves `next_avail = idx`, and `next_used` and `num_added`
advanced by `d`. -/
theorem serve_eq {len : BitVec 16 → BitVec 32} (d : Nat) {q : Queue} {mem : GuestMemoryMmap}
    (hs : 0 < q.size.toNat) (hdvd : q.size.toNat ∣ 2 ^ 16)
    (hA : AvailMapped mem q.availRing q.size.toNat) (hU : UsedMapped mem q.usedRing q.size.toNat)
    (hapart : RingsApart q.availRing q.usedRing q.size.toNat)
    (hd : (mem.read16 (q.availRing.toNat + 2) - q.nextAvail).toNat = d)
    (hheads : ∀ j < d, availEntry mem q.availRing q.size.toNat (q.nextAvail.toNat + j) < q.size)
    {fuel : Nat} (hfuel : d < fuel) :
    ∃ (cs : List AddUsedCall) (mem' : GuestMemoryMmap),
      q.serve mem len fuel = some (cs.map (·.headIndex),
        { q with
          nextAvail := mem.read16 (q.availRing.toNat + 2),
          nextUsed := q.nextUsed + BitVec.ofNat 16 d,
          numAdded := q.numAdded + BitVec.ofNat 16 d }, mem') ∧
      AddUsedCall.Chain mem cs mem' ∧ cs.length = d ∧
      ∀ j (hj : j < cs.length),
        cs[j].headIndex = availEntry mem q.availRing q.size.toNat (q.nextAvail.toNat + j) ∧
        cs[j].len = len cs[j].headIndex ∧
        cs[j].Writes q.usedRing q.size.toNat (q.nextUsed.toNat + j) := by
  induction d generalizing q mem fuel with
  | zero =>
    obtain ⟨fuel, rfl⟩ : ∃ f, fuel = f + 1 := ⟨fuel - 1, by omega⟩
    have hidx := eq_of_sub_toNat_eq_zero hd
    refine ⟨[], mem, ?_, rfl, rfl, fun j hj => absurd hj (Nat.not_lt_zero _)⟩
    rw [serve, popDescriptorChain_eq hs hA, if_pos hidx, ← hidx]
    simp
  | succ d ih =>
    obtain ⟨fuel, rfl⟩ : ∃ f, fuel = f + 1 := ⟨fuel - 1, by omega⟩
    obtain ⟨hne, hd'⟩ := sub_toNat_succ hd
    obtain ⟨mem₁, hpop, hadd, hw, hidx₁, hentry⟩ :=
      serve_round len hs hdvd hA hU hapart hne (hheads 0 (Nat.succ_pos d))
    obtain ⟨cs, mem', hserve, hchain, hlen, hcs⟩ :=
      @ih { q with
        nextAvail := q.nextAvail + 1, nextUsed := q.nextUsed + 1, numAdded := q.numAdded + 1 }
        mem₁ hs hdvd (hA.of_regions hw.regions) (hU.of_regions hw.regions) hapart
        (by rw [hidx₁]; exact hd') (fun j hj => by rw [hentry]; exact hheads (j + 1) (by omega))
        fuel (by omega)
    refine ⟨⟨mem, availEntry mem q.availRing q.size.toNat q.nextAvail.toNat,
      len (availEntry mem q.availRing q.size.toNat q.nextAvail.toNat), mem₁⟩ :: cs,
      mem', ?_, ⟨rfl, hchain⟩, by rw [List.length_cons, hlen], fun j hj => ?_⟩
    · rw [serve_succ fuel hpop hadd, hserve]
      simp only [Option.map_some', List.map_cons, hidx₁, add_ofNat_succ]
    · cases j with
      | zero => exact ⟨rfl, rfl, hw⟩
      | succ j =>
        obtain ⟨h1, h2, h3⟩ := hcs j (Nat.lt_of_succ_lt_succ hj)
        exact ⟨h1.trans (hentry j), h2,
          (AddUsedCall.writes_congr hdvd (by rw [toNat_add_one_u16]; omega)).mp h3⟩

end Queue

/-- **The device returns every published chain to the used ring, in order.**  From any queue
reachable from `Queue::new m`, `m` a power of two, over a guest memory that serves both rings,
with the available ring apart from the bytes `add_used` writes, let `d = idx - next_avail`
(wrapping) for the `idx` the driver published, and let every published head be below the
size.  The loop given more than `d` rounds returns without panicking.  It served the heads at
available positions `next_avail, …, next_avail + d - 1`, in that order, and left
`next_avail = idx`, both `next_used` and `num_added` advanced by `d`, and every other field as
it was.  In the memory it leaves, the driver decodes at used position `next_used + j` the
`j`-th head with its length, for each of the last `size` heads; and once a head was served,
the used ring's `idx` reads `next_used + d`. -/
theorem serve_relays {m : BitVec 16} (hm : m.toNat.isPowerOfTwo) {q : Queue}
    (hq : Reachable m q) {mem : GuestMemoryMmap} (hA : AvailMapped mem q.availRing q.size.toNat)
    (hU : UsedMapped mem q.usedRing q.size.toNat)
    (hapart : RingsApart q.availRing q.usedRing q.size.toNat) (len : BitVec 16 → BitVec 32)
    (hheads : ∀ j < (mem.read16 (q.availRing.toNat + 2) - q.nextAvail).toNat,
      availEntry mem q.availRing q.size.toNat (q.nextAvail.toNat + j) < q.size)
    {fuel : Nat} (hfuel : (mem.read16 (q.availRing.toNat + 2) - q.nextAvail).toNat < fuel) :
    ∃ mem', q.serve mem len fuel =
        some ((List.range (mem.read16 (q.availRing.toNat + 2) - q.nextAvail).toNat).map fun j =>
            availEntry mem q.availRing q.size.toNat (q.nextAvail.toNat + j),
          { q with
            nextAvail := mem.read16 (q.availRing.toNat + 2),
            nextUsed := q.nextUsed + (mem.read16 (q.availRing.toNat + 2) - q.nextAvail),
            numAdded := q.numAdded + (mem.read16 (q.availRing.toNat + 2) - q.nextAvail) }, mem') ∧
      (∀ j < (mem.read16 (q.availRing.toNat + 2) - q.nextAvail).toNat,
        (mem.read16 (q.availRing.toNat + 2) - q.nextAvail).toNat ≤ j + q.size.toNat →
        readUsedElem mem' q.usedRing q.size.toNat (q.nextUsed.toNat + j) =
          VirtqUsedElem.new
            ((availEntry mem q.availRing q.size.toNat (q.nextAvail.toNat + j)).setWidth 32)
            (len (availEntry mem q.availRing q.size.toNat (q.nextAvail.toNat + j)))) ∧
      (q.nextAvail ≠ mem.read16 (q.availRing.toNat + 2) →
        mem'.read16 (q.usedRing.toNat + 2) =
          q.nextUsed + (mem.read16 (q.availRing.toNat + 2) - q.nextAvail)) := by
  have hw := hq.wf hm
  obtain ⟨cs, mem', hserve, hchain, hlen, hcs⟩ := @Queue.serve_eq len _ q mem hw.size_pos
    (dvd_two_pow_sixteen hw.size_pow) hA hU hapart rfl hheads _ hfuel
  have hws (j : Nat) (hj : j < cs.length) := (hcs j hj).2.2
  refine ⟨mem', ?_, fun j hj hlast => ?_, fun hne => ?_⟩
  · rw [hserve, AddUsedCall.map_headIndex fun j hj => (hcs j hj).1, hlen, BitVec.ofNat_toNat,
      BitVec.setWidth_eq]
  · obtain ⟨h1, h2, -⟩ := hcs j (hlen ▸ hj)
    rw [readUsedElem, hchain.readBytes hws j (hlen ▸ hj) (hlen ▸ hlast),
      VirtqUsedElem.ofBytes_toBytes, h2, h1]
  · have hne' : cs ≠ [] := fun h => hne (by
      rw [h, List.length_nil] at hlen
      exact eq_of_sub_toNat_eq_zero hlen.symm)
    rw [hchain.read16_idx hws hne', hlen]
    apply BitVec.eq_of_toNat_eq
    simp only [BitVec.toNat_ofNat, BitVec.toNat_add]

/-- The queue of the examples, two entries with the available ring at `0x100` and the used ring
at `0x200`, is reachable, and a guest memory of the one region `[0, 0x1000)` serves both of its
rings, which lie apart. -/
theorem twoEntryRings_served (bytes : Nat → BitVec 8) :
    let q : Queue := { Queue.new 2 with availRing := ⟨0x100⟩, usedRing := ⟨0x200⟩ }
    let mem : GuestMemoryMmap := ⟨[⟨0, 0x1000⟩], bytes⟩
    Reachable 2 q ∧ AvailMapped mem q.availRing q.size.toNat ∧
      UsedMapped mem q.usedRing q.size.toNat ∧ RingsApart q.availRing q.usedRing q.size.toNat := by
  intro q mem
  have h₁ : (Queue.new 2).exec mem (.setAvailRingAddress (some 0x100) none) =
      some (.ok .unit, { Queue.new 2 with availRing := ⟨0x100⟩ }, mem) := rfl
  have h₂ : ({ Queue.new 2 with availRing := ⟨0x100⟩ } : Queue).exec mem
      (.setUsedRingAddress (some 0x200) none) = some (.ok .unit, q, mem) := rfl
  have hd : mem.RegionsDisjoint := List.pairwise_singleton _ _
  exact ⟨.step (.step .new h₁) h₂,
    .of_region hd (List.mem_singleton_self _) (by decide) (by decide) (by decide) (by decide),
    .of_region hd (List.mem_singleton_self _) (by decide) (by decide) (by decide) (by decide),
    .inl (by decide)⟩

/-- A two-entry queue, available ring at `0x100` and used ring at `0x200`, with the heads `1`
and `0` published: the loop serves `1` and then `0`. -/
theorem serve_relays_two :
    let q : Queue := { Queue.new 2 with availRing := ⟨0x100⟩, usedRing := ⟨0x200⟩ }
    let mem : GuestMemoryMmap :=
      ⟨[⟨0, 0x1000⟩], fun i => if i = 0x102 then 2 else if i = 0x104 then 1 else 0⟩
    (2 : BitVec 16).toNat.isPowerOfTwo ∧ Reachable 2 q ∧
      AvailMapped mem q.availRing q.size.toNat ∧ UsedMapped mem q.usedRing q.size.toNat ∧
      RingsApart q.availRing q.usedRing q.size.toNat ∧
      (∀ j < (mem.read16 (q.availRing.toNat + 2) - q.nextAvail).toNat,
        availEntry mem q.availRing q.size.toNat (q.nextAvail.toNat + j) < q.size) ∧
      (q.serve mem (fun _ => 0x10) 3).map (·.1) = some [1, 0] := by
  intro q mem
  have hm : (2 : BitVec 16).toNat.isPowerOfTwo := ⟨1, rfl⟩
  obtain ⟨hq, hA, hU, hapart⟩ := twoEntryRings_served mem.bytes
  have hheads : ∀ j < (mem.read16 (q.availRing.toNat + 2) - q.nextAvail).toNat,
      availEntry mem q.availRing q.size.toNat (q.nextAvail.toNat + j) < q.size := by decide
  refine ⟨hm, hq, hA, hU, hapart, hheads, ?_⟩
  obtain ⟨mem', h, -⟩ := @serve_relays 2 hm q hq mem hA hU hapart (fun _ => 0x10) hheads 3
    (by decide)
  simp only [h, Option.map_some']
  decide

end VirtioQueue
