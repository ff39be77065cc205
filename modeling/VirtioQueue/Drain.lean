import VirtioQueue.Validity

/-!
# Draining the available ring

The device consumes the available ring in a loop of `pop_descriptor_chain` (the tests of
`queue.rs` write it `while let Some(chain) = q.iter(mem).unwrap().next()`, the same call).
Against a guest memory that serves the cursor's loads and that the driver leaves alone
meanwhile, the loop takes the entries from `next_avail` up to the `idx` the driver
published, in ring order and through the wrap of `next_avail`, and stops with
`next_avail = idx`.

The number of entries is the wrapping difference `idx - next_avail`.  The cursor stops only on
equality, so a driver that moves `idx` back by `k` (which the virtio specification forbids)
does not make the loop stop: it takes `2 ^ 16 - k` entries, the whole ring over and over,
until `next_avail` comes round to `idx`.

## Main definitions

* `Queue.drain` — the device's loop, for at most `fuel` rounds.

## Main results

* `Queue.popDescriptorChain_eq` — one call of `pop_descriptor_chain`.
* `Queue.drain_eq` — the loop, for a size dividing `2 ^ 16`.
* `drain_takes_published` — **the loop from a reachable queue takes exactly the published
  entries, in order, and stops at `idx`.**
* `drain_length_of_decrement` — moving `idx` back by `k` makes it take `2 ^ 16 - k` entries.
-/

namespace VirtioQueue

namespace Queue

/-- The device's loop `while let Some(chain) = q.pop_descriptor_chain(mem) { .. }` for at most
`fuel` rounds: the head indices it took and the queue it leaves; `none` when a call panics or
the fuel runs out first. -/
def drain (q : Queue) (mem : GuestMemoryMmap) : Nat → Option (List (BitVec 16) × Queue)
  | 0 => none
  | fuel + 1 =>
    match q.popDescriptorChain mem with
    | none => none
    | some (none, q') => some ([], q')
    | some (some head, q') => (q'.drain mem fuel).map fun r => (head :: r.1, r.2)

/-- `iter` over a memory that serves the cursor: a cursor up to the `idx` in memory. -/
theorem iter_of_mapped {q : Queue} {mem : GuestMemoryMmap}
    (hmap : AvailMapped mem q.availRing q.size.toNat) :
    q.iter mem = .ok (AvailIter.new (mem.read16 (q.availRing.toNat + 2)) q) := by
  have h2 : q.availRing.toNat + 2 < 2 ^ 64 := by have := hmap.noOverflow; omega
  simp only [iter, availIdx_of_lt h2, GuestMemoryMmap.load_eq hmap.idx, GuestAddress.toNat_mk,
    BitVec.toNat_ofNat, Nat.mod_eq_of_lt h2]
  rfl

/-- One call of `pop_descriptor_chain` over a memory that serves the cursor. -/
theorem popDescriptorChain_eq {q : Queue} {mem : GuestMemoryMmap} (hs : 0 < q.size.toNat)
    (hmap : AvailMapped mem q.availRing q.size.toNat) :
    q.popDescriptorChain mem =
      if q.nextAvail = mem.read16 (q.availRing.toNat + 2) then some (none, q)
      else some (some (availEntry mem q.availRing q.size.toNat q.nextAvail.toNat),
        { q with nextAvail := q.nextAvail + 1 }) := by
  simp only [popDescriptorChain, iter_of_mapped hmap, AvailIter.next_of_mapped _ hs hmap]

/-- For a size dividing `2 ^ 16`, the wrapped `u16` position may stand for the unbounded one. -/
theorem availEntry_congr {mem : GuestMemoryMmap} {availRing : GuestAddress} {size i i' : Nat}
    (hs : size ∣ 2 ^ 16) (h : i % 2 ^ 16 = i' % 2 ^ 16) :
    availEntry mem availRing size i = availEntry mem availRing size i' := by
  rw [availEntry, availEntry, ← Nat.mod_mod_of_dvd i hs, h, Nat.mod_mod_of_dvd i' hs]

/-- The run lemma: with a size dividing `2 ^ 16` and `d = idx - next_avail`, the loop given
more than `d` rounds takes the entries at `next_avail, …, next_avail + d - 1` and leaves
`next_avail = idx`. -/
theorem drain_eq {mem : GuestMemoryMmap} (d : Nat) {q : Queue} (hs : 0 < q.size.toNat)
    (hdvd : q.size.toNat ∣ 2 ^ 16) (hmap : AvailMapped mem q.availRing q.size.toNat)
    (hd : (mem.read16 (q.availRing.toNat + 2) - q.nextAvail).toNat = d) {fuel : Nat}
    (hfuel : d < fuel) :
    q.drain mem fuel = some ((List.range d).map fun j =>
        availEntry mem q.availRing q.size.toNat (q.nextAvail.toNat + j),
      { q with nextAvail := mem.read16 (q.availRing.toNat + 2) }) := by
  induction d generalizing q fuel with
  | zero =>
    obtain ⟨fuel, rfl⟩ : ∃ f, fuel = f + 1 := ⟨fuel - 1, by omega⟩
    have hidx := eq_of_sub_toNat_eq_zero hd
    rw [drain, popDescriptorChain_eq hs hmap, if_pos hidx, ← hidx]
    rfl
  | succ d ih =>
    obtain ⟨fuel, rfl⟩ : ∃ f, fuel = f + 1 := ⟨fuel - 1, by omega⟩
    obtain ⟨hne, hd'⟩ := sub_toNat_succ hd
    have hsucc := toNat_add_one_u16 q.nextAvail
    have hentry (j : Nat) : availEntry mem q.availRing q.size.toNat ((q.nextAvail + 1).toNat + j) =
        availEntry mem q.availRing q.size.toNat (q.nextAvail.toNat + (j + 1)) :=
      availEntry_congr hdvd (by omega)
    rw [drain, popDescriptorChain_eq hs hmap, if_neg hne]
    dsimp only
    rw [@ih { q with nextAvail := q.nextAvail + 1 } hs hdvd hmap hd' fuel (by omega)]
    simp only [Option.map_some', List.range_succ_eq_map, List.map_cons, List.map_map,
      Function.comp_def, hentry, Nat.add_zero]

end Queue

/-- **The drain loop takes exactly what the driver published.**  From any queue reachable
from `Queue::new m`, `m` a power of two, over a guest memory that serves the cursor's loads,
let `d = idx - next_avail` (wrapping) for the `idx` in memory.  The loop given more than `d`
rounds returns without panicking: it has taken the entries at positions
`next_avail, next_avail + 1, …, next_avail + d - 1`, slot `position mod size` each, in that
order, and it leaves the queue as it was but with `next_avail = idx`. -/
theorem drain_takes_published {m : BitVec 16} (hm : m.toNat.isPowerOfTwo) {q : Queue}
    (hq : Reachable m q) {mem : GuestMemoryMmap} (hmap : AvailMapped mem q.availRing q.size.toNat)
    {fuel : Nat} (hfuel : (mem.read16 (q.availRing.toNat + 2) - q.nextAvail).toNat < fuel) :
    q.drain mem fuel =
      some ((List.range (mem.read16 (q.availRing.toNat + 2) - q.nextAvail).toNat).map fun j =>
          availEntry mem q.availRing q.size.toNat (q.nextAvail.toNat + j),
        { q with nextAvail := mem.read16 (q.availRing.toNat + 2) }) := by
  have hw := hq.wf hm
  exact Queue.drain_eq _ hw.size_pos (dvd_two_pow_sixteen hw.size_pow) hmap rfl hfuel

/-- A driver that moves `idx` back by `k` does not stop the loop: from a reachable queue, it
takes `2 ^ 16 - k` entries before `next_avail` comes round to `idx`. -/
theorem drain_length_of_decrement {m : BitVec 16} (hm : m.toNat.isPowerOfTwo) {q : Queue}
    (hq : Reachable m q) {mem : GuestMemoryMmap} (hmap : AvailMapped mem q.availRing q.size.toNat)
    {k : Nat} (hk : 0 < k) (hk16 : k < 2 ^ 16)
    (hidx : mem.read16 (q.availRing.toNat + 2) = q.nextAvail - BitVec.ofNat 16 k) :
    (q.drain mem (2 ^ 16)).map (·.1.length) = some (2 ^ 16 - k) := by
  have hw := hq.wf hm
  have hd : (mem.read16 (q.availRing.toNat + 2) - q.nextAvail).toNat = 2 ^ 16 - k := by
    have := q.nextAvail.isLt
    rw [hidx, BitVec.toNat_sub, BitVec.toNat_sub, BitVec.toNat_ofNat]
    omega
  rw [Queue.drain_eq _ hw.size_pos (dvd_two_pow_sixteen hw.size_pow) hmap hd (by omega)]
  simp

/-- A fresh two-entry queue, available ring at `0`, with `idx = 2` and entries `5, 7`: the
loop takes `5` and then `7`.  Moved back by one, to `idx = 0xffff`, the same ring makes the loop
take `2 ^ 16 - 1` entries. -/
theorem drain_takes_published_two :
    let mem : GuestMemoryMmap :=
      ⟨[⟨0, 0x100⟩], fun i => if i = 2 then 2 else if i = 4 then 5 else if i = 6 then 7 else 0⟩
    let mem' : GuestMemoryMmap := ⟨[⟨0, 0x100⟩], fun i => if i = 2 ∨ i = 3 then 0xff else 0⟩
    (2 : BitVec 16).toNat.isPowerOfTwo ∧ Reachable 2 (Queue.new 2) ∧
      AvailMapped mem (Queue.new 2).availRing (Queue.new 2).size.toNat ∧
      ((Queue.new 2).drain mem 3).map Prod.fst = some [5, 7] ∧
      ((Queue.new 2).drain mem' (2 ^ 16)).map (·.1.length) = some (2 ^ 16 - 1) := by
  intro mem mem'
  have hm : (2 : BitVec 16).toNat.isPowerOfTwo := ⟨1, rfl⟩
  have hd : ∀ bytes : Nat → BitVec 8, GuestMemoryMmap.RegionsDisjoint ⟨[⟨0, 0x100⟩], bytes⟩ :=
    fun _ => List.pairwise_singleton _ _
  have hmap : ∀ bytes : Nat → BitVec 8, AvailMapped ⟨[⟨0, 0x100⟩], bytes⟩
      (Queue.new 2).availRing (Queue.new 2).size.toNat := fun bytes =>
    .of_region (hd bytes) (List.mem_singleton_self _) (by decide) (by decide) (by decide)
      (by decide)
  refine ⟨hm, .new, hmap _, ?_,
    drain_length_of_decrement hm .new (hmap _) (by decide : 0 < 1) (by decide) (by decide)⟩
  rw [drain_takes_published hm .new (hmap _) (by decide)]
  decide

end VirtioQueue
