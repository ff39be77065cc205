import VirtioQueue.Ops

/-!
# Runs of `add_used`

`add_used` writes the element for `next_used` into slot `next_used % size` of the used ring,
then publishes `next_used + 1` in the ring's `idx`.  `next_used` is a wrapping `u16`, so the
`j`-th call of a long run writes slot `(n₀ + j) mod 2 ^ 16 mod size`, while the driver, which
only sees `idx`, looks for the element at `(n₀ + j) mod size`.  The two agree because every
reachable queue has a power-of-two size below `2 ^ 16` (`Wf`), which divides `2 ^ 16`.

## Main definitions

* `Queue.addUsedAt` — `add_used` past its two address computations.
* `AddUsedCall.Writes` — what one call of a run writes, at the unbounded index `n`.
* `AddUsedRun` — a run of consecutive successful `add_used` calls.
* `readUsedElem` — the element a driver decodes from a used-ring slot.
* `AddUsedCall.Chain` — the calls of a run, each made against the memory the previous left.
* `UsedMapped` — a guest memory that serves every access of `add_used`.

## Main results

* `Queue.addUsed_eq_addUsedAt` — below the size and without overflow, `add_used` writes the
  element at `used_ring + 4 + 8 * (next_used % size)` and `idx` at `used_ring + 2`.
* `Queue.addUsed_eq_ok` — what a successful `add_used` did.
* `UsedMapped.of_region` — a used ring inside one region of a memory is served.
* `Queue.addUsed_of_mapped` — `add_used` of a head below the size succeeds over such a memory.
* `AddUsedRun.of_mapped` — over such a memory, a run of any heads below the size goes through.
* `addUsed_run_slots` — **the slot and the index every call of a run writes.**
* `usedRing_readBack` — **the driver decodes the last `size` completions of a run, in order,
  and finds their count in `idx`; nothing outside the used ring changed.**
-/

namespace VirtioQueue

namespace Queue

/-- `add_used` once its two addresses are known: write the element at `elemAddr`, advance
both counters, then store the new `next_used` at `idxAddr`. -/
def addUsedAt (q : Queue) (mem : GuestMemoryMmap) (headIndex : BitVec 16) (len : BitVec 32)
    (elemAddr idxAddr : GuestAddress) : Except Error Unit × Queue × GuestMemoryMmap :=
  match mem.writeObj (VirtqUsedElem.new (headIndex.setWidth 32) len).toBytes elemAddr with
  | (.error e, mem) => (.error (.guestMemory e), q, mem)
  | (.ok (), mem) =>
    let q := { q with nextUsed := q.nextUsed + 1, numAdded := q.numAdded + 1 }
    let r := mem.store q.nextUsed idxAddr
    (r.1.mapError .guestMemory, q, r.2)

theorem addUsedAtOffset_eq {q : Queue} {offset : BitVec 64} {e i : GuestAddress}
    (he : q.usedRing.checkedAdd offset = some e) (hi : q.usedRing.checkedAdd 2 = some i)
    (mem : GuestMemoryMmap) (headIndex : BitVec 16) (len : BitVec 32) :
    q.addUsedAtOffset mem headIndex len offset = q.addUsedAt mem headIndex len e i := by
  simp only [addUsedAtOffset, addUsedAt, he]
  split <;> simp only [*]

/-- Below the size, and when the element's slot does not overflow, `add_used` writes the
element at `used_ring + 4 + 8 * (next_used % size)` and the new `idx` at `used_ring + 2`. -/
theorem addUsed_eq_addUsedAt {q : Queue} {headIndex : BitVec 16} (hh : headIndex < q.size)
    (hU : q.usedRing.toNat + 4 + 8 * (q.nextUsed.toNat % q.size.toNat) < 2 ^ 64)
    (mem : GuestMemoryMmap) (len : BitVec 32) :
    q.addUsed mem headIndex len = some (q.addUsedAt mem headIndex len
      ⟨BitVec.ofNat 64 (q.usedRing.toNat + 4 + 8 * (q.nextUsed.toNat % q.size.toNat))⟩
      ⟨BitVec.ofNat 64 (q.usedRing.toNat + 2)⟩) := by
  have he : q.usedRing.checkedAdd (BitVec.ofNat 64 (4 + q.nextUsed.toNat % q.size.toNat * 8)) =
      some ⟨BitVec.ofNat 64 (q.usedRing.toNat + 4 + 8 * (q.nextUsed.toNat % q.size.toNat))⟩ :=
    GuestAddress.checkedAdd_ofNat (by omega) (by omega)
  have hi : q.usedRing.checkedAdd 2 = some ⟨BitVec.ofNat 64 (q.usedRing.toNat + 2)⟩ :=
    @GuestAddress.checkedAdd_ofNat _ 2 _ (by omega) rfl
  rw [addUsed_of_lt hh, addUsedAtOffset_eq he hi]

/-- What `addUsedAt` did when it returned `Ok`. -/
theorem addUsedAt_eq_ok {q q' : Queue} {mem mem' : GuestMemoryMmap} {headIndex : BitVec 16}
    {len : BitVec 32} {e i : GuestAddress}
    (hr : q.addUsedAt mem headIndex len e i = (.ok (), q', mem')) :
    let w := mem.writeObj (VirtqUsedElem.new (headIndex.setWidth 32) len).toBytes e
    w.1 = .ok () ∧ q' = { q with nextUsed := q.nextUsed + 1, numAdded := q.numAdded + 1 } ∧
      mem' = w.2.write16 i.toNat (q.nextUsed + 1) := by
  unfold addUsedAt at hr
  split at hr
  · cases hr
  · next mem₁ hw =>
    simp only [GuestMemoryMmap.store] at hr
    split at hr
    · cases hr
    · cases hr
      exact ⟨congrArg Prod.fst hw, rfl, by rw [hw]⟩

/-- `addUsedAt` returns `Ok` when the element is written in full and the `idx` store passes
its checks. -/
theorem addUsedAt_of_ok {q : Queue} {mem : GuestMemoryMmap} {headIndex : BitVec 16}
    {len : BitVec 32} {e i : GuestAddress}
    (hw : (mem.writeObj (VirtqUsedElem.new (headIndex.setWidth 32) len).toBytes e).1 = .ok ())
    (hi : mem.checkAtomic i 2 = .ok ()) :
    q.addUsedAt mem headIndex len e i =
      (.ok (), { q with nextUsed := q.nextUsed + 1, numAdded := q.numAdded + 1 },
        (mem.writeObj (VirtqUsedElem.new (headIndex.setWidth 32) len).toBytes e).2.write16 i.toNat
          (q.nextUsed + 1)) := by
  have hreg := GuestMemoryMmap.regions_writeObj mem
    (VirtqUsedElem.new (headIndex.setWidth 32) len).toBytes e
  unfold addUsedAt
  generalize mem.writeObj (VirtqUsedElem.new (headIndex.setWidth 32) len).toBytes e = w at hw hreg ⊢
  obtain ⟨r, mem₁⟩ := w
  cases hw
  simp only [GuestMemoryMmap.store_eq ((GuestMemoryMmap.checkAtomic_of_regions hreg i 2).trans hi)]
  rfl

end Queue

/-! ### One call of a run -/

/-- One call of a run of `add_used`: the guest memory it is made against, its arguments, and
the memory it leaves. -/
structure AddUsedCall where
  /-- The guest memory the call is made against. -/
  mem : GuestMemoryMmap
  /-- The head index of the completed chain. -/
  headIndex : BitVec 16
  /-- The number of bytes written into the chain. -/
  len : BitVec 32
  /-- The guest memory the call leaves. -/
  mem' : GuestMemoryMmap

/-- The call, counted as the `n`-th completion over unbounded integers, wrote its whole
element `(head_index, len)` at `used_ring + 4 + 8 * (n mod size)`, without overflow, and then
`n + 1` (as a wrapping `u16`, little-endian) at `used_ring + 2`, and nothing else. -/
def AddUsedCall.Writes (c : AddUsedCall) (usedRing : GuestAddress) (size n : Nat) : Prop :=
  let elemAddr := usedRing.toNat + 4 + 8 * (n % size)
  let w := c.mem.writeObj (VirtqUsedElem.new (c.headIndex.setWidth 32) c.len).toBytes
    ⟨BitVec.ofNat 64 elemAddr⟩
  elemAddr < 2 ^ 64 ∧ w.1 = .ok () ∧
    c.mem' = w.2.write16 (usedRing.toNat + 2) (BitVec.ofNat 16 (n + 1))

/-- For a size dividing `2 ^ 16`, two indices equal modulo `2 ^ 16` write the same slot and
the same `idx`: the wrapped `u16` index may stand for the unbounded one. -/
theorem AddUsedCall.writes_congr {c : AddUsedCall} {usedRing : GuestAddress} {size n n' : Nat}
    (hs : size ∣ 2 ^ 16) (h : n % 2 ^ 16 = n' % 2 ^ 16) :
    c.Writes usedRing size n ↔ c.Writes usedRing size n' := by
  have hslot : n % size = n' % size := by
    rw [← Nat.mod_mod_of_dvd n hs, h, Nat.mod_mod_of_dvd n' hs]
  have hidx : BitVec.ofNat 16 (n + 1) = BitVec.ofNat 16 (n' + 1) := by
    apply BitVec.eq_of_toNat_eq
    simp only [BitVec.toNat_ofNat]
    omega
  simp only [AddUsedCall.Writes, hslot, hidx]

namespace Queue

/-- **What a successful `add_used` did**: its element went, in full, to slot
`next_used % size`, both counters advanced, and the new `next_used` went to `idx`. -/
theorem addUsed_eq_ok {q q' : Queue} {mem mem' : GuestMemoryMmap} {headIndex : BitVec 16}
    {len : BitVec 32} (hr : q.addUsed mem headIndex len = some (.ok (), q', mem')) :
    AddUsedCall.Writes ⟨mem, headIndex, len, mem'⟩ q.usedRing q.size.toNat q.nextUsed.toNat ∧
      q' = { q with nextUsed := q.nextUsed + 1, numAdded := q.numAdded + 1 } := by
  have hh : headIndex < q.size := by
    refine BitVec.not_le.mp fun hle => ?_
    rw [addUsed_of_le hle] at hr
    cases hr
  have hU : q.usedRing.toNat + 4 + 8 * (q.nextUsed.toNat % q.size.toNat) < 2 ^ 64 := by
    refine Nat.lt_of_not_le fun hle => ?_
    have hn : q.usedRing.checkedAdd
        (BitVec.ofNat 64 (4 + q.nextUsed.toNat % q.size.toNat * 8)) = none := by
      rw [GuestAddress.checkedAdd_eq_none, BitVec.toNat_ofNat]
      have := Nat.mod_lt q.nextUsed.toNat (Nat.lt_of_le_of_lt (Nat.zero_le _) hh)
      have := q.size.isLt
      omega
    simp only [addUsed_of_lt hh, addUsedAtOffset, hn, Option.some.injEq] at hr
    cases hr
  rw [addUsed_eq_addUsedAt hh hU, Option.some.injEq] at hr
  obtain ⟨hw, rfl, rfl⟩ := addUsedAt_eq_ok hr
  refine ⟨⟨hU, hw, ?_⟩, rfl⟩
  dsimp only
  congr 1
  · simp only [GuestAddress.toNat, BitVec.toNat_ofNat] at hU ⊢
    omega

end Queue

/-! ### A memory that serves `add_used` -/

/-- Guest memory serves every access `add_used` makes to a used ring of `size` entries at
`usedRing`: the ring ends below `2 ^ 64`, every byte of its elements is mapped, and the atomic
store of `idx` passes its checks. -/
structure UsedMapped (mem : GuestMemoryMmap) (usedRing : GuestAddress) (size : Nat) : Prop where
  noOverflow : usedRing.toNat + 4 + 8 * size < 2 ^ 64
  idx : mem.checkAtomic ⟨BitVec.ofNat 64 (usedRing.toNat + 2)⟩ 2 = .ok ()
  elems : ∀ i, usedRing.toNat + 4 ≤ i → i < usedRing.toNat + 4 + 8 * size →
    mem.regions.any (·.contains i) = true

/-- Whether memory serves `add_used` depends only on its regions. -/
theorem UsedMapped.of_regions {mem mem' : GuestMemoryMmap} {usedRing : GuestAddress} {size : Nat}
    (h : UsedMapped mem usedRing size) (hr : mem'.regions = mem.regions) :
    UsedMapped mem' usedRing size :=
  ⟨h.noOverflow, (mem.checkAtomic_of_regions hr _ _).trans h.idx,
    fun i h1 h2 => hr ▸ h.elems i h1 h2⟩

/-- A used ring that lies, 2-byte aligned, inside one region of a memory with disjoint regions
is served. -/
theorem UsedMapped.of_region {mem : GuestMemoryMmap} (hd : mem.RegionsDisjoint)
    {r : GuestRegion} (hr : r ∈ mem.regions) {usedRing : GuestAddress} {size : Nat}
    (hov : usedRing.toNat + 4 + 8 * size < 2 ^ 64) (h1 : r.start ≤ usedRing.toNat)
    (h2 : usedRing.toNat + 4 + 8 * size ≤ r.start + r.len)
    (hal : (usedRing.toNat - r.start) % 2 = 0) : UsedMapped mem usedRing size := by
  refine ⟨hov, mem.checkAtomic_of_region hd hr Nat.two_pos ?_ ?_ ?_, fun i h3 h4 =>
    List.any_eq_true.mpr ⟨r, hr, by
      simp only [GuestRegion.contains, Bool.and_eq_true, decide_eq_true_eq]
      omega⟩⟩ <;>
    simp (disch := omega) only [GuestAddress.toNat_mk, BitVec.toNat_ofNat, Nat.mod_eq_of_lt] <;>
    omega

/-- `add_used` of a head below the size, over a memory that serves it, returns `Ok`. -/
theorem Queue.addUsed_of_mapped {q : Queue} {mem : GuestMemoryMmap} {headIndex : BitVec 16}
    (hh : headIndex < q.size) (hmap : UsedMapped mem q.usedRing q.size.toNat) (len : BitVec 32) :
    ∃ mem', q.addUsed mem headIndex len =
      some (.ok (), { q with nextUsed := q.nextUsed + 1, numAdded := q.numAdded + 1 }, mem') := by
  have hr := Nat.mod_lt q.nextUsed.toNat
    (Nat.lt_of_le_of_lt (Nat.zero_le _) (BitVec.lt_def.mp hh))
  have hov := hmap.noOverflow
  have hU : q.usedRing.toNat + 4 + 8 * (q.nextUsed.toNat % q.size.toNat) < 2 ^ 64 := by omega
  rw [Queue.addUsed_eq_addUsedAt hh hU]
  refine ⟨_, congrArg some
    (Queue.addUsedAt_of_ok (GuestMemoryMmap.writeObj_ok _ _ fun i h1 h2 => ?_) hmap.idx)⟩
  simp only [GuestAddress.toNat_mk, BitVec.toNat_ofNat, Nat.mod_eq_of_lt hU,
    VirtqUsedElem.length_toBytes] at h1 h2
  exact hmap.elems i (by omega) (by omega)

/-- One call leaves the regions of guest memory as they were. -/
theorem AddUsedCall.Writes.regions {c : AddUsedCall} {usedRing : GuestAddress} {size n : Nat}
    (hw : c.Writes usedRing size n) : c.mem'.regions = c.mem.regions := by
  rw [hw.2.2, GuestMemoryMmap.regions_write16, GuestMemoryMmap.regions_writeObj]

/-- The calls were made one after another against the memory the one before left, from `mem`
on, and the last left `mem'`: the driver did not touch guest memory during the run. -/
def AddUsedCall.Chain : GuestMemoryMmap → List AddUsedCall → GuestMemoryMmap → Prop
  | mem, [], mem' => mem' = mem
  | mem, c :: cs, mem' => c.mem = mem ∧ Chain c.mem' cs mem'

/-! ### Runs -/

/-- `AddUsedRun q calls q'`: the calls, made one after another from `q`, all return `Ok` and
end at `q'`.  The driver may change guest memory between two calls, so each call names the
memory it is made against. -/
inductive AddUsedRun : Queue → List AddUsedCall → Queue → Prop where
  | nil (q : Queue) : AddUsedRun q [] q
  | cons {q q₁ q₂ : Queue} {c : AddUsedCall} {cs : List AddUsedCall} :
      q.addUsed c.mem c.headIndex c.len = some (.ok (), q₁, c.mem') → AddUsedRun q₁ cs q₂ →
      AddUsedRun q (c :: cs) q₂

/-- A power-of-two `u16` divides `2 ^ 16`. -/
theorem dvd_two_pow_sixteen {s : BitVec 16} (hs : s.toNat.isPowerOfTwo) : s.toNat ∣ 2 ^ 16 := by
  obtain ⟨k, hk⟩ := hs
  have hlt : 2 ^ k < 2 ^ 16 := hk ▸ s.isLt
  rw [hk]
  exact Nat.pow_dvd_pow 2 (Nat.le_of_lt ((Nat.pow_lt_pow_iff_right (by decide)).mp hlt))

/-- The run lemma: with a size dividing `2 ^ 16`, call `j` of a run from `next_used = n₀`
writes as the completion `n₀ + j`, and the run ends at `next_used = n₀ + length`. -/
theorem AddUsedRun.writes {q q' : Queue} {calls : List AddUsedCall} (hrun : AddUsedRun q calls q')
    (hs : q.size.toNat ∣ 2 ^ 16) :
    (∀ j (hj : j < calls.length),
      calls[j].Writes q.usedRing q.size.toNat (q.nextUsed.toNat + j)) ∧
    q'.nextUsed = BitVec.ofNat 16 (q.nextUsed.toNat + calls.length) := by
  induction hrun with
  | nil q => exact ⟨fun _ hj => absurd hj (Nat.not_lt_zero _), by simp⟩
  | @cons q q₁ q₂ c cs hstep _ ih =>
    obtain ⟨hc, rfl⟩ := Queue.addUsed_eq_ok hstep
    obtain ⟨ihw, ihn⟩ := ih hs
    have hn := toNat_add_one_u16 q.nextUsed
    refine ⟨fun j hj => ?_, ?_⟩
    · cases j with
      | zero => exact hc
      | succ j =>
        have := ihw j (Nat.lt_of_succ_lt_succ hj)
        rw [hn] at this
        exact (AddUsedCall.writes_congr hs (by omega)).mp this
    · rw [ihn, hn]
      apply BitVec.eq_of_toNat_eq
      simp only [BitVec.toNat_ofNat, List.length_cons]
      omega

/-- Over a memory that serves the used ring, `add_used` of heads below the size runs through,
each call against the memory the one before left, whatever the heads and lengths. -/
theorem AddUsedRun.of_mapped :
    ∀ (els : List (BitVec 16 × BitVec 32)) {q : Queue} {mem : GuestMemoryMmap},
      (∀ e ∈ els, e.1 < q.size) → UsedMapped mem q.usedRing q.size.toNat →
      ∃ calls mem', calls.map (fun c => (c.headIndex, c.len)) = els ∧
        AddUsedRun q calls { q with
          nextUsed := q.nextUsed + BitVec.ofNat 16 els.length
          numAdded := q.numAdded + BitVec.ofNat 16 els.length } ∧
        AddUsedCall.Chain mem calls mem'
  | [], q, mem, _, _ => ⟨[], mem, rfl, by simpa using AddUsedRun.nil q, rfl⟩
  | (h, l) :: els, q, mem, hh, hmap => by
    obtain ⟨mem₁, hstep⟩ := Queue.addUsed_of_mapped (hh _ (List.mem_cons_self _ _)) hmap l
    obtain ⟨calls, mem', he, hrun, hc⟩ :=
      AddUsedRun.of_mapped els (q := { q with nextUsed := q.nextUsed + 1, numAdded := q.numAdded + 1 })
        (fun e he => hh e (List.mem_cons_of_mem _ he))
        (hmap.of_regions (Queue.addUsed_eq_ok hstep).1.regions)
    refine ⟨⟨mem, h, l, mem₁⟩ :: calls, mem', by rw [List.map_cons, he], ?_, ⟨rfl, hc⟩⟩
    rw [List.length_cons, ← add_ofNat_succ, ← add_ofNat_succ]
    exact .cons hstep hrun

/-- The run of the examples: three `add_used` calls into a four-element ring at `0` from
`next_used = 0xfffe`, each against the memory the one before left. -/
theorem addUsedRun_wrap : (4 : BitVec 16).toNat.isPowerOfTwo ∧
    Reachable 4 { Queue.new 4 with nextUsed := 0xfffe } ∧
    ∃ calls mem', calls.map (fun c => (c.headIndex, c.len)) = [(1, 0x10), (2, 0x20), (3, 0x30)] ∧
      AddUsedRun { Queue.new 4 with nextUsed := 0xfffe } calls
        { Queue.new 4 with nextUsed := 1, numAdded := 3 } ∧
      AddUsedCall.Chain ⟨[⟨0, 0x100⟩], fun _ => 0⟩ calls mem' := by
  have hd : GuestMemoryMmap.RegionsDisjoint ⟨[⟨0, 0x100⟩], fun _ => 0⟩ :=
    List.pairwise_singleton _ _
  exact ⟨⟨2, rfl⟩, @Reachable.step 4 _ _ ⟨[], fun _ => 0⟩ _ (.setNextUsed 0xfffe) _ .new rfl,
    AddUsedRun.of_mapped _ (by decide)
      (.of_region hd (List.mem_singleton_self _) (by decide) (by decide) (by decide) (by decide))⟩

/-- **Every completion of a run lands in the driver's slot.**  From any queue reachable from
`Queue::new m`, `m` a power of two, take a run of consecutive successful `add_used` calls,
however long (`next_used` may wrap).  Counting from `n₀ = next_used` over unbounded integers,
the `j`-th call writes its element `(head_index, len)` at
`used_ring + 4 + 8 * ((n₀ + j) mod size)` and stores `(n₀ + j + 1) mod 2 ^ 16` little-endian at
`used_ring + 2`; the driver, which reads that `idx` and looks one entry back, looks at the
same slot. -/
theorem addUsed_run_slots {m : BitVec 16} (hm : m.toNat.isPowerOfTwo) {q q' : Queue}
    {calls : List AddUsedCall} (hq : Reachable m q) (hrun : AddUsedRun q calls q') :
    (∀ j (hj : j < calls.length),
      calls[j].Writes q.usedRing q.size.toNat (q.nextUsed.toNat + j) ∧
      (BitVec.ofNat 16 (q.nextUsed.toNat + j + 1) - 1).toNat % q.size.toNat =
        (q.nextUsed.toNat + j) % q.size.toNat) ∧
    q'.nextUsed = BitVec.ofNat 16 (q.nextUsed.toNat + calls.length) := by
  have hs := dvd_two_pow_sixteen (hq.wf hm).size_pow
  obtain ⟨hw, hn⟩ := hrun.writes hs
  refine ⟨fun j hj => ⟨hw j hj, ?_⟩, hn⟩
  have hidx : (BitVec.ofNat 16 (q.nextUsed.toNat + j + 1) - 1).toNat =
      (q.nextUsed.toNat + j) % 2 ^ 16 := by
    simp only [BitVec.toNat_sub, BitVec.toNat_ofNat, toNat_one_u16]
    omega
  rw [hidx, Nat.mod_mod_of_dvd _ hs]

/-- The run of `addUsedRun_wrap` crosses the wrap of `next_used`: over unbounded integers its
calls are the completions `0xfffe`, `0xffff` and `0x10000`, written to the slots `2`, `3` and
`0`, and the last stores `idx = 1`. -/
theorem addUsed_run_slots_wrap :
    ∃ calls : List AddUsedCall,
      calls.map (fun c => (c.headIndex, c.len)) = [(1, 0x10), (2, 0x20), (3, 0x30)] ∧
      AddUsedRun { Queue.new 4 with nextUsed := 0xfffe } calls
        { Queue.new 4 with nextUsed := 1, numAdded := 3 } ∧
      (∀ j (hj : j < calls.length), calls[j].Writes ⟨0⟩ 4 (0xfffe + j) ∧
        (BitVec.ofNat 16 (0xfffe + j + 1) - 1).toNat % 4 = (0xfffe + j) % 4) := by
  obtain ⟨hm, hq, calls, -, he, hrun, -⟩ := addUsedRun_wrap
  exact ⟨calls, he, hrun, (addUsed_run_slots hm hq hrun).1⟩

/-! ### The used ring as the driver reads it

The driver sees the used ring only through guest memory: it reads `idx`, and decodes the
eight bytes of each slot it has not consumed yet.  Over a run of consecutive calls, each made
against the memory the one before left, the ring holds the last `size` completions in order. -/

/-- The element the driver decodes from the eight bytes of a used-ring slot: `id`, then
`len`, little-endian. -/
def VirtqUsedElem.ofBytes (bs : List (BitVec 8)) : VirtqUsedElem :=
  ⟨BitVec.ofNat 32 (GuestMemoryMmap.fromLeBytes (bs.take 4)),
    BitVec.ofNat 32 (GuestMemoryMmap.fromLeBytes (bs.drop 4))⟩

/-- The element's encoding decodes back to it. -/
theorem VirtqUsedElem.ofBytes_toBytes (e : VirtqUsedElem) : ofBytes e.toBytes = e := by
  obtain ⟨id, len⟩ := e
  have h4 := GuestMemoryMmap.length_leBytes 4 id.toNat
  have hid := id.isLt
  have hlen := len.isLt
  simp only [ofBytes, toBytes, List.take_left' h4, List.drop_left' h4,
    GuestMemoryMmap.fromLeBytes_leBytes, VirtqUsedElem.mk.injEq]
  constructor <;> apply BitVec.eq_of_toNat_eq <;> simp only [BitVec.toNat_ofNat] <;> omega

/-- The element the driver reads at used-ring position `i`. -/
def readUsedElem (mem : GuestMemoryMmap) (usedRing : GuestAddress) (size i : Nat) :
    VirtqUsedElem :=
  VirtqUsedElem.ofBytes (mem.readBytes (usedRing.toNat + 4 + 8 * (i % size)) 8)

/-- One call changes no byte outside its slot and the used ring's `idx`. -/
theorem AddUsedCall.Writes.bytes_eq {c : AddUsedCall} {usedRing : GuestAddress} {size n : Nat}
    (hw : c.Writes usedRing size n) {i : Nat}
    (hidx : i < usedRing.toNat + 2 ∨ usedRing.toNat + 4 ≤ i)
    (hslot : i < usedRing.toNat + 4 + 8 * (n % size) ∨
      usedRing.toNat + 4 + 8 * (n % size) + 8 ≤ i) :
    c.mem'.bytes i = c.mem.bytes i := by
  obtain ⟨hlt, -, hm⟩ := hw
  rw [hm]
  simp only [GuestMemoryMmap.write16]
  rw [if_neg (by omega), if_neg (by omega)]
  refine GuestMemoryMmap.writeObj_bytes_of_lt _ _ ?_
  simp only [GuestAddress.toNat_mk, BitVec.toNat_ofNat, Nat.mod_eq_of_lt hlt,
    VirtqUsedElem.length_toBytes]
  omega

/-- One call leaves its element's bytes in its slot. -/
theorem AddUsedCall.Writes.readBytes {c : AddUsedCall} {usedRing : GuestAddress} {size n : Nat}
    (hw : c.Writes usedRing size n) :
    c.mem'.readBytes (usedRing.toNat + 4 + 8 * (n % size)) 8 =
      (VirtqUsedElem.new (c.headIndex.setWidth 32) c.len).toBytes := by
  obtain ⟨hlt, hok, hm⟩ := hw
  have hr := GuestMemoryMmap.readBytes_writeObj hok
  simp only [GuestAddress.toNat_mk, BitVec.toNat_ofNat, Nat.mod_eq_of_lt hlt,
    VirtqUsedElem.length_toBytes] at hr
  rw [← hr, hm]
  refine GuestMemoryMmap.readBytes_congr fun i h1 _ => ?_
  simp only [GuestMemoryMmap.write16]
  rw [if_neg (by omega), if_neg (by omega)]

/-- One call leaves every halfword outside the used ring's `idx` and elements as it was. -/
theorem AddUsedCall.Writes.read16_eq {c : AddUsedCall} {usedRing : GuestAddress} {size n : Nat}
    (hw : c.Writes usedRing size n) (hs : 0 < size) {a : Nat}
    (ha : a + 2 ≤ usedRing.toNat + 2 ∨ usedRing.toNat + 4 + 8 * size ≤ a) :
    c.mem'.read16 a = c.mem.read16 a := by
  have := Nat.mod_lt n hs
  exact GuestMemoryMmap.read16_congr (hw.bytes_eq (by omega) (by omega))
    (hw.bytes_eq (by omega) (by omega))

/-- Two positions fewer than `size` apart are different slots. -/
theorem add_mod_ne {n k s : Nat} (hk : 0 < k) (hks : k < s) : (n + k) % s ≠ n % s := by
  have hr := Nat.mod_lt n (Nat.lt_trans hk hks)
  rw [Nat.add_mod, Nat.mod_eq_of_lt hks]
  by_cases h : n % s + k < s
  · rw [Nat.mod_eq_of_lt h]
    omega
  · rw [Nat.mod_eq_sub_mod (by omega), Nat.mod_eq_of_lt (by omega)]
    omega

section Chain

variable {usedRing : GuestAddress} {size : Nat}

/-- Call `j + 1` of `c :: cs` is call `j` of `cs`, one completion later. -/
theorem writes_tail {c : AddUsedCall} {cs : List AddUsedCall} {n : Nat}
    (hw : ∀ j (hj : j < (c :: cs).length), (c :: cs)[j].Writes usedRing size (n + j)) :
    ∀ j (hj : j < cs.length), cs[j].Writes usedRing size (n + 1 + j) := fun j hj => by
  rw [Nat.add_assoc n 1 j, Nat.add_comm 1 j]
  exact hw (j + 1) (Nat.succ_lt_succ hj)

/-- The frame of a chain: a byte outside `idx` and outside every slot the calls wrote keeps
its value. -/
theorem AddUsedCall.Chain.bytes_eq {mem mem' : GuestMemoryMmap} {cs : List AddUsedCall} {n : Nat}
    (hc : AddUsedCall.Chain mem cs mem')
    (hw : ∀ j (hj : j < cs.length), cs[j].Writes usedRing size (n + j)) {i : Nat}
    (hidx : i < usedRing.toNat + 2 ∨ usedRing.toNat + 4 ≤ i)
    (hslot : ∀ j < cs.length, i < usedRing.toNat + 4 + 8 * ((n + j) % size) ∨
      usedRing.toNat + 4 + 8 * ((n + j) % size) + 8 ≤ i) :
    mem'.bytes i = mem.bytes i := by
  induction cs generalizing mem n with
  | nil => exact congrArg (·.bytes i) hc
  | cons c cs ih =>
    obtain ⟨rfl, hc⟩ := hc
    rw [ih hc (writes_tail hw) fun j hj => by
      rw [Nat.add_assoc n 1 j, Nat.add_comm 1 j]; exact hslot (j + 1) (Nat.succ_lt_succ hj)]
    exact (hw 0 (Nat.zero_lt_succ _)).bytes_eq hidx (hslot 0 (Nat.zero_lt_succ _))

/-- The read-back of a chain: the slot of each of the last `size` calls holds its element. -/
theorem AddUsedCall.Chain.readBytes {mem mem' : GuestMemoryMmap} {cs : List AddUsedCall} {n : Nat}
    (hc : AddUsedCall.Chain mem cs mem')
    (hw : ∀ j (hj : j < cs.length), cs[j].Writes usedRing size (n + j))
    (j : Nat) (hj : j < cs.length) (hlast : cs.length ≤ j + size) :
    mem'.readBytes (usedRing.toNat + 4 + 8 * ((n + j) % size)) 8 =
      (VirtqUsedElem.new (cs[j].headIndex.setWidth 32) cs[j].len).toBytes := by
  induction cs generalizing mem n j with
  | nil => exact absurd hj (Nat.not_lt_zero _)
  | cons c cs ih =>
    obtain ⟨rfl, hc⟩ := hc
    cases j with
    | zero =>
      show mem'.readBytes (usedRing.toNat + 4 + 8 * (n % size)) 8 = _
      rw [GuestMemoryMmap.readBytes_congr fun i h1 h2 => hc.bytes_eq (writes_tail hw)
        (.inr (Nat.le_trans (Nat.le_add_right _ _) h1)) fun j hj => ?_]
      · exact (hw 0 hj).readBytes
      · have := @add_mod_ne n (j + 1) size (Nat.succ_pos j)
          (by simp only [List.length_cons] at hlast; omega)
        rw [Nat.add_assoc n 1 j, Nat.add_comm 1 j]
        omega
    | succ j =>
      have := ih hc (writes_tail hw) j (Nat.lt_of_succ_lt_succ hj)
        (by simp only [List.length_cons] at hlast; omega)
      rwa [Nat.add_assoc n 1 j, Nat.add_comm 1 j] at this

/-- After a chain of at least one call, `idx` holds the completion count. -/
theorem AddUsedCall.Chain.read16_idx {mem mem' : GuestMemoryMmap} {cs : List AddUsedCall} {n : Nat}
    (hc : AddUsedCall.Chain mem cs mem')
    (hw : ∀ j (hj : j < cs.length), cs[j].Writes usedRing size (n + j)) (hne : cs ≠ []) :
    mem'.read16 (usedRing.toNat + 2) = BitVec.ofNat 16 (n + cs.length) := by
  induction cs generalizing mem n with
  | nil => exact absurd rfl hne
  | cons c cs ih =>
    obtain ⟨rfl, hc⟩ := hc
    cases cs with
    | nil =>
      obtain ⟨-, -, hm⟩ : c.Writes usedRing size (n + 0) := hw 0 (Nat.zero_lt_succ _)
      rw [show mem' = c.mem' from hc, hm, GuestMemoryMmap.read16_write16_self]
      rfl
    | cons d ds =>
      rw [ih hc (writes_tail hw) (List.cons_ne_nil d ds), List.length_cons (a := c),
        Nat.add_right_comm, Nat.add_assoc]

/-- A chain leaves the regions of guest memory as they were. -/
theorem AddUsedCall.Chain.regions {mem mem' : GuestMemoryMmap} {cs : List AddUsedCall} {n : Nat}
    (hc : AddUsedCall.Chain mem cs mem')
    (hw : ∀ j (hj : j < cs.length), cs[j].Writes usedRing size (n + j)) :
    mem'.regions = mem.regions := by
  induction cs generalizing mem n with
  | nil => exact congrArg (·.regions) hc
  | cons c cs ih =>
    obtain ⟨rfl, hc⟩ := hc
    exact (ih hc (writes_tail hw)).trans (hw 0 (Nat.zero_lt_succ _)).regions

/-- A chain leaves every halfword outside the used ring's `idx` and elements as it was. -/
theorem AddUsedCall.Chain.read16_eq {mem mem' : GuestMemoryMmap} {cs : List AddUsedCall} {n : Nat}
    (hc : AddUsedCall.Chain mem cs mem')
    (hw : ∀ j (hj : j < cs.length), cs[j].Writes usedRing size (n + j)) (hs : 0 < size) {a : Nat}
    (ha : a + 2 ≤ usedRing.toNat + 2 ∨ usedRing.toNat + 4 + 8 * size ≤ a) :
    mem'.read16 a = mem.read16 a := by
  induction cs generalizing mem n with
  | nil => exact congrArg (·.read16 a) hc
  | cons c cs ih =>
    obtain ⟨rfl, hc⟩ := hc
    exact (ih hc (writes_tail hw)).trans ((hw 0 (Nat.zero_lt_succ _)).read16_eq hs ha)

end Chain

/-- **The driver reads back the last completions.**  From any queue reachable from
`Queue::new m`, `m` a power of two, take a run of consecutive successful `add_used` calls,
each made against the memory the one before left.  Counting from `n₀ = next_used`, a driver
that decodes the slot of position `n₀ + j` finds call `j`'s element `(head_index, len)` for
each of the last `size` calls; once a call has been made, `idx` holds `n₀ + length`
(mod `2 ^ 16`); and no byte outside the used ring's `idx` and its `size` slots changed. -/
theorem usedRing_readBack {m : BitVec 16} (hm : m.toNat.isPowerOfTwo) {q q' : Queue}
    {calls : List AddUsedCall} {mem mem' : GuestMemoryMmap} (hq : Reachable m q)
    (hrun : AddUsedRun q calls q') (hchain : AddUsedCall.Chain mem calls mem') :
    (∀ j (hj : j < calls.length), calls.length ≤ j + q.size.toNat →
      readUsedElem mem' q.usedRing q.size.toNat (q.nextUsed.toNat + j) =
        VirtqUsedElem.new (calls[j].headIndex.setWidth 32) calls[j].len) ∧
    (calls ≠ [] → mem'.read16 (q.usedRing.toNat + 2) =
      BitVec.ofNat 16 (q.nextUsed.toNat + calls.length)) ∧
    (∀ i, i < q.usedRing.toNat + 2 ∨ q.usedRing.toNat + 4 + 8 * q.size.toNat ≤ i →
      mem'.bytes i = mem.bytes i) := by
  have hpow := (hq.wf hm).size_pow
  obtain ⟨hw, -⟩ := hrun.writes (dvd_two_pow_sixteen hpow)
  refine ⟨fun j hj hlast => ?_, hchain.read16_idx hw,
    fun i hi => hchain.bytes_eq hw (by omega) fun j _ => ?_⟩
  · rw [readUsedElem, hchain.readBytes hw j hj hlast, VirtqUsedElem.ofBytes_toBytes]
  · have := Nat.mod_lt (q.nextUsed.toNat + j) (Nat.pos_of_isPowerOfTwo hpow)
    omega

/-- After the run of `addUsedRun_wrap`, the driver decodes the three elements from the slots of
the positions `0xfffe`, `0xffff` and `0x10000`, which are `2`, `3` and `0`, and reads
`idx = 1`. -/
theorem usedRing_readBack_wrap :
    ∃ mem' : GuestMemoryMmap,
      readUsedElem mem' ⟨0⟩ 4 0xfffe = VirtqUsedElem.new 1 0x10 ∧
      readUsedElem mem' ⟨0⟩ 4 0xffff = VirtqUsedElem.new 2 0x20 ∧
      readUsedElem mem' ⟨0⟩ 4 0x10000 = VirtqUsedElem.new 3 0x30 ∧ mem'.read16 2 = 1 := by
  obtain ⟨hm, hq, calls, mem', he, hrun, hc⟩ := addUsedRun_wrap
  obtain ⟨c₁, c₂, c₃, rfl⟩ := List.length_eq_three.mp (by simpa using congrArg List.length he)
  simp only [List.map_cons, List.map_nil, List.cons.injEq, Prod.mk.injEq, and_true] at he
  obtain ⟨⟨h₁, l₁⟩, ⟨h₂, l₂⟩, ⟨h₃, l₃⟩⟩ := he
  obtain ⟨hr, hidx, -⟩ := usedRing_readBack hm hq hrun hc
  have hlt : ∀ {a b : Nat}, Nat.ble a b = true → a ≤ b := Nat.le_of_ble_eq_true
  refine ⟨mem', (hr 0 (hlt rfl) (hlt rfl)).trans ?_, (hr 1 (hlt rfl) (hlt rfl)).trans ?_,
    (hr 2 (hlt rfl) (hlt rfl)).trans ?_,
    (hidx (List.cons_ne_nil _ _)).trans (by decide : BitVec.ofNat 16 (0xfffe + 3) = 1)⟩ <;>
    simp only [List.getElem_cons_zero, List.getElem_cons_succ, h₁, l₁, h₂, l₂, h₃, l₃] <;> rfl

end VirtioQueue
