import VirtioQueue.Ops

/-!
# Ring addresses written in two halves

A transport hands the driver's 64-bit ring addresses to the queue as two 32-bit register
writes, and each setter takes either half as an `Option`: the half that is absent is kept
from the current address.  The assembled address is accepted only when it is aligned.

`setRingAddress_halves` is the law the transport relies on: starting from an aligned address,
the two half writes commute, and give the address the driver meant when the low half is
aligned; when it is not, the low-half write is refused in either order and the address keeps
its old low half.  `ringAddress_halves` states it for the three setters of `queue.rs`.

## Main results

* `Queue.toNat_combineAddress` — the assembled address is `high * 2 ^ 32 + low`.
* `Queue.setRingAddress_halves` — the law for alignments 2, 4 and 16.
* `ringAddress_halves` — **the law for `set_desc_table_address`, `set_avail_ring_address`
  and `set_used_ring_address`.**
-/

namespace VirtioQueue

namespace Queue

/-- The assembled address is the high half times `2 ^ 32` plus the low half. -/
theorem toNat_combineAddress (cur : GuestAddress) (low high : Option (BitVec 32)) :
    (combineAddress cur low high).toNat =
      (high.getD ((cur.rawValue >>> 32).setWidth 32)).toNat * 2 ^ 32 +
        (low.getD (cur.rawValue.setWidth 32)).toNat := by
  simp only [combineAddress, GuestAddress.toNat, BitVec.toNat_or, BitVec.toNat_shiftLeft,
    BitVec.toNat_setWidth, Nat.shiftLeft_eq]
  set l := (low.getD (cur.rawValue.setWidth 32)).toNat
  set h := (high.getD ((cur.rawValue >>> 32).setWidth 32)).toNat
  have hl : l < 2 ^ 32 := BitVec.isLt _
  have hh : h < 2 ^ 32 := BitVec.isLt _
  rw [Nat.mod_eq_of_lt (show l < 2 ^ 64 by omega), Nat.mod_eq_of_lt (show h < 2 ^ 64 by omega),
    Nat.mod_eq_of_lt (show h * 2 ^ 32 < 2 ^ 64 by omega), Nat.mul_comm h,
    ← Nat.mul_add_lt_is_or hl, Nat.mul_comm]

/-- The halves of the current address, as the setters keep them. -/
theorem toNat_high (cur : GuestAddress) :
    ((cur.rawValue >>> 32).setWidth 32).toNat = cur.toNat / 2 ^ 32 := by
  have := cur.toNat_lt
  simp only [BitVec.toNat_setWidth, BitVec.toNat_ushiftRight, Nat.shiftRight_eq_div_pow,
    GuestAddress.toNat] at *
  omega

theorem toNat_low (cur : GuestAddress) :
    (cur.rawValue.setWidth 32).toNat = cur.toNat % 2 ^ 32 := by
  simp only [BitVec.toNat_setWidth, GuestAddress.toNat]

/-- A ring-address setter keeps `cur` unless the assembled address is aligned to `2 ^ k`. -/
theorem setRingAddress_eq (k : Nat) (hk : 2 ^ k - 1 < 2 ^ 64) (cur : GuestAddress)
    (low high : Option (BitVec 32)) :
    setRingAddress (BitVec.ofNat 64 (2 ^ k - 1)) cur low high =
      if (combineAddress cur low high).toNat % 2 ^ k = 0 then combineAddress cur low high
      else cur := by
  simp only [setRingAddress, bne_iff_ne, ne_eq, ← GuestAddress.toNat_mask _ hk]
  split <;> split <;> simp_all [BitVec.toNat_eq]

/-- Below bit 32, the high half does not change an address's alignment. -/
theorem mod_two_pow_of_high {k : Nat} (hk : k ≤ 32) (x y : Nat) :
    (x * 2 ^ 32 + y) % 2 ^ k = y % 2 ^ k := by
  obtain ⟨t, ht⟩ := Nat.pow_dvd_pow 2 hk
  rw [ht, Nat.mul_left_comm, Nat.mul_add_mod]

/-! ### One half at a time, for an alignment `2 ^ k` with `k ≤ 32` -/

section Halves

variable {k : Nat} (hk : k ≤ 32) (a : GuestAddress) (lo hi : BitVec 32)
include hk

theorem two_pow_sub_one_lt : 2 ^ k - 1 < 2 ^ 64 :=
  Nat.lt_of_lt_of_le (Nat.sub_lt (Nat.two_pow_pos k) Nat.one_pos)
    (Nat.pow_le_pow_right (by decide) (by omega))

/-- Writing the low half takes it when it is aligned and is refused otherwise. -/
theorem setRingAddress_low :
    (setRingAddress (BitVec.ofNat 64 (2 ^ k - 1)) a (some lo) none).toNat =
      if lo.toNat % 2 ^ k = 0 then a.toNat / 2 ^ 32 * 2 ^ 32 + lo.toNat else a.toNat := by
  simp only [setRingAddress_eq k (two_pow_sub_one_lt hk), apply_ite GuestAddress.toNat,
    toNat_combineAddress, Option.getD_some, Option.getD_none, toNat_high, mod_two_pow_of_high hk]

/-- Writing the high half of an aligned address always succeeds. -/
theorem setRingAddress_high (ha : a.toNat % 2 ^ k = 0) :
    (setRingAddress (BitVec.ofNat 64 (2 ^ k - 1)) a none (some hi)).toNat =
      hi.toNat * 2 ^ 32 + a.toNat % 2 ^ 32 := by
  simp only [setRingAddress_eq k (two_pow_sub_one_lt hk), toNat_combineAddress,
    Option.getD_some, Option.getD_none, toNat_low, mod_two_pow_of_high hk,
    Nat.mod_mod_of_dvd _ (Nat.pow_dvd_pow 2 hk), ha, if_true]

/-- Writing both halves at once takes them when the low half is aligned. -/
theorem setRingAddress_both :
    (setRingAddress (BitVec.ofNat 64 (2 ^ k - 1)) a (some lo) (some hi)).toNat =
      if lo.toNat % 2 ^ k = 0 then hi.toNat * 2 ^ 32 + lo.toNat else a.toNat := by
  simp only [setRingAddress_eq k (two_pow_sub_one_lt hk), apply_ite GuestAddress.toNat,
    toNat_combineAddress, Option.getD_some, mod_two_pow_of_high hk]

/-- **Two half writes commute.**  Starting from an address aligned to `2 ^ k`, writing the
low half `lo` and then the high half `hi` gives the same address as the other order, namely
`hi * 2 ^ 32 + lo` when `lo` is aligned, which is also what one write of both halves gives,
and `hi * 2 ^ 32 + a mod 2 ^ 32` when it is not. -/
theorem setRingAddress_halves (ha : a.toNat % 2 ^ k = 0) :
    let set := setRingAddress (BitVec.ofNat 64 (2 ^ k - 1))
    set (set a (some lo) none) none (some hi) = set (set a none (some hi)) (some lo) none ∧
    (set (set a (some lo) none) none (some hi)).toNat =
      hi.toNat * 2 ^ 32 + (if lo.toNat % 2 ^ k = 0 then lo.toNat else a.toNat % 2 ^ 32) ∧
    (lo.toNat % 2 ^ k = 0 →
      set a (some lo) (some hi) = set (set a (some lo) none) none (some hi)) := by
  have hlo := lo.isLt
  have hA := a.toNat_lt
  have hlh := setRingAddress_high hk _ hi
    (setRingAddress_aligned k (two_pow_sub_one_lt hk) ha (some lo) none)
  have hhl := setRingAddress_low hk
    (setRingAddress (BitVec.ofNat 64 (2 ^ k - 1)) a none (some hi)) lo
  rw [setRingAddress_low hk] at hlh
  rw [setRingAddress_high hk a hi ha] at hhl
  have hboth := setRingAddress_both hk a lo hi
  refine ⟨GuestAddress.ext_toNat ?_, ?_, fun hl => GuestAddress.ext_toNat ?_⟩ <;>
    split_ifs at hlh hhl hboth ⊢ <;> omega

end Halves

end Queue

/-- **The half-write law of the three ring-address setters.**  For each of
`set_desc_table_address` (16-byte alignment), `set_avail_ring_address` (2) and
`set_used_ring_address` (4), starting from an aligned address: `(Some lo, None)` then
`(None, Some hi)` gives the same address as the other order; when `lo` is aligned it is the
address `(Some lo, Some hi)` gives, `hi * 2 ^ 32 + lo`; when it is not, it is
`hi * 2 ^ 32 + (a mod 2 ^ 32)`. -/
theorem ringAddress_halves (q : Queue) (lo hi : BitVec 32) :
    (q.descTable.toNat % 16 = 0 →
      ((q.setDescTableAddress (some lo) none).setDescTableAddress none (some hi)).descTable =
        ((q.setDescTableAddress none (some hi)).setDescTableAddress (some lo) none).descTable ∧
      ((q.setDescTableAddress (some lo) none).setDescTableAddress none (some hi)).descTable.toNat =
        hi.toNat * 2 ^ 32 + (if lo.toNat % 16 = 0 then lo.toNat else q.descTable.toNat % 2 ^ 32) ∧
      (lo.toNat % 16 = 0 → (q.setDescTableAddress (some lo) (some hi)).descTable =
        ((q.setDescTableAddress (some lo) none).setDescTableAddress none (some hi)).descTable)) ∧
    (q.availRing.toNat % 2 = 0 →
      ((q.setAvailRingAddress (some lo) none).setAvailRingAddress none (some hi)).availRing =
        ((q.setAvailRingAddress none (some hi)).setAvailRingAddress (some lo) none).availRing ∧
      ((q.setAvailRingAddress (some lo) none).setAvailRingAddress none (some hi)).availRing.toNat =
        hi.toNat * 2 ^ 32 + (if lo.toNat % 2 = 0 then lo.toNat else q.availRing.toNat % 2 ^ 32) ∧
      (lo.toNat % 2 = 0 → (q.setAvailRingAddress (some lo) (some hi)).availRing =
        ((q.setAvailRingAddress (some lo) none).setAvailRingAddress none (some hi)).availRing)) ∧
    (q.usedRing.toNat % 4 = 0 →
      ((q.setUsedRingAddress (some lo) none).setUsedRingAddress none (some hi)).usedRing =
        ((q.setUsedRingAddress none (some hi)).setUsedRingAddress (some lo) none).usedRing ∧
      ((q.setUsedRingAddress (some lo) none).setUsedRingAddress none (some hi)).usedRing.toNat =
        hi.toNat * 2 ^ 32 + (if lo.toNat % 4 = 0 then lo.toNat else q.usedRing.toNat % 2 ^ 32) ∧
      (lo.toNat % 4 = 0 → (q.setUsedRingAddress (some lo) (some hi)).usedRing =
        ((q.setUsedRingAddress (some lo) none).setUsedRingAddress none (some hi)).usedRing)) :=
  ⟨@Queue.setRingAddress_halves 4 (by decide) _ lo hi,
    @Queue.setRingAddress_halves 1 (by decide) _ lo hi,
    @Queue.setRingAddress_halves 2 (by decide) _ lo hi⟩

/-- A fresh queue's descriptor table, written low half `0x1000` first, ends at
`2 ^ 32 + 0x1000`. -/
theorem ringAddress_halves_new :
    (Queue.new 16).descTable.toNat % 16 = 0 ∧
    (((Queue.new 16).setDescTableAddress (some 0x1000) none).setDescTableAddress none
      (some 1)).descTable.toNat = 2 ^ 32 + 0x1000 :=
  ⟨rfl, ((ringAddress_halves (Queue.new 16) 0x1000 1).1 rfl).2.1.trans rfl⟩

end VirtioQueue
