import Mathlib.Data.BitVec
import Mathlib.Data.Nat.Bitwise

/-!
# Constants, guest addresses and Rust's checked arithmetic

The leaves of the development.  The queue's integers are the code's own fixed-width types:
`u16`, `u32` and `u64` are `BitVec 16`, `BitVec 32` and `BitVec 64`, and `Wrapping<u16>`
is `BitVec 16` as well, whose `+` and `-` already wrap modulo `2 ^ 16`.

The ring-layout constants come from the crate's `defs` module, which is not part of the
sources at hand; their values are the wire layout of a split virtqueue as the
specification fixes it (§6), and the default ring addresses are those `MockSplitQueue`
uses for the descriptor table (`test_reset_queue`).

Rust's plain (non-`Wrapping`) integer operations panic on a remainder by zero and on
overflow.  `Rust.remU16`, `Rust.subU16`, `Rust.addU64` and `Rust.mulU64` return `none`
exactly where Rust panics, so a method that uses them returns `none` when it would panic.

## Main definitions

* `GuestAddress`, `GuestAddress.checkedAdd`, `GuestAddress.mask` — vm-memory's guest
  physical addresses.
* `Rust.remU16`, `Rust.subU16`, `Rust.addU64`, `Rust.mulU64` — the panicking primitives.
-/

namespace VirtioQueue

/-! ### The ring layout -/

/-- Modelled from the spec: size of one element of the used ring, `id (le32) + len (le32)`. -/
def virtqUsedElementSize : BitVec 64 := 8

/-- Modelled from the spec: size of the used ring header, `flags (le16) + idx (le16)`. -/
def virtqUsedRingHeaderSize : BitVec 64 := 4

/-- Modelled from the spec: the used ring's header and trailing `avail_event (le16)`. -/
def virtqUsedRingMetaSize : BitVec 64 := 6

/-- Modelled from the spec: size of one element of the available ring (`le16`). -/
def virtqAvailElementSize : BitVec 64 := 2

/-- Modelled from the spec: size of the available ring header, `flags (le16) + idx (le16)`. -/
def virtqAvailRingHeaderSize : BitVec 64 := 4

/-- Modelled from the spec: the available ring's header and trailing `used_event (le16)`. -/
def virtqAvailRingMetaSize : BitVec 64 := 6

/-- Modelled from the spec: `size_of::<Descriptor>()`, a 16-byte split descriptor.  The
`Descriptor` that `queue.rs` imports is the split one: its tests build descriptors with
`Descriptor::new(addr, len, flags, next)`, which the `repr(C)` enum of `descriptor/mod.rs`,
tagged and larger, does not have. -/
def descriptorSize : BitVec 64 := 16

/-- Modelled from the spec: the default guest address of the descriptor table. -/
def defaultDescTableAddr : BitVec 64 := 0

/-- Modelled from the spec: the default guest address of the available ring. -/
def defaultAvailRingAddr : BitVec 64 := 0

/-- Modelled from the spec: the default guest address of the used ring. -/
def defaultUsedRingAddr : BitVec 64 := 0

/-- `VRING_USED_F_NO_NOTIFY`: the used-ring flag asking the driver not to notify. -/
def vringUsedFNoNotify : BitVec 16 := 1

@[simp] theorem toNat_virtqUsedElementSize : virtqUsedElementSize.toNat = 8 := rfl
@[simp] theorem toNat_virtqUsedRingHeaderSize : virtqUsedRingHeaderSize.toNat = 4 := rfl
@[simp] theorem toNat_virtqUsedRingMetaSize : virtqUsedRingMetaSize.toNat = 6 := rfl
@[simp] theorem toNat_virtqAvailElementSize : virtqAvailElementSize.toNat = 2 := rfl
@[simp] theorem toNat_virtqAvailRingHeaderSize : virtqAvailRingHeaderSize.toNat = 4 := rfl
@[simp] theorem toNat_virtqAvailRingMetaSize : virtqAvailRingMetaSize.toNat = 6 := rfl
@[simp] theorem toNat_descriptorSize : descriptorSize.toNat = 16 := rfl

/-! ### Widths -/

theorem toNat_one_u16 : (1 : BitVec 16).toNat = 1 := rfl

/-- `Wrapping<u16>` increment. -/
theorem toNat_add_one_u16 (x : BitVec 16) : (x + 1).toNat = (x.toNat + 1) % 2 ^ 16 := by
  rw [BitVec.toNat_add]
  rfl

/-- Advancing by one and then by `k` advances by `k + 1`. -/
theorem add_ofNat_succ (x : BitVec 16) (k : Nat) :
    x + 1 + BitVec.ofNat 16 k = x + BitVec.ofNat 16 (k + 1) := by
  apply BitVec.eq_of_toNat_eq
  simp only [BitVec.toNat_add, BitVec.toNat_ofNat, toNat_one_u16]
  omega

theorem add_one_ne (x : BitVec 16) : x + 1 ≠ x := fun h => by
  have := congrArg BitVec.toNat h
  rw [toNat_add_one_u16] at this
  have := x.isLt
  omega

/-- A wrapping difference of zero: the two indices are equal. -/
theorem eq_of_sub_toNat_eq_zero {a n : BitVec 16} (h : (a - n).toNat = 0) : n = a :=
  (sub_eq_zero.mp (BitVec.eq_of_toNat_eq h : _ = (0 : BitVec 16))).symm

/-- One step down a wrapping difference `a - n = d + 1`: the indices differ, and advancing `n`
leaves `d`. -/
theorem sub_toNat_succ {a n : BitVec 16} {d : Nat} (h : (a - n).toNat = d + 1) :
    n ≠ a ∧ (a - (n + 1)).toNat = d := by
  refine ⟨fun hna => ?_, ?_⟩
  · rw [hna, BitVec.sub_self] at h
    cases h
  · have := n.isLt
    have := a.isLt
    have := toNat_add_one_u16 n
    rw [BitVec.toNat_sub] at h ⊢
    omega

/-- `u64::from` of a `u16` keeps its value. -/
@[simp] theorem toNat_setWidth_u16 (x : BitVec 16) : (x.setWidth 64).toNat = x.toNat := by
  have := x.isLt
  rw [BitVec.toNat_setWidth, Nat.mod_eq_of_lt (by omega)]

theorem toNat_pos_of_ne_zero {w : Nat} {x : BitVec w} (h : x ≠ 0) : 0 < x.toNat := by
  rw [Nat.pos_iff_ne_zero]
  exact fun h0 => h (BitVec.eq_of_toNat_eq (by simp [h0]))

/-! ### Powers of two

`set_size` tests for a power of two with `size & (size - 1) == 0`. -/

theorem two_mul_and_two_mul_add_one (a b : Nat) : (2 * a) &&& (2 * b + 1) = 2 * (a &&& b) := by
  have h := Nat.land_bit false a true b
  simp only [Nat.bit_false, Nat.bit_true, Bool.false_and] at h
  exact h

theorem two_mul_add_one_and_two_mul (a b : Nat) : (2 * a + 1) &&& (2 * b) = 2 * (a &&& b) := by
  have h := Nat.land_bit true a false b
  simp only [Nat.bit_false, Nat.bit_true, Bool.and_false] at h
  exact h

/-- A positive `n` with `n &&& (n - 1) = 0` is a power of two. -/
theorem isPowerOfTwo_of_and_pred {n : Nat} (hn : 0 < n) (h : n &&& (n - 1) = 0) :
    n.isPowerOfTwo := by
  induction n using Nat.strong_induction_on with
  | _ n ih =>
    obtain ⟨m, rfl | rfl⟩ : ∃ m, n = 2 * m ∨ n = 2 * m + 1 := ⟨n / 2, by omega⟩
    · -- an even `n` is twice a power of two
      have hpred : 2 * m - 1 = 2 * (m - 1) + 1 := by omega
      rw [hpred, two_mul_and_two_mul_add_one] at h
      obtain ⟨k, hk⟩ := ih m (by omega) (by omega) (by omega)
      exact ⟨k + 1, by rw [hk, Nat.pow_succ, Nat.mul_comm]⟩
    · -- an odd `n` shares all its bits but the last with `n - 1`, so it is `1`
      rw [Nat.add_sub_cancel, two_mul_add_one_and_two_mul, Nat.and_self] at h
      exact ⟨0, by omega⟩

/-- The `u16` form of the test. -/
theorem isPowerOfTwo_of_and_sub_one {x : BitVec 16} (hx : x ≠ 0) (h : x &&& (x - 1) = 0) :
    x.toNat.isPowerOfTwo := by
  have hpos := toNat_pos_of_ne_zero hx
  apply isPowerOfTwo_of_and_pred hpos
  have hsub : (x - 1).toNat = x.toNat - 1 := by
    have := x.isLt
    rw [BitVec.toNat_sub, toNat_one_u16]
    omega
  have h' := congrArg BitVec.toNat h
  rw [BitVec.toNat_and, hsub] at h'
  exact h'

/-! ### Guest addresses -/

/-- vm-memory's `GuestAddress(u64)`. -/
structure GuestAddress where
  /-- The address as a `u64`, `raw_value()`. -/
  rawValue : BitVec 64
  deriving DecidableEq, Repr

namespace GuestAddress

/-- `checked_add`: the sum, unless it overflows a `u64`. -/
def checkedAdd (a : GuestAddress) (off : BitVec 64) : Option GuestAddress :=
  if a.rawValue.toNat + off.toNat < 2 ^ 64 then some ⟨a.rawValue + off⟩ else none

/-- `mask`: the bits of the address selected by `m`. -/
def mask (a : GuestAddress) (m : BitVec 64) : BitVec 64 := a.rawValue &&& m

/-- The address as a natural number. -/
def toNat (a : GuestAddress) : Nat := a.rawValue.toNat

theorem toNat_lt (a : GuestAddress) : a.toNat < 2 ^ 64 := a.rawValue.isLt

@[simp] theorem toNat_mk (v : BitVec 64) : (⟨v⟩ : GuestAddress).toNat = v.toNat := rfl

theorem ext_toNat {a b : GuestAddress} (h : a.toNat = b.toNat) : a = b := by
  cases a; cases b
  exact congrArg _ (BitVec.eq_of_toNat_eq h)

/-- `checked_add` succeeds exactly when the sum stays below `2 ^ 64`, and then adds. -/
theorem checkedAdd_eq_some {a b : GuestAddress} {off : BitVec 64} :
    a.checkedAdd off = some b ↔ a.toNat + off.toNat < 2 ^ 64 ∧ b.toNat = a.toNat + off.toNat := by
  obtain ⟨b⟩ := b
  unfold checkedAdd toNat
  split
  · next h =>
    have hsum : (a.rawValue + off).toNat = a.rawValue.toNat + off.toNat := by
      rw [BitVec.toNat_add, Nat.mod_eq_of_lt h]
    simp only [Option.some.injEq, mk.injEq, h, true_and]
    exact ⟨fun hb => hb ▸ hsum, fun hb => BitVec.eq_of_toNat_eq (hsum.trans hb.symm)⟩
  · next h =>
    simp only [reduceCtorEq, false_iff, not_and]
    exact fun h' => absurd h' h

theorem checkedAdd_eq_none {a : GuestAddress} {off : BitVec 64} :
    a.checkedAdd off = none ↔ 2 ^ 64 ≤ a.toNat + off.toNat := by
  unfold checkedAdd toNat
  split
  · next h => simp only [reduceCtorEq, false_iff, Nat.not_le]; exact h
  · next h => simp only [true_iff]; omega

/-- `checked_add` of an offset that stays in range gives the plain sum. -/
theorem checkedAdd_ofNat {a : GuestAddress} {n m : Nat} (h : a.toNat + n < 2 ^ 64)
    (hm : m = a.toNat + n) : a.checkedAdd (BitVec.ofNat 64 n) = some ⟨BitVec.ofNat 64 m⟩ := by
  rw [checkedAdd_eq_some]
  simp only [toNat, BitVec.toNat_ofNat] at *
  omega

end GuestAddress

/-! ### Rust's panicking arithmetic -/

namespace Rust

/-- `a % b` on `u16`; Rust panics when `b` is zero. -/
def remU16 (a b : BitVec 16) : Option (BitVec 16) := if b = 0 then none else some (a % b)

/-- `a - b` on `u16` outside `Wrapping`; Rust panics below zero. -/
def subU16 (a b : BitVec 16) : Option (BitVec 16) := if b ≤ a then some (a - b) else none

/-- `a + b` on `u64`; Rust panics on overflow. -/
def addU64 (a b : BitVec 64) : Option (BitVec 64) :=
  if a.toNat + b.toNat < 2 ^ 64 then some (a + b) else none

/-- `a * b` on `u64`; Rust panics on overflow. -/
def mulU64 (a b : BitVec 64) : Option (BitVec 64) :=
  if a.toNat * b.toNat < 2 ^ 64 then some (a * b) else none

theorem addU64_eq_ofNat {a b : BitVec 64} (h : a.toNat + b.toNat < 2 ^ 64) :
    addU64 a b = some (BitVec.ofNat 64 (a.toNat + b.toNat)) := by
  simp only [addU64, h, if_true, Option.some.injEq]
  exact BitVec.eq_of_toNat_eq (by simp [Nat.mod_eq_of_lt h])

theorem mulU64_eq_ofNat {a b : BitVec 64} (h : a.toNat * b.toNat < 2 ^ 64) :
    mulU64 a b = some (BitVec.ofNat 64 (a.toNat * b.toNat)) := by
  simp only [mulU64, h, if_true, Option.some.injEq]
  exact BitVec.eq_of_toNat_eq (by simp [Nat.mod_eq_of_lt h])

/-- `a + b * c` in `u64` does not panic when the exact value fits. -/
theorem addU64_mulU64 {a b c : BitVec 64} (h : a.toNat + b.toNat * c.toNat < 2 ^ 64) :
    (mulU64 b c).bind (addU64 a ·) = some (BitVec.ofNat 64 (a.toNat + b.toNat * c.toNat)) := by
  have hmul : b.toNat * c.toNat < 2 ^ 64 := by omega
  rw [mulU64_eq_ofNat hmul, Option.some_bind, addU64_eq_ofNat]
  · rw [BitVec.toNat_ofNat, Nat.mod_eq_of_lt hmul]
  · rwa [BitVec.toNat_ofNat, Nat.mod_eq_of_lt hmul]

end Rust

end VirtioQueue
