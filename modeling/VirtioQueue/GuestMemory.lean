import VirtioQueue.Defs

/-!
# Guest memory

The queue reaches the rings only through vm-memory's `GuestMemory` capability.  The model is
`GuestMemoryMmap`: a list of mapped regions and the contents of the guest physical address
space, one byte per address.  It provides the four accesses the queue makes.

* `load` and `store` are the atomic `u16` accesses (`GuestMemory::load`/`store`).  The region
  holding the first byte must hold both bytes, and the access must be 2-byte aligned within
  the region (`VolatileSlice::get_atomic_ref`); the region's host mapping is page aligned,
  so that is the alignment of the host address.  A failed `store` writes nothing.
* `writeObj` is the non-atomic `Bytes::write_obj`: it writes byte after byte, across adjacent
  regions, and stops at the first unmapped byte, reporting a partial write (`try_access`).
* `addressInRange` is `GuestMemory::address_in_range`.

Multi-byte values are little-endian.  `load` returns the value the bytes encode, which is
`u16::from_le` of what the hardware load returns on any host, so `to_le`/`from_le` disappear.

## Main definitions

* `GuestRegion`, `GuestMemoryMmap`, `GuestMemoryError`.
* `GuestMemoryMmap.read16`, `GuestMemoryMmap.write16` — raw little-endian halfwords.
* `GuestMemoryMmap.readBytes`, `fromLeBytes` — what a reader of guest memory sees.
* `GuestMemoryMmap.load`, `.store`, `.writeObj`, `.addressInRange` — the accesses.
* `GuestMemoryMmap.RegionsDisjoint` — the regions share no byte, as `from_ranges` requires.

## Main results

* `read16_write16_self`, `read16_write16_of_disjoint` — a halfword reads back what was
  written, and writing one halfword leaves every disjoint one alone.
* `store_eq`, `load_eq` — what a successful access does, stated once for all callers.
* `checkAtomic_of_region` — an aligned access inside one region passes its checks.
* `readBytes_writeObj`, `writeObj_bytes_of_lt`, `writeObj_ok` — a successful `write_obj` is
  read back, changes no other byte, and succeeds when every byte it writes is mapped.
-/

namespace VirtioQueue

/-- One mapped region: `len` bytes of guest physical memory from `start`. -/
structure GuestRegion where
  /-- The guest address of the first byte. -/
  start : Nat
  /-- The number of bytes. -/
  len : Nat
  deriving DecidableEq, Repr

/-- The byte at `a` lies in the region. -/
def GuestRegion.contains (r : GuestRegion) (a : Nat) : Bool := r.start ≤ a && a < r.start + r.len

/-- vm-memory's `GuestMemoryError`, as far as the accesses of the queue can raise it. -/
inductive GuestMemoryError where
  /-- No region holds the address. -/
  | invalidGuestAddress (addr : GuestAddress)
  /-- A `write_obj` wrote only `completed` of its `expected` bytes. -/
  | partialBuffer (expected completed : Nat)
  /-- An atomic access runs past the end of its region (at this region offset). -/
  | outOfBounds (offset : Nat)
  /-- An atomic access is not aligned to its width. -/
  | misaligned (offset alignment : Nat)
  deriving DecidableEq, Repr

/-- Guest memory: the mapped regions and the byte at every guest physical address. -/
structure GuestMemoryMmap where
  /-- The mapped regions, in the order `find_region` searches them. -/
  regions : List GuestRegion
  /-- The contents of guest memory. -/
  bytes : Nat → BitVec 8

namespace GuestMemoryMmap

/-! ### Raw bytes -/

/-- The little-endian halfword held by the bytes at `a` and `a + 1`. -/
def read16 (m : GuestMemoryMmap) (a : Nat) : BitVec 16 :=
  BitVec.ofNat 16 ((m.bytes a).toNat + 256 * (m.bytes (a + 1)).toNat)

/-- Write `v` little-endian into the bytes at `a` and `a + 1`. -/
def write16 (m : GuestMemoryMmap) (a : Nat) (v : BitVec 16) : GuestMemoryMmap :=
  { m with
    bytes := fun i =>
      if i = a then BitVec.ofNat 8 v.toNat
      else if i = a + 1 then BitVec.ofNat 8 (v.toNat / 256)
      else m.bytes i }

/-- Write one byte. -/
def writeByte (m : GuestMemoryMmap) (a : Nat) (b : BitVec 8) : GuestMemoryMmap :=
  { m with bytes := fun i => if i = a then b else m.bytes i }

/-- The little-endian bytes of the `w`-byte value `n`. -/
def leBytes : Nat → Nat → List (BitVec 8)
  | 0, _ => []
  | w + 1, n => BitVec.ofNat 8 n :: leBytes w (n / 256)

/-- The value of little-endian bytes. -/
def fromLeBytes : List (BitVec 8) → Nat
  | [] => 0
  | b :: bs => b.toNat + 256 * fromLeBytes bs

/-- The `w` bytes from `a`, as a reader of guest memory sees them. -/
def readBytes (m : GuestMemoryMmap) (a : Nat) : Nat → List (BitVec 8)
  | 0 => []
  | w + 1 => m.bytes a :: m.readBytes (a + 1) w

@[simp] theorem length_leBytes (w n : Nat) : (leBytes w n).length = w := by
  induction w generalizing n with
  | zero => rfl
  | succ w ih => simp only [leBytes, List.length_cons, ih]

/-- Decoding the encoding of a `w`-byte value gives it back, reduced modulo `256 ^ w`. -/
theorem fromLeBytes_leBytes (w n : Nat) : fromLeBytes (leBytes w n) = n % 256 ^ w := by
  induction w generalizing n with
  | zero => exact (Nat.mod_one n).symm
  | succ w ih =>
    rw [leBytes, fromLeBytes, ih, BitVec.toNat_ofNat, show 256 ^ (w + 1) = 256 * 256 ^ w from
      Nat.pow_succ', Nat.mod_mul]

/-- A reader sees only the bytes it reads. -/
theorem readBytes_congr {m m' : GuestMemoryMmap} {a w : Nat}
    (h : ∀ i, a ≤ i → i < a + w → m'.bytes i = m.bytes i) : m'.readBytes a w = m.readBytes a w := by
  induction w generalizing a with
  | zero => rfl
  | succ w ih =>
    simp only [readBytes]
    rw [h a (Nat.le_refl a) (by omega), ih fun i h1 h2 => h i (by omega) (by omega)]

@[simp] theorem regions_write16 (m : GuestMemoryMmap) (a : Nat) (v : BitVec 16) :
    (m.write16 a v).regions = m.regions := rfl

@[simp] theorem regions_writeByte (m : GuestMemoryMmap) (a : Nat) (b : BitVec 8) :
    (m.writeByte a b).regions = m.regions := rfl

/-- A halfword reads back what was written to it. -/
@[simp] theorem read16_write16_self (m : GuestMemoryMmap) (a : Nat) (v : BitVec 16) :
    (m.write16 a v).read16 a = v := by
  apply BitVec.eq_of_toNat_eq
  have hv := v.isLt
  simp only [read16, write16, if_true, Nat.add_right_eq_self, one_ne_zero, if_false,
    BitVec.toNat_ofNat]
  omega

/-- Writing a halfword leaves every halfword that shares no byte with it unchanged. -/
theorem read16_write16_of_disjoint (m : GuestMemoryMmap) {a b : Nat} (v : BitVec 16)
    (h : a + 2 ≤ b ∨ b + 2 ≤ a) : (m.write16 a v).read16 b = m.read16 b := by
  have h1 : b ≠ a := by omega
  have h2 : b ≠ a + 1 := by omega
  have h3 : b + 1 ≠ a := by omega
  have h4 : b + 1 ≠ a + 1 := by omega
  simp only [read16, write16, h1, h2, h3, h4, if_false]

/-! ### Accesses -/

/-- `find_region`: the first region holding the byte at `a`. -/
def findRegion (m : GuestMemoryMmap) (a : Nat) : Option GuestRegion :=
  m.regions.find? (·.contains a)

/-- `address_in_range`: some region holds the byte at `addr`. -/
def addressInRange (m : GuestMemoryMmap) (addr : GuestAddress) : Bool :=
  m.regions.any (·.contains addr.toNat)

/-- The checks of an atomic access of `width` bytes at `addr`: the region holding `addr`
must hold the whole access, and the access must be aligned to `width` in that region. -/
def checkAtomic (m : GuestMemoryMmap) (addr : GuestAddress) (width : Nat) :
    Except GuestMemoryError Unit :=
  match m.findRegion addr.toNat with
  | none => .error (.invalidGuestAddress addr)
  | some r =>
    if r.start + r.len < addr.toNat + width then .error (.outOfBounds (addr.toNat - r.start))
    else if (addr.toNat - r.start) % width ≠ 0 then
      .error (.misaligned (addr.toNat - r.start) width)
    else .ok ()

/-- No two regions share a byte, as `GuestMemoryMmap::from_ranges` requires of its ranges. -/
def RegionsDisjoint (m : GuestMemoryMmap) : Prop :=
  m.regions.Pairwise fun r s => r.start + r.len ≤ s.start ∨ s.start + s.len ≤ r.start

/-- With disjoint regions, `find_region` finds the region that holds the byte. -/
theorem findRegion_of_mem {m : GuestMemoryMmap} (hd : m.RegionsDisjoint) {r : GuestRegion}
    (hr : r ∈ m.regions) {a : Nat} (ha : r.contains a = true) : m.findRegion a = some r := by
  obtain ⟨rs, bytes⟩ := m
  unfold findRegion
  unfold RegionsDisjoint at hd
  dsimp only at hd hr ⊢
  induction rs with
  | nil => cases hr
  | cons s rs ih =>
    rw [List.pairwise_cons] at hd
    rcases List.mem_cons.mp hr with rfl | hr'
    · exact List.find?_cons_of_pos _ ha
    · have hs : ¬ s.contains a = true := by
        have := hd.1 r hr'
        simp only [GuestRegion.contains, Bool.and_eq_true, decide_eq_true_eq] at ha ⊢
        omega
      rw [@List.find?_cons_of_neg _ (·.contains a) s rs hs, ih hd.2 hr']

/-- An aligned atomic access inside one region of a memory with disjoint regions passes its
checks. -/
theorem checkAtomic_of_region {m : GuestMemoryMmap} (hd : m.RegionsDisjoint) {r : GuestRegion}
    (hr : r ∈ m.regions) {addr : GuestAddress} {w : Nat} (hw : 0 < w) (h1 : r.start ≤ addr.toNat)
    (h2 : addr.toNat + w ≤ r.start + r.len) (hal : (addr.toNat - r.start) % w = 0) :
    m.checkAtomic addr w = .ok () := by
  have hc : r.contains addr.toNat = true := by
    simp only [GuestRegion.contains, Bool.and_eq_true, decide_eq_true_eq]
    omega
  simp only [checkAtomic, findRegion_of_mem hd hr hc, if_neg (Nat.not_lt.mpr h2), hal,
    ne_eq, not_true_eq_false, if_false]

/-- The checks of an atomic access read only the regions. -/
theorem checkAtomic_of_regions {m m' : GuestMemoryMmap} (h : m'.regions = m.regions)
    (addr : GuestAddress) (width : Nat) : m'.checkAtomic addr width = m.checkAtomic addr width := by
  simp only [checkAtomic, findRegion, h]

/-- `GuestMemory::load::<u16>` followed by `u16::from_le`. -/
def load (m : GuestMemoryMmap) (addr : GuestAddress) : Except GuestMemoryError (BitVec 16) :=
  (m.checkAtomic addr 2).map fun _ => m.read16 addr.toNat

/-- `GuestMemory::store::<u16>` of `u16::to_le(v)`; a failed store writes nothing. -/
def store (m : GuestMemoryMmap) (v : BitVec 16) (addr : GuestAddress) :
    Except GuestMemoryError Unit × GuestMemoryMmap :=
  match m.checkAtomic addr 2 with
  | .error e => (.error e, m)
  | .ok () => (.ok (), m.write16 addr.toNat v)

/-- Write `bs` from `a` on while the bytes are mapped; the memory and the count written. -/
def writeBytes (m : GuestMemoryMmap) (a : Nat) : List (BitVec 8) → GuestMemoryMmap × Nat
  | [] => (m, 0)
  | b :: bs =>
    if m.regions.any (·.contains a) then
      let r := (m.writeByte a b).writeBytes (a + 1) bs
      (r.1, r.2 + 1)
    else (m, 0)

/-- `writeBytes` changes no byte outside the run it writes. -/
theorem writeBytes_bytes_of_lt (m : GuestMemoryMmap) {a i : Nat} (bs : List (BitVec 8))
    (h : i < a ∨ a + bs.length ≤ i) : (m.writeBytes a bs).1.bytes i = m.bytes i := by
  induction bs generalizing m a with
  | nil => rfl
  | cons b bs ih =>
    simp only [writeBytes]
    split
    · rw [ih _ (by simp only [List.length_cons] at h; omega)]
      simp only [writeByte]
      rw [if_neg (by simp only [List.length_cons] at h; omega)]
    · rfl

/-- When `writeBytes` writes all its bytes, a reader finds them. -/
theorem readBytes_writeBytes (m : GuestMemoryMmap) (a : Nat) (bs : List (BitVec 8))
    (h : (m.writeBytes a bs).2 = bs.length) : (m.writeBytes a bs).1.readBytes a bs.length = bs := by
  induction bs generalizing m a with
  | nil => rfl
  | cons b bs ih =>
    by_cases hm : m.regions.any (·.contains a) = true
    · have e : m.writeBytes a (b :: bs) = (((m.writeByte a b).writeBytes (a + 1) bs).1,
          ((m.writeByte a b).writeBytes (a + 1) bs).2 + 1) := by
        simp only [writeBytes, hm, if_true]
      rw [e] at h ⊢
      simp only [List.length_cons, Nat.add_right_cancel_iff] at h
      rw [List.length_cons, readBytes, ih _ _ h,
        writeBytes_bytes_of_lt _ _ (.inl (Nat.lt_succ_self a))]
      simp only [writeByte, if_true]
    · have e : m.writeBytes a (b :: bs) = (m, 0) := by
        simp only [writeBytes, hm, Bool.false_eq_true, if_false]
      rw [e] at h
      cases h

/-- `Bytes::write_obj` of an object with bytes `bs`: `try_access` writes what is mapped from
`addr` on, and `write_slice` reports a short write. -/
def writeObj (m : GuestMemoryMmap) (bs : List (BitVec 8)) (addr : GuestAddress) :
    Except GuestMemoryError Unit × GuestMemoryMmap :=
  let r := m.writeBytes addr.toNat bs
  (if r.2 = bs.length then .ok ()
    else if r.2 = 0 then .error (.invalidGuestAddress addr)
    else .error (.partialBuffer bs.length r.2), r.1)

@[simp] theorem regions_writeBytes (m : GuestMemoryMmap) (a : Nat) (bs : List (BitVec 8)) :
    (m.writeBytes a bs).1.regions = m.regions := by
  induction bs generalizing m a with
  | nil => rfl
  | cons b bs ih =>
    simp only [writeBytes]
    split
    · exact (ih _ _).trans (regions_writeByte m a b)
    · rfl

@[simp] theorem regions_writeObj (m : GuestMemoryMmap) (bs : List (BitVec 8))
    (addr : GuestAddress) : (m.writeObj bs addr).2.regions = m.regions :=
  regions_writeBytes m _ bs

/-- `writeBytes` writes every byte when every byte it writes is mapped. -/
theorem writeBytes_count (m : GuestMemoryMmap) {a : Nat} (bs : List (BitVec 8))
    (h : ∀ i, a ≤ i → i < a + bs.length → m.regions.any (·.contains i) = true) :
    (m.writeBytes a bs).2 = bs.length := by
  induction bs generalizing m a with
  | nil => rfl
  | cons b bs ih =>
    simp only [List.length_cons] at h
    simp only [writeBytes, h a (Nat.le_refl a) (by omega), if_true, List.length_cons]
    rw [ih _ fun i h1 h2 => (regions_writeByte m a b).symm ▸ h i (by omega) (by omega)]

/-- `write_obj` succeeds when every byte of the object is mapped. -/
theorem writeObj_ok (m : GuestMemoryMmap) (bs : List (BitVec 8)) {addr : GuestAddress}
    (h : ∀ i, addr.toNat ≤ i → i < addr.toNat + bs.length → m.regions.any (·.contains i) = true) :
    (m.writeObj bs addr).1 = .ok () := by
  simp only [writeObj, writeBytes_count m bs h, if_true]

/-- A halfword whose two bytes kept their values reads the same. -/
theorem read16_congr {m m' : GuestMemoryMmap} {a : Nat} (h0 : m'.bytes a = m.bytes a)
    (h1 : m'.bytes (a + 1) = m.bytes (a + 1)) : m'.read16 a = m.read16 a := by
  simp only [read16, h0, h1]

/-- A successful `write_obj` wrote every byte. -/
theorem writeBytes_of_writeObj {m : GuestMemoryMmap} {bs : List (BitVec 8)} {addr : GuestAddress}
    (h : (m.writeObj bs addr).1 = .ok ()) : (m.writeBytes addr.toNat bs).2 = bs.length := by
  simp only [writeObj] at h
  split at h
  · assumption
  · split at h <;> cases h

/-- After a successful `write_obj`, a reader finds the object's bytes at `addr`. -/
theorem readBytes_writeObj {m : GuestMemoryMmap} {bs : List (BitVec 8)} {addr : GuestAddress}
    (h : (m.writeObj bs addr).1 = .ok ()) :
    (m.writeObj bs addr).2.readBytes addr.toNat bs.length = bs :=
  readBytes_writeBytes m _ bs (writeBytes_of_writeObj h)

/-- `write_obj` changes no byte outside the object. -/
theorem writeObj_bytes_of_lt (m : GuestMemoryMmap) (bs : List (BitVec 8)) {addr : GuestAddress}
    {i : Nat} (h : i < addr.toNat ∨ addr.toNat + bs.length ≤ i) :
    (m.writeObj bs addr).2.bytes i = m.bytes i :=
  writeBytes_bytes_of_lt m bs h

/-- What a successful `store` does. -/
theorem store_eq {m : GuestMemoryMmap} {v : BitVec 16} {addr : GuestAddress}
    (h : m.checkAtomic addr 2 = .ok ()) : m.store v addr = (.ok (), m.write16 addr.toNat v) := by
  simp only [store, h]

/-- A failed `store` changes nothing. -/
theorem store_eq_error {m : GuestMemoryMmap} {v : BitVec 16} {addr : GuestAddress}
    {e : GuestMemoryError} (h : m.checkAtomic addr 2 = .error e) :
    m.store v addr = (.error e, m) := by
  simp only [store, h]

/-- What a successful `load` returns. -/
theorem load_eq {m : GuestMemoryMmap} {addr : GuestAddress}
    (h : m.checkAtomic addr 2 = .ok ()) : m.load addr = .ok (m.read16 addr.toNat) := by
  simp only [load, h, Except.map]

/-- A `store` writes its halfword or nothing. -/
theorem store_mem (m : GuestMemoryMmap) (v : BitVec 16) (addr : GuestAddress) :
    (m.store v addr).2 = m ∨ (m.store v addr).2 = m.write16 addr.toNat v := by
  unfold store
  split
  · exact .inl rfl
  · exact .inr rfl

@[simp] theorem regions_store (m : GuestMemoryMmap) (v : BitVec 16) (addr : GuestAddress) :
    (m.store v addr).2.regions = m.regions := by
  unfold store
  split <;> rfl

end GuestMemoryMmap

end VirtioQueue
