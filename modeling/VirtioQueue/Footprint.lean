import VirtioQueue.Ops

/-!
# What the device writes

A split virtqueue divides guest memory between its two sides: the descriptor table and the
available ring belong to the driver, the used ring to the device.  Whatever the queue's fields
hold, ready or not, well formed or not, no call of `queue.rs` writes a byte of guest memory
outside the used ring, `[used_ring, used_ring + 6 + 8 * size)` from its `flags` to its
`avail_event`, and no call changes the memory's regions (`exec_writes_usedRing`).

A failed call may have written part of what it meant to: `write_obj` writes what is mapped
before it reports a short write, and `add_used` writes its element before it stores `idx`.
What it wrote is still inside the used ring, since every address is checked against overflow
before it is used.

## Main definitions

* `Queue.OffUsedRing` — a guest address outside the used ring.
* `UsedRingFrame` — two memories that differ only inside the used ring.

## Main results

* `UsedRingFrame.store`, `UsedRingFrame.writeObj` — the two kinds of write, inside the ring.
* `Queue.addUsed_frame`, `Queue.setNotification_frame` — the calls that write.
* `exec_writes_usedRing` — **the device writes only the used ring.**
-/

namespace VirtioQueue

/-- A `store` changes no byte outside the halfword it stores. -/
theorem GuestMemoryMmap.store_bytes_of_lt (m : GuestMemoryMmap) (v : BitVec 16)
    {addr : GuestAddress} {i : Nat} (h : i < addr.toNat ∨ addr.toNat + 2 ≤ i) :
    (m.store v addr).2.bytes i = m.bytes i := by
  rcases m.store_mem v addr with e | e <;> rw [e]
  simp only [GuestMemoryMmap.write16]
  rw [if_neg (by omega), if_neg (by omega)]

/-- The guest address `a` lies outside the used ring of `q`, which runs from its `flags` to
its `avail_event`. -/
def Queue.OffUsedRing (q : Queue) (a : Nat) : Prop :=
  a < q.usedRing.toNat ∨ q.usedRing.toNat + 6 + 8 * q.size.toNat ≤ a

/-- `mem'` is `mem` outside the used ring of `q`, over the same regions. -/
structure UsedRingFrame (q : Queue) (mem mem' : GuestMemoryMmap) : Prop where
  regions : mem'.regions = mem.regions
  bytes : ∀ a, q.OffUsedRing a → mem'.bytes a = mem.bytes a

namespace UsedRingFrame

variable {q : Queue} {mem mem₁ mem₂ : GuestMemoryMmap}

theorem refl : UsedRingFrame q mem mem := ⟨rfl, fun _ _ => rfl⟩

theorem trans (h₁ : UsedRingFrame q mem mem₁) (h₂ : UsedRingFrame q mem₁ mem₂) :
    UsedRingFrame q mem mem₂ :=
  ⟨h₂.regions.trans h₁.regions, fun a ha => (h₂.bytes a ha).trans (h₁.bytes a ha)⟩

/-- A `store` of a halfword inside the used ring. -/
theorem store {addr : GuestAddress} (h₁ : q.usedRing.toNat ≤ addr.toNat)
    (h₂ : addr.toNat + 2 ≤ q.usedRing.toNat + 6 + 8 * q.size.toNat) (v : BitVec 16) :
    UsedRingFrame q mem (mem.store v addr).2 :=
  ⟨mem.regions_store v addr,
    fun _ ha => mem.store_bytes_of_lt v (by unfold Queue.OffUsedRing at ha; omega)⟩

/-- A `write_obj` of an object inside the used ring, whatever it returns. -/
theorem writeObj {addr : GuestAddress} (bs : List (BitVec 8))
    (h₁ : q.usedRing.toNat ≤ addr.toNat)
    (h₂ : addr.toNat + bs.length ≤ q.usedRing.toNat + 6 + 8 * q.size.toNat) :
    UsedRingFrame q mem (mem.writeObj bs addr).2 :=
  ⟨mem.regions_writeObj bs addr,
    fun _ ha => mem.writeObj_bytes_of_lt bs (by unfold Queue.OffUsedRing at ha; omega)⟩

end UsedRingFrame

namespace Queue

variable {q : Queue} {mem mem' : GuestMemoryMmap}

/-- `set_used_flags` writes the used ring's `flags`. -/
theorem setUsedFlags_frame (v : BitVec 16) : UsedRingFrame q mem (q.setUsedFlags mem v).2 :=
  .store (Nat.le_refl _) (by omega) v

/-- `set_avail_event` writes the used ring's `avail_event`, or nothing when its address
overflows. -/
theorem setAvailEvent_frame {v : BitVec 16} {r : Except Error Unit}
    (h : q.setAvailEvent mem v = some (r, mem')) : UsedRingFrame q mem mem' := by
  have hs := q.size.isLt
  simp only [setAvailEvent, availEventOffset_eq, Option.bind_eq_bind, Option.some_bind,
    Option.pure_def, Option.some.injEq] at h
  split at h
  · cases h
    exact .refl
  · next addr haddr =>
    cases h
    obtain ⟨-, ha⟩ := GuestAddress.checkedAdd_eq_some.mp haddr
    rw [BitVec.toNat_ofNat, Nat.mod_eq_of_lt (by omega)] at ha
    exact .store (by omega) (by omega) v

/-- `set_notification` writes `flags` or `avail_event`, or nothing. -/
theorem setNotification_frame {enable : Bool} {r : Except Error Unit}
    (h : q.setNotification mem enable = some (r, mem')) : UsedRingFrame q mem mem' := by
  unfold setNotification at h
  split_ifs at h
  · exact setAvailEvent_frame h
  · cases h
    exact setUsedFlags_frame _
  · cases h
    exact setUsedFlags_frame _
  · cases h
    exact .refl

/-- `enable_notification` writes what `set_notification` writes, and then only reads. -/
theorem enableNotification_frame {r : Except Error Bool}
    (h : q.enableNotification mem = some (r, mem')) : UsedRingFrame q mem mem' := by
  obtain ⟨⟨r₁, mem₁⟩, h₁, h₂⟩ := Option.bind_eq_some.mp h
  have hf := setNotification_frame h₁
  cases r₁ <;> (cases h₂; exact hf)

/-- `add_used` at an element `offset` inside the used ring writes the element and then `idx`,
each as far as it gets. -/
theorem addUsedAtOffset_frame (headIndex : BitVec 16) (len : BitVec 32) {offset : BitVec 64}
    (hoff : offset.toNat + 8 ≤ 6 + 8 * q.size.toNat) :
    UsedRingFrame q mem (q.addUsedAtOffset mem headIndex len offset).2.2 := by
  unfold addUsedAtOffset
  split
  · exact .refl
  · next addr haddr =>
    obtain ⟨-, ha⟩ := GuestAddress.checkedAdd_eq_some.mp haddr
    have hw : UsedRingFrame q mem
        (mem.writeObj (VirtqUsedElem.new (headIndex.setWidth 32) len).toBytes addr).2 :=
      .writeObj _ (by omega) (by rw [VirtqUsedElem.length_toBytes]; omega)
    split
    · next e mem₁ hm =>
      rw [hm] at hw
      exact hw
    · next mem₁ hm =>
      rw [hm] at hw
      dsimp only
      split
      · exact hw
      · next idxAddr hidx =>
        obtain ⟨-, hi⟩ := GuestAddress.checkedAdd_eq_some.mp hidx
        have hi' : idxAddr.toNat = q.usedRing.toNat + 2 := hi
        exact hw.trans (.store (by omega) (by omega) _)

/-- `add_used` writes only the used ring: its slot `next_used % size` and `idx`. -/
theorem addUsed_frame {headIndex : BitVec 16} {len : BitVec 32} {q' : Queue}
    {r : Except Error Unit} (h : q.addUsed mem headIndex len = some (r, q', mem')) :
    UsedRingFrame q mem mem' := by
  by_cases hh : q.size ≤ headIndex
  · rw [addUsed_of_le hh, Option.some.injEq, Prod.mk.injEq, Prod.mk.injEq] at h
    exact h.2.2 ▸ .refl
  · have hlt := BitVec.not_le.mp hh
    have hpos : 0 < q.size.toNat := Nat.lt_of_le_of_lt (Nat.zero_le _) (BitVec.lt_def.mp hlt)
    have hm := Nat.mod_lt q.nextUsed.toNat hpos
    rw [addUsed_of_lt hlt, Option.some.injEq] at h
    have e : (q.addUsedAtOffset mem headIndex len
        (BitVec.ofNat 64 (4 + q.nextUsed.toNat % q.size.toNat * 8))).2.2 = mem' :=
      congrArg (·.2.2) h
    refine e ▸ addUsedAtOffset_frame headIndex len ?_
    rw [BitVec.toNat_ofNat, Nat.mod_eq_of_lt (by have := q.size.isLt; omega)]
    omega

end Queue

/-- **The device writes only the used ring.**  Whatever the queue's fields hold, every call of
the API, against any guest memory, leaves the memory's regions, and every byte outside
`[used_ring, used_ring + 6 + 8 * size)`, as they were: the descriptor table and the available
ring, wherever they lie apart from it, are only ever read. -/
theorem exec_writes_usedRing {q q' : Queue} {mem mem' : GuestMemoryMmap} {op : Op}
    {r : Except Error Ret} (h : q.exec mem op = some (r, q', mem')) :
    mem'.regions = mem.regions ∧
      ∀ a, a < q.usedRing.toNat ∨ q.usedRing.toNat + 6 + 8 * q.size.toNat ≤ a →
        mem'.bytes a = mem.bytes a := by
  suffices hf : UsedRingFrame q mem mem' from ⟨hf.regions, hf.bytes⟩
  cases op with
  | addUsed _ _ =>
    obtain ⟨⟨_, _, _⟩, hr, ⟨⟩⟩ := Option.map_eq_some'.mp h
    exact Queue.addUsed_frame hr
  | enableNotification =>
    obtain ⟨⟨_, _⟩, hr, ⟨⟩⟩ := Option.map_eq_some'.mp h
    exact Queue.enableNotification_frame hr
  | disableNotification =>
    obtain ⟨⟨_, _⟩, hr, ⟨⟩⟩ := Option.map_eq_some'.mp h
    exact Queue.setNotification_frame hr
  | setSize _ | isValid | needsNotification | next _ | popDescriptorChain =>
    obtain ⟨_, -, ⟨⟩⟩ := Option.map_eq_some'.mp h
    exact .refl
  | setDescTableAddress _ _ | setAvailRingAddress _ _ | setUsedRingAddress _ _ | setReady _
  | setEventIdx _ | setNextAvail _ | setNextUsed _ | reset | availIdx | usedIdx | iter
  | goToPreviousPosition =>
    simp only [Queue.exec, Option.some.injEq, Prod.mk.injEq] at h
    exact h.2.2 ▸ .refl

/-- `disable_notification` without `EVENT_IDX` stores `VRING_USED_F_NO_NOTIFY` into the used
ring's `flags`, and nothing else. -/
theorem exec_writes_usedRing_flags :
    let q : Queue := { Queue.new 2 with availRing := ⟨0x100⟩, usedRing := ⟨0x200⟩ }
    let mem : GuestMemoryMmap := ⟨[⟨0, 0x1000⟩], fun _ => 0⟩
    q.exec mem .disableNotification = some (.ok .unit, q, mem.write16 0x200 1) ∧
      (mem.write16 0x200 1).regions = mem.regions ∧
      ∀ a, a < 0x200 ∨ 0x200 + 6 + 8 * 2 ≤ a → (mem.write16 0x200 1).bytes a = mem.bytes a :=
  have h : Queue.exec { Queue.new 2 with availRing := ⟨0x100⟩, usedRing := ⟨0x200⟩ }
      ⟨[⟨0, 0x1000⟩], fun _ => 0⟩ .disableNotification =
        some (.ok .unit, { Queue.new 2 with availRing := ⟨0x100⟩, usedRing := ⟨0x200⟩ },
          GuestMemoryMmap.write16 ⟨[⟨0, 0x1000⟩], fun _ => 0⟩ 0x200 1) := rfl
  ⟨h, exec_writes_usedRing h⟩

end VirtioQueue
