import VirtioQueue.Queue

/-!
# The transfer as two channels

What a split virtqueue is for, said without its rings: the driver hands heads of descriptor
chains to the device through a first-in first-out channel; the device holds the chains it took
as long as it likes and hands each one back, with the number of bytes it wrote, through a
second first-in first-out channel; it may also give the chain it took last back to the front
of the first channel. The driver keeps at most `size` descriptors out, counting a head from the
moment it writes it into the available ring until it has taken its element back from the used
ring.

`Transfer` shows that the rings in guest memory, driven by `pop_descriptor_chain` and
`add_used`, behave as these channels. Everything about the order of the transfer is proved here,
over lists, once.

## Main definitions

* `Action` — a step of one side.
* `Channels`, `Channels.step`, `Channels.run` — the abstract transfer and its runs.
* `Channels.Inv` — what every run keeps.
* `Channels.finish` — the schedule that completes every transfer in progress.

## Main results

* `Channels.Inv.step`, `Channels.Inv.run` — first in, first out on both channels, and every
  head taken is returned at most once.
* `Channels.run_finish` — **finishing returns every head in progress to the driver.**
-/

namespace VirtioQueue

namespace Transfer

/-- A step of one side. -/
inductive Action where
  /-- The driver writes the head `h` into the available ring at its `idx`. -/
  | stage (h : BitVec 16)
  /-- The driver raises the available ring's `idx` past the staged head. -/
  | publish
  /-- The device calls `pop_descriptor_chain`. -/
  | pop
  /-- The device calls `go_to_previous_position` to give back the chain it took last. -/
  | unpop
  /-- The device calls `add_used` for its chain at `h`, reporting `len` bytes written. -/
  | complete (h : BitVec 16) (len : BitVec 32)
  /-- The driver reads the used ring's `idx`, and the next element if there is one. -/
  | reclaim
  deriving DecidableEq, Repr

/-- The element the device returns for its chain at `h` with `len` bytes written. -/
def usedElem (h : BitVec 16) (len : BitVec 32) : VirtqUsedElem :=
  VirtqUsedElem.new (h.setWidth 32) len

/-- The abstract transfer: what lies in each channel, what the device holds, and the histories
of both sides. -/
structure Channels where
  /-- The head the driver wrote and has not yet published. -/
  staged : Option (BitVec 16)
  /-- Every head the driver published, in order. -/
  published : List (BitVec 16)
  /-- Every head the device took and did not give back, in order. -/
  taken : List (BitVec 16)
  /-- The heads published and not yet taken, oldest first. -/
  avail : List (BitVec 16)
  /-- The heads taken and not yet returned. -/
  inflight : List (BitVec 16)
  /-- Every element the device returned, in order. -/
  returned : List VirtqUsedElem
  /-- Every element the driver reclaimed, in order. -/
  reclaimed : List VirtqUsedElem
  /-- The elements returned and not yet reclaimed, oldest first. -/
  used : List VirtqUsedElem
  deriving DecidableEq, Repr

namespace Channels

/-- Nothing transferred yet. -/
def init : Channels := ⟨none, [], [], [], [], [], [], []⟩

/-- The descriptors the driver has handed out and not reclaimed, the staged one included. -/
def outstanding (c : Channels) : Nat :=
  c.staged.toList.length + c.avail.length + c.inflight.length + c.used.length

/-- One step. A side whose step is not enabled does nothing: the driver stages only a head below
`size`, with a descriptor to spare and nothing staged, the device completes only a chain it
holds, and gives back only the chain it took last, while it holds it, to the front of the
pending heads. -/
def step (size : BitVec 16) (c : Channels) : Action → Channels
  | .stage h =>
    if c.staged = none ∧ c.outstanding < size.toNat ∧ h < size then { c with staged := some h }
    else c
  | .publish =>
    match c.staged with
    | none => c
    | some h => { c with staged := none, published := c.published ++ [h], avail := c.avail ++ [h] }
  | .pop =>
    match c.avail with
    | [] => c
    | h :: rest => { c with taken := c.taken ++ [h], avail := rest, inflight := c.inflight ++ [h] }
  | .unpop =>
    match c.taken.getLast? with
    | none => c
    | some h =>
      if h ∈ c.inflight then
        { c with taken := c.taken.dropLast, avail := h :: c.avail, inflight := c.inflight.erase h }
      else c
  | .complete h len =>
    if h ∈ c.inflight then
      { c with
        inflight := c.inflight.erase h
        returned := c.returned ++ [usedElem h len]
        used := c.used ++ [usedElem h len] }
    else c
  | .reclaim =>
    match c.used with
    | [] => c
    | e :: rest => { c with reclaimed := c.reclaimed ++ [e], used := rest }

/-- The steps of a schedule, one after another. -/
def run (size : BitVec 16) (c : Channels) : List Action → Channels
  | [] => c
  | a :: as => (c.step size a).run size as

variable {size : BitVec 16} {c : Channels}

@[simp] theorem run_nil : c.run size [] = c := rfl

@[simp] theorem run_cons (a : Action) (as : List Action) :
    c.run size (a :: as) = (c.step size a).run size as := rfl

theorem run_append (l₁ l₂ : List Action) :
    c.run size (l₁ ++ l₂) = (c.run size l₁).run size l₂ := by
  induction l₁ generalizing c with
  | nil => rfl
  | cons a as ih => exact ih

/-- A pop takes the oldest head pending, whenever there is one. -/
theorem step_pop_taken : (c.step size .pop).taken = c.taken ++ c.avail.take 1 := by
  cases h : c.avail <;> simp [step, h]

/-- Giving back the chain taken last and popping again takes the same head: only the order of
the chains in flight changes. -/
theorem step_unpop_pop {h : BitVec 16} (hl : c.taken.getLast? = some h) (hin : h ∈ c.inflight) :
    (c.step size .unpop).step size .pop = { c with inflight := c.inflight.erase h ++ [h] } := by
  obtain ⟨t, ht⟩ := List.getLast?_eq_some_iff.mp hl
  simp only [step, hl, if_pos hin]
  simp only [ht, List.dropLast_concat]

/-- A reclaim takes the oldest element pending, whenever there is one. -/
theorem step_reclaim_reclaimed :
    (c.step size .reclaim).reclaimed = c.reclaimed ++ c.used.take 1 := by
  cases h : c.used <;> simp [step, h]

/-! ### The invariant -/

/-- What every run keeps: the heads out are below `size`, at most `size` descriptors are out,
each channel is first in, first out, and the heads returned and in flight are those taken. -/
structure Inv (size : BitVec 16) (c : Channels) : Prop where
  heads : ∀ h ∈ c.staged.toList ++ c.avail ++ c.inflight, h < size
  budget : c.outstanding ≤ size.toNat
  taken_avail : c.taken ++ c.avail = c.published
  reclaimed_used : c.reclaimed ++ c.used = c.returned
  completions : (c.returned.map (·.id) ++ c.inflight.map (·.setWidth 32)).Perm
    (c.taken.map (·.setWidth 32))

theorem Inv.init : init.Inv size :=
  ⟨fun _ h => (nomatch h), Nat.zero_le _, rfl, rfl, .nil⟩

section Steps

variable (hc : c.Inv size)
include hc

theorem Inv.stage (x : BitVec 16) : (c.step size (.stage x)).Inv size := by
  simp only [step]
  split_ifs with hg
  · obtain ⟨hst, hout, hx⟩ := hg
    refine { hc with heads := fun y hy => ?_, budget := ?_ }
    · simp only [List.mem_append, Option.toList_some, List.mem_singleton] at hy
      rcases hy with (rfl | hy) | hy
      · exact hx
      all_goals exact hc.heads y (by simp [hy])
    · simp only [outstanding, hst, Option.toList_some, Option.toList_none, List.length_singleton,
        List.length_nil] at hout ⊢
      omega
  · exact hc

theorem Inv.publish : (c.step size .publish).Inv size := by
  simp only [step]
  split
  · exact hc
  · next x hst =>
    refine ⟨fun y hy => hc.heads y ?_, ?_, ?_, hc.reclaimed_used, hc.completions⟩
    · simp only [List.mem_append, Option.toList_none, List.mem_singleton] at hy
      simp only [hst, List.mem_append, Option.toList_some, List.mem_singleton]
      tauto
    · have := hc.budget
      simp only [outstanding, hst, Option.toList_some, Option.toList_none, List.length_singleton,
        List.length_nil, List.length_append] at this ⊢
      omega
    · rw [← List.append_assoc, hc.taken_avail]

theorem Inv.pop : (c.step size .pop).Inv size := by
  obtain ⟨staged, published, taken, avail, inflight, returned, reclaimed, used⟩ := c
  cases avail with
  | nil => exact hc
  | cons x rest =>
    refine ⟨fun y hy => hc.heads y ?_, ?_, ?_, hc.reclaimed_used, ?_⟩
    · simp only [step, List.mem_append, List.mem_cons, List.mem_singleton] at hy ⊢
      tauto
    · have := hc.budget
      simp only [step, outstanding, List.length_cons, List.length_append, List.length_nil,
        List.length_singleton] at this ⊢
      omega
    · simp only [step, List.append_assoc, List.singleton_append]
      exact hc.taken_avail
    · simp only [step, List.map_append, ← List.append_assoc]
      exact hc.completions.append_right _

theorem Inv.unpop : (c.step size .unpop).Inv size := by
  simp only [step]
  split
  · exact hc
  · next x hx =>
    split_ifs with hmem
    · obtain ⟨t, ht⟩ := List.getLast?_eq_some_iff.mp hx
      refine ⟨fun y hy => hc.heads y ?_, ?_, ?_, hc.reclaimed_used, ?_⟩
      · simp only [List.mem_append, List.mem_cons] at hy ⊢
        rcases hy with (hy | rfl | hy) | hy
        · exact .inl (.inl hy)
        · exact .inr hmem
        · exact .inl (.inr hy)
        · exact .inr (List.mem_of_mem_erase hy)
      · have hb := hc.budget
        have hp := List.length_pos_of_mem hmem
        simp only [outstanding, List.length_cons, List.length_erase_of_mem hmem] at hb ⊢
        omega
      · rw [← hc.taken_avail, ht, List.dropLast_concat, List.append_assoc, List.singleton_append]
      · -- the head given back leaves both sides of the permutation
        have hp := ((List.perm_cons_erase hmem).map (·.setWidth 32)).append_left
          (c.returned.map (·.id))
        have h := hc.completions
        rw [ht, List.map_append, List.map_singleton] at h
        rw [ht, List.dropLast_concat]
        exact (List.perm_middle.symm.trans
          (hp.symm.trans (h.trans (List.perm_append_singleton _ _)))).cons_inv
    · exact hc

theorem Inv.complete (x : BitVec 16) (len : BitVec 32) :
    (c.step size (.complete x len)).Inv size := by
  simp only [step]
  split_ifs with hmem
  · refine ⟨fun y hy => hc.heads y ?_, ?_, ?_, ?_, ?_⟩
    · simp only [List.mem_append] at hy ⊢
      exact hy.imp id List.mem_of_mem_erase
    · have hb := hc.budget
      have hp := List.length_pos_of_mem hmem
      simp only [outstanding, List.length_erase_of_mem hmem, List.length_append,
        List.length_singleton] at hb ⊢
      omega
    · exact hc.taken_avail
    · rw [← List.append_assoc, hc.reclaimed_used]
    · have hp := (List.perm_cons_erase hmem).map (·.setWidth 32)
      rw [List.map_append, List.map_singleton, List.append_assoc, List.singleton_append]
      exact (hp.append_left _).symm.trans hc.completions
  · exact hc

theorem Inv.reclaim : (c.step size .reclaim).Inv size := by
  obtain ⟨staged, published, taken, avail, inflight, returned, reclaimed, used⟩ := c
  cases used with
  | nil => exact hc
  | cons e rest =>
    refine ⟨hc.heads, ?_, hc.taken_avail, ?_, hc.completions⟩
    · have := hc.budget
      simp only [step, outstanding, List.length_cons] at this ⊢
      omega
    · simp only [step, List.append_assoc, List.singleton_append]
      exact hc.reclaimed_used

/-- **Every step keeps the invariant.** -/
theorem Inv.step : ∀ a, (c.step size a).Inv size
  | .stage x => hc.stage x
  | .publish => hc.publish
  | .pop => hc.pop
  | .unpop => hc.unpop
  | .complete x len => hc.complete x len
  | .reclaim => hc.reclaim

end Steps

/-- The run lemma: the invariant holds after every schedule. -/
theorem Inv.run (hc : c.Inv size) (sched : List Action) : (c.run size sched).Inv size := by
  induction sched generalizing c with
  | nil => exact hc
  | cons a as ih => exact ih (hc.step a)

/-! ### Finishing the transfers in progress -/

/-- The schedule that completes every transfer in progress and publishes nothing new: the device
takes every pending head and returns each chain it holds with the length `len` gives it, and the
driver reclaims every element. -/
def finish (c : Channels) (len : BitVec 16 → BitVec 32) : List Action :=
  List.replicate c.avail.length .pop ++
    (c.inflight ++ c.avail).map (fun h => .complete h (len h)) ++
    List.replicate (c.used.length + c.inflight.length + c.avail.length) .reclaim

/-- `n` pops move the first `n` pending heads to the device. -/
theorem run_pops (n : Nat) :
    c.run size (List.replicate n .pop) =
      { c with
        taken := c.taken ++ c.avail.take n
        avail := c.avail.drop n
        inflight := c.inflight ++ c.avail.take n } := by
  induction n generalizing c with
  | zero => simp
  | succ n ih =>
    rw [List.replicate_succ, run_cons, ih]
    cases h : c.avail <;> simp [step, h]

/-- Completing, in any order, the chains the device holds returns all of them. -/
theorem run_completes (len : BitVec 16 → BitVec 32) {l : List (BitVec 16)}
    (hl : c.inflight.Perm l) :
    c.run size (l.map fun h => .complete h (len h)) =
      { c with
        inflight := []
        returned := c.returned ++ l.map fun h => usedElem h (len h)
        used := c.used ++ l.map fun h => usedElem h (len h) } := by
  induction l generalizing c with
  | nil =>
    obtain ⟨staged, published, taken, avail, inflight, returned, reclaimed, used⟩ := c
    obtain rfl : inflight = [] := List.perm_nil.mp hl
    simp
  | cons x l ih =>
    have hmem : x ∈ c.inflight := hl.symm.subset (List.mem_cons_self x l)
    simp only [List.map_cons, run_cons, step, if_pos hmem]
    refine (ih ?_).trans ?_
    · simpa using hl.erase x
    · simp

/-- `n` reclaims move the first `n` pending elements to the driver. -/
theorem run_reclaims (n : Nat) :
    c.run size (List.replicate n .reclaim) =
      { c with reclaimed := c.reclaimed ++ c.used.take n, used := c.used.drop n } := by
  induction n generalizing c with
  | zero => simp
  | succ n ih =>
    rw [List.replicate_succ, run_cons, ih]
    cases h : c.used <;> simp [step, h]

/-- What `finish` leaves: every pending head taken and returned, in the order the device held
them and then the order they were pending, and every element reclaimed. -/
theorem run_finish_eq (len : BitVec 16 → BitVec 32) :
    c.run size (c.finish len) =
      { c with
        taken := c.taken ++ c.avail
        avail := []
        inflight := []
        returned := c.returned ++ (c.inflight ++ c.avail).map fun h => usedElem h (len h)
        reclaimed :=
          c.reclaimed ++ c.used ++ (c.inflight ++ c.avail).map fun h => usedElem h (len h)
        used := [] } := by
  have hn : (c.used ++ (c.inflight ++ c.avail).map fun h => usedElem h (len h)).length =
      c.used.length + c.inflight.length + c.avail.length := by
    simp only [List.length_append, List.length_map]
    omega
  rw [finish, run_append, run_append, run_pops, List.take_length, List.drop_length,
    run_completes len (List.Perm.refl _), run_reclaims]
  simp only [← hn, List.take_length, List.drop_length, List.append_assoc]

/-- **Finishing returns every head in progress to the driver.** After `finish`, nothing is
pending or in flight, the device has taken every head published, and the driver has reclaimed
every element returned, each head once for each time it was published. -/
theorem run_finish (hc : c.Inv size) (len : BitVec 16 → BitVec 32) :
    let c' := c.run size (c.finish len)
    c'.avail = [] ∧ c'.inflight = [] ∧ c'.used = [] ∧ c'.taken = c.published ∧
      c'.reclaimed = c'.returned ∧
      (c'.reclaimed.map (·.id)).Perm (c.published.map (·.setWidth 32)) := by
  intro c'
  have e : c' = _ := run_finish_eq len
  have hc' := (hc.run (c.finish len)).completions
  rw [run_finish_eq] at hc'
  dsimp only at hc'
  rw [hc.taken_avail, ← hc.reclaimed_used, List.map_nil, List.append_nil] at hc'
  rw [e]
  exact ⟨rfl, rfl, rfl, hc.taken_avail, by dsimp only; rw [hc.reclaimed_used], hc'⟩

end Channels

end Transfer

end VirtioQueue
