import DhmpFs.Library.Run
import DhmpFs.Server.AreaOps
import Mathlib.Algebra.BigOperators.Ring.Finset
import Mathlib.Algebra.Order.BigOperators.Group.Finset

/-!
# The counters of an area

Blocks of one area are taken and freed in any order. Taking and halving a block adjust `nr_free`
together with the lists. Freeing adjusts the lists only, so what the lists hold and the counters
do not know of is what was ever freed.

## Main definitions

* `AreaStep`: a block is taken or freed.
* `Area.Counted`: the counters are right.
* `Area.surplus`: the bytes the counters do not know of.
-/

namespace DhmpFs

open Library

/-! ## Runs -/

inductive AreaOp where
  | get (index : Nat)
  | free (b : Nat × Nat)

/-- A new area, as `dhmp_area_create` and `dhmp_free_one_area` leave it. -/
def Area.built (area : Area) : Area := dhmpBuddySystemBuild { area with maxIndex := maxOrder - 1 }

/-- One operation on an area; the list holds the blocks that are out. -/
inductive AreaStep : Area × List (Nat × Nat) → AreaOp → Area × List (Nat × Nat) → Prop where
  | get {area area' : Area} {out : List (Nat × Nat)} {index : Nat} {r : Option FreeBlock} :
      dhmpGetFreeBlock maxOrder area index = some (area', r) →
      AreaStep (area, out) (.get index) (area', (r.map FreeBlock.span).toList ++ out)
  | free {area area' : Area} {out : List (Nat × Nat)} {b : Nat × Nat} : b ∈ out →
      freeInArea area ⟨b.1, b.2, area.mr.lkey⟩ = some area' →
      AreaStep (area, out) (.free b) (area', out.erase b)

/-! ## Counting -/

/-- Every `nr_free` is the length of its list. -/
def Area.Counted (area : Area) : Prop :=
  ∀ i < maxOrder, area.nrFree i = (area.blockHead i).length

/-- The bytes in one list beyond what its counter says. -/
def Area.excess (area : Area) (i : Nat) : Int :=
  ((area.blockHead i).length - area.nrFree i) * buddySize i

/-- The bytes in the lists beyond what the counters say. -/
def Area.surplus (area : Area) : Int := ∑ i ∈ Finset.range maxOrder, area.excess i

section surplus

variable {area area' : Area} {i index addr : Nat}

/-- One order changes. -/
theorem surplus_change (hi : i < maxOrder) (h : ∀ j, j ≠ i → area'.excess j = area.excess j) :
    area'.surplus = area.surplus + (area'.excess i - area.excess i) := by
  have hone : ∑ j ∈ Finset.range maxOrder, (area'.excess j - area.excess j) =
      area'.excess i - area.excess i :=
    Finset.sum_eq_single_of_mem i (Finset.mem_range.mpr hi) fun j _ hj => by simp [h j hj]
  rw [Finset.sum_sub_distrib] at hone
  unfold Area.surplus
  omega

theorem surplus_setHead (hi : i < maxOrder) (list : List FreeBlock) :
    (area.setHead i list).surplus =
      area.surplus + (list.length - (area.blockHead i).length) * buddySize i := by
  have hother : ∀ j, j ≠ i → (area.setHead i list).excess j = area.excess j :=
    fun j hj => by simp [Area.excess, hj]
  rw [surplus_change hi hother]
  simp only [Area.excess, Area.setHead_self, Area.setHead_nrFree]
  grind

theorem surplus_addFree (hi : i < maxOrder) (n : Int) :
    (area.addFree i n).surplus = area.surplus - n * buddySize i := by
  have hother : ∀ j, j ≠ i → (area.addFree i n).excess j = area.excess j :=
    fun j hj => by simp [Area.excess, Area.addFree, hj]
  rw [surplus_change hi hother]
  simp only [Area.excess, Area.addFree, Function.update_self]
  grind

theorem Area.Counted.surplus_eq (h : area.Counted) : area.surplus = 0 :=
  Finset.sum_eq_zero fun i hi => by simp [Area.excess, h i (Finset.mem_range.mp hi)]

/-- Taking the first block of an order is counted. -/
theorem surplus_taken {blk : FreeBlock} {rest : List FreeBlock} (hi : i < maxOrder)
    (hblk : area.blockHead i = blk :: rest) : (area.taken i rest).surplus = area.surplus := by
  change ((area.setHead i rest).addFree i (-1)).surplus = area.surplus
  rw [surplus_addFree hi, surplus_setHead hi, hblk, List.length_cons]
  grind

/-- So is halving one. -/
theorem surplus_split {blk : FreeBlock} {rest : List FreeBlock} (hi : i + 1 < maxOrder)
    (hblk : area.blockHead (i + 1) = blk :: rest) :
    (area.split i blk rest).surplus = area.surplus := by
  have hi' : i < maxOrder := Nat.lt_of_succ_lt hi
  unfold Area.split
  rw [surplus_addFree hi', surplus_addFree hi, surplus_setHead hi', surplus_setHead hi, hblk,
    Area.setHead_ne (Nat.ne_of_lt (Nat.lt_succ_self i))]
  simp only [List.length_cons]
  grind

theorem counted_taken {blk : FreeBlock} {rest : List FreeBlock} (h : area.Counted)
    (hblk : area.blockHead i = blk :: rest) : (area.taken i rest).Counted := by
  intro j hj
  have hcount := h j hj
  change Function.update area.nrFree i (area.nrFree i + -1) j =
    (Function.update area.blockHead i rest j).length
  by_cases hji : j = i
  · subst hji
    simp only [hblk, List.length_cons, Nat.cast_succ] at hcount
    simp only [Function.update_self]
    omega
  · simpa [hji] using hcount

theorem counted_split {blk : FreeBlock} {rest : List FreeBlock} (h : area.Counted)
    (hi : i + 1 < maxOrder) (hblk : area.blockHead (i + 1) = blk :: rest) :
    (area.split i blk rest).Counted := by
  intro j hj
  have hcount := h j hj
  have hne : i ≠ i + 1 := Nat.ne_of_lt (Nat.lt_succ_self i)
  by_cases hji : j = i
  · subst hji
    simp only [Area.split, Area.addFree, Area.setHead, Function.update_self,
      Function.update_of_ne hne, List.length_cons]
    omega
  · by_cases hji' : j = i + 1
    · subst hji'
      simp only [hblk, List.length_cons, Nat.cast_succ] at hcount
      simp only [Area.split, Area.addFree, Area.setHead, Function.update_self,
        Function.update_of_ne hne.symm]
      omega
    · simpa [Area.split, Area.addFree, Area.setHead, hji, hji'] using hcount

/-! ## The operations -/

/-- Taking a block keeps the counters right. -/
theorem Area.Counted.dhmpGetFreeBlock {rounds : Nat} {r : Option FreeBlock} (hc : area.Counted)
    (h : DhmpFs.dhmpGetFreeBlock rounds area index = some (area', r)) : area'.Counted := by
  induction rounds generalizing area with
  | zero => simp [DhmpFs.dhmpGetFreeBlock] at h
  | succ rounds ih =>
    rcases dhmpGetFreeBlock_cases h with ⟨rfl, -, -⟩ | ⟨blk, rest, -, hblk, rfl, -⟩ |
      ⟨i, blk, rest, -, hi, hblk, -, hrest⟩
    · exact hc
    · exact counted_taken hc hblk
    · exact ih (counted_split hc hi hblk) hrest

theorem dhmpGetFreeBlock_surplus {rounds : Nat} {r : Option FreeBlock}
    (h : dhmpGetFreeBlock rounds area index = some (area', r)) :
    area'.surplus = area.surplus := by
  induction rounds generalizing area with
  | zero => simp [dhmpGetFreeBlock] at h
  | succ rounds ih =>
    rcases dhmpGetFreeBlock_cases h with ⟨rfl, -, -⟩ | ⟨blk, rest, hi, hblk, rfl, -⟩ |
      ⟨i, blk, rest, -, hi, hblk, -, hrest⟩
    · rfl
    · exact surplus_taken hi hblk
    · exact (ih hrest).trans (surplus_split hi hblk)

/-- A block that is freed is in the lists, alone or as part of a larger one. -/
theorem recycleLoop_surplus {rounds : Nat} (hindex : index < maxOrder)
    (h : recycleLoop rounds area addr index = some area') :
    area'.surplus = area.surplus + buddySize index := by
  induction rounds generalizing area addr index with
  | zero => simp [recycleLoop] at h
  | succ rounds ih =>
    rw [recycleLoop] at h
    rcases dhmpRecycleFreeBlock_cases area addr index with
      ⟨list, heq, hperm, -⟩ | ⟨tmp, list, heq, hlast, hperm, -⟩
    · simp only [heq, Bool.false_eq_true, false_and, if_false, Option.some.injEq] at h
      rw [← h, surplus_setHead hindex, hperm.length_eq, List.length_cons]
      grind
    · simp only [heq, hlast, ne_eq, not_false_eq_true, and_self, if_true] at h
      have hnext : index + 1 < maxOrder := by omega
      rw [ih hnext h, surplus_setHead hindex, hperm.length_eq, List.length_cons,
        buddySize_succ hnext]
      grind

theorem freeInArea_surplus {mr : IbvMr} (h : freeInArea area mr = some area') :
    area.surplus < area'.surplus := by
  unfold freeInArea at h
  cases hfind : (List.range maxOrder).find? fun i => decide (mr.length = buddySize i) with
  | none => simp [hfind] at h
  | some index =>
    have hindex : index < maxOrder := List.mem_range.mp (List.mem_of_find?_eq_some hfind)
    cases hloop : recycleLoop maxOrder area mr.addr index with
    | none => simp [hfind, hloop] at h
    | some area'' =>
      have hsurplus := recycleLoop_surplus hindex hloop
      have hpos := buddySize_pos hindex
      simp only [hfind, hloop, Option.bind_eq_bind, Option.bind_some, Option.pure_def,
        Option.some.injEq] at h
      have hsame : area'.surplus = area''.surplus := by
        rw [← h]
        split_ifs <;> rfl
      omega

end surplus

theorem counted_built (area : Area) : area.built.Counted := by
  intro i hi
  change i < 5 at hi
  obtain rfl | rfl | rfl | rfl | rfl : i = 0 ∨ i = 1 ∨ i = 2 ∨ i = 3 ∨ i = 4 := by omega
  all_goals rfl

/-! ## Every run -/

/-- What no counter knows of grows with every block that is freed. -/
theorem surplus_run {area s : Area} {ops : List AreaOp} {out : List (Nat × Nat)}
    (run : Run AreaStep (area.built, []) ops (s, out)) :
    ((∀ b, .free b ∉ ops) → s.Counted) ∧ 0 ≤ s.surplus ∧
      ((∃ b, .free b ∈ ops) → 0 < s.surplus) := by
  have hrun := run.history (fun ops st => ((∀ b, AreaOp.free b ∉ ops) → st.1.Counted) ∧
    0 ≤ st.1.surplus ∧ ((∃ b, AreaOp.free b ∈ ops) → 0 < st.1.surplus))
    ⟨fun _ => counted_built area, (counted_built area).surplus_eq.ge, by simp⟩ ?_
  · exact hrun
  rintro ops st op st' ⟨hcounted, hnonneg, hpos⟩ hs
  cases hs with
  | get hget =>
    have hsame := dhmpGetFreeBlock_surplus hget
    dsimp only at hcounted hnonneg hpos ⊢
    rw [hsame]
    refine ⟨fun hnone => (hcounted fun b hb => hnone b ?_).dhmpGetFreeBlock hget, hnonneg,
      fun hsome => hpos (by simpa using hsome)⟩
    exact List.mem_append_left _ hb
  | @free _ _ _ b hb hfree =>
    have hmore := freeInArea_surplus hfree
    dsimp only at hnonneg ⊢
    exact ⟨fun hnone => absurd (by simp) (hnone b), by omega, fun _ => by omega⟩

/-- The counters are right in the state that a run reaches exactly if no block was freed. -/
theorem counted_run_iff {area s : Area} {ops : List AreaOp} {out : List (Nat × Nat)}
    (run : Run AreaStep (area.built, []) ops (s, out)) :
    s.Counted ↔ ∀ b, .free b ∉ ops := by
  obtain ⟨hcounted, -, hpos⟩ := surplus_run run
  refine ⟨fun h b hb => ?_, hcounted⟩
  have := hpos ⟨b, hb⟩
  have := h.surplus_eq
  omega

/-- The area of the examples. -/
def exampleArea : Area := ⟨4, ⟨0, 2097152, 1⟩, fun _ => [], fun _ => 0⟩

theorem counted_run_get : ∃ s out, Run AreaStep (exampleArea.built, []) [.get 1, .get 1] (s, out) ∧
    (s.Counted ↔ ∀ b, AreaOp.free b ∉ [AreaOp.get 1, .get 1]) := by
  have run : Run AreaStep (exampleArea.built, []) [.get 1, .get 1] _ :=
    .cons (.get rfl) (.single (.get rfl))
  exact ⟨_, _, run, counted_run_iff run⟩

/-- A block is taken and freed: it is merged with its buddy, which is still counted. -/
theorem not_counted_free : ∃ s, Run AreaStep (exampleArea.built, []) [.get 0, .free (0, 65536)]
    (s, []) ∧ s.blockHead 0 = [] ∧ s.nrFree 0 = 1 ∧ ¬ s.Counted := by
  have run : Run AreaStep (exampleArea.built, []) [.get 0, .free (0, 65536)] (_, []) :=
    .cons (.get rfl) (.single (.free (by decide) rfl))
  refine ⟨_, run, rfl, rfl, fun h => ?_⟩
  have hzero := h 0 (by decide)
  exact absurd hzero (by decide)

end DhmpFs
