import Mathlib.Data.List.Count
import Mathlib.Data.List.Perm.Basic
import Mathlib.Tactic.Common

/-!
# Tilings of an interval

A block is a start and a length. A list of blocks tiles an interval when every address of the
interval is in exactly one of them and no other address is in any.

## Main definitions

* `cover`: how many blocks an address is in.
* `Tiles`: the blocks of a list partition an interval.
* `Apart`: two blocks have no address in common.
-/

namespace Library

/-- The address `x` is in the block `b`. -/
abbrev InBlock (b : Nat × Nat) (x : Nat) : Prop := b.1 ≤ x ∧ x < b.1 + b.2

/-- The number of blocks an address is in. -/
def cover (l : List (Nat × Nat)) (x : Nat) : Nat := l.countP fun b => InBlock b x

/-- The blocks of `l` partition the addresses from `lo` to `hi`. -/
def Tiles (l : List (Nat × Nat)) (lo hi : Nat) : Prop :=
  ∀ x, cover l x = if lo ≤ x ∧ x < hi then 1 else 0

/-- One block ends before the other starts. -/
def Apart (b c : Nat × Nat) : Prop := b.1 + b.2 ≤ c.1 ∨ c.1 + c.2 ≤ b.1

variable {l l' : List (Nat × Nat)} {b c : Nat × Nat} {x lo hi a m n : Nat}

instance (b c : Nat × Nat) : Decidable (Apart b c) :=
  inferInstanceAs (Decidable (b.1 + b.2 ≤ c.1 ∨ c.1 + c.2 ≤ b.1))

theorem Apart.symm (h : Apart b c) : Apart c b := Or.symm h

instance : Std.Symm Apart := ⟨fun _ _ => Apart.symm⟩

/-- Blocks inside blocks that are apart. -/
theorem Apart.mono {b' c' : Nat × Nat} (h : Apart b c) (hb : b.1 ≤ b'.1 ∧ b'.1 + b'.2 ≤ b.1 + b.2)
    (hc : c.1 ≤ c'.1 ∧ c'.1 + c'.2 ≤ c.1 + c.2) : Apart b' c' := by
  unfold Apart at *
  omega

/-- A relation holds pairwise in a list if it does within every group of the list and between
members of different groups. -/
theorem pairwise_of_groups {α κ : Type*} [DecidableEq κ] {R : α → α → Prop} {f : α → κ}
    {l : List α} (hsame : ∀ k, (l.filter fun a => f a = k).Pairwise R)
    (hdiff : ∀ a ∈ l, ∀ b ∈ l, f a ≠ f b → R a b) : l.Pairwise R := by
  induction l with
  | nil => exact .nil
  | cons a l ih =>
    refine .cons (fun b hb => ?_) (ih (fun k => ?_) fun x hx y hy =>
      hdiff x (List.mem_cons_of_mem _ hx) y (List.mem_cons_of_mem _ hy))
    · by_cases hk : f b = f a
      · have hgroup := hsame (f a)
        rw [List.filter_cons_of_pos (by simp), List.pairwise_cons] at hgroup
        exact hgroup.1 b (List.mem_filter.mpr ⟨hb, by simpa using hk⟩)
      · exact hdiff a (by simp) b (by simp [hb]) (Ne.symm hk)
    · exact (hsame k).sublist ((List.sublist_cons_self a l).filter _)

@[simp] theorem cover_nil : cover [] x = 0 := rfl

theorem cover_cons : cover (b :: l) x = cover l x + if InBlock b x then 1 else 0 := by
  simp [cover, List.countP_cons]

@[simp] theorem cover_append : cover (l ++ l') x = cover l x + cover l' x :=
  List.countP_append

theorem cover_perm (h : l.Perm l') : cover l x = cover l' x := h.countP_eq _

theorem cover_pos (hb : b ∈ l) (hx : InBlock b x) : 0 < cover l x :=
  List.countP_pos_iff.mpr ⟨b, hb, by simpa using hx⟩

/-- A block covers what its two parts cover. -/
theorem cover_split : cover ((a, m + n) :: l) x = cover ((a, m) :: (a + m, n) :: l) x := by
  simp only [cover_cons, InBlock]
  grind

namespace Tiles

theorem perm (h : Tiles l lo hi) (hp : l.Perm l') : Tiles l' lo hi :=
  fun x => (cover_perm hp).symm.trans (h x)

theorem nil (lo : Nat) : Tiles [] lo lo := by
  intro x
  rw [cover_nil, if_neg (by omega)]

/-- A block in front of a tiling of what follows it. -/
theorem cons (hb : b.1 = lo) (hm : lo + b.2 = m) (hle : m ≤ hi) (h : Tiles l m hi) :
    Tiles (b :: l) lo hi := by
  intro x
  rw [cover_cons, h x]
  simp only [InBlock]
  grind

theorem inside (h : Tiles l lo hi) (hb : b ∈ l) (hpos : 0 < b.2) :
    lo ≤ b.1 ∧ b.1 + b.2 ≤ hi := by
  have hcover : ∀ x, InBlock b x → lo ≤ x ∧ x < hi := by
    intro x hx
    have := cover_pos hb hx
    rw [h x] at this
    grind
  have hfirst := hcover b.1 ⟨Nat.le_refl _, by omega⟩
  have hlast := hcover (b.1 + b.2 - 1) ⟨by omega, by omega⟩
  omega

theorem pairwise_apart (h : Tiles l lo hi) (hpos : ∀ b ∈ l, 0 < b.2) : l.Pairwise Apart := by
  have hone : ∀ x, cover l x ≤ 1 := by
    intro x
    rw [h x]
    grind
  clear h
  induction l with
  | nil => exact .nil
  | cons b l ih =>
    have hle : ∀ x, cover l x ≤ 1 := fun x => by
      have := hone x
      rw [cover_cons] at this
      omega
    refine .cons (fun c hc => ?_) (ih (fun c hc => hpos c (by simp [hc])) hle)
    by_contra hnot
    -- the later of the two starts is in both blocks
    have hb := hpos b (by simp)
    have hc' := hpos c (by simp [hc])
    simp only [Apart, not_or, Nat.not_le] at hnot
    have hin : InBlock b (max b.1 c.1) ∧ InBlock c (max b.1 c.1) := by
      constructor <;> constructor <;> omega
    have := cover_pos hc hin.2
    have hcount := hone (max b.1 c.1)
    rw [cover_cons, if_pos hin.1] at hcount
    omega

end Tiles

end Library
