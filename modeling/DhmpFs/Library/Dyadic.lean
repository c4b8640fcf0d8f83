import Mathlib.Algebra.Order.Group.Nat
import Mathlib.Data.Set.Basic
import Mathlib.Tactic.Common

/-!
# Families of dyadic blocks

The units are cut into runs of `2 ^ i`, and again for every order `i`. A family of disjoint
blocks from which no two halves of a block can be joined is the only such family that covers
what it covers.

## Main definitions

* `DyadicBlock`: the order and the index of a block.
* `Reduced`: disjoint blocks below an order, and no two halves of one block.
-/

namespace Library

/-- The run with number `index` of `2 ^ order` units. -/
structure DyadicBlock where
  order : Nat
  index : Nat

/-- The unit `y` is in the block. -/
def DyadicBlock.Has (b : DyadicBlock) (y : Nat) : Prop := y / 2 ^ b.order = b.index

/-- Disjoint blocks of orders below `n`; two halves are joined unless the whole has order `n`. -/
structure Reduced (n : Nat) (F : Set DyadicBlock) : Prop where
  order_lt : ∀ b ∈ F, b.order < n
  joined : ∀ i k, i + 1 < n → ⟨i, 2 * k⟩ ∈ F → ⟨i, 2 * k + 1⟩ ∉ F
  disjoint : ∀ b ∈ F, ∀ c ∈ F, ∀ y, b.Has y → c.Has y → b = c

namespace DyadicBlock

variable {b : DyadicBlock} {i k y z : Nat}

theorem has_first (i k : Nat) : (⟨i, k⟩ : DyadicBlock).Has (k * 2 ^ i) :=
  Nat.mul_div_cancel k (Nat.two_pow_pos i)

/-- A block that has a unit of a smaller one has all of them. -/
theorem Has.mono (hi : i ≤ b.order) (hy : b.Has y) (hky : (⟨i, k⟩ : DyadicBlock).Has y)
    (hkz : (⟨i, k⟩ : DyadicBlock).Has z) : b.Has z := by
  obtain ⟨d, hd⟩ := Nat.exists_eq_add_of_le hi
  have hsplit : ∀ x, x / 2 ^ b.order = x / 2 ^ i / 2 ^ d := fun x => by
    rw [hd, Nat.pow_add, Nat.div_div_eq_div_mul]
  unfold Has at *
  rw [hsplit] at hy ⊢
  rw [hkz, ← hky, hy]

/-- A unit of a half is a unit of the block. -/
theorem Has.half {k' : Nat} (h : (⟨i, k'⟩ : DyadicBlock).Has y) (hk : k' / 2 = k) :
    (⟨i + 1, k⟩ : DyadicBlock).Has y := by
  unfold Has at *
  rw [Nat.pow_succ, ← Nat.div_div_eq_div_mul, h, hk]

end DyadicBlock

namespace Reduced

variable {n : Nat} {F G : Set DyadicBlock} {b : DyadicBlock} {i k : Nat}

/-- A block that is covered lies in one block of the family. -/
theorem exists_block (h : Reduced n F) (hi : i < n)
    (hc : ∀ y, (⟨i, k⟩ : DyadicBlock).Has y → ∃ b ∈ F, b.Has y) :
    ∃ b ∈ F, i ≤ b.order ∧ b.Has (k * 2 ^ i) := by
  induction i generalizing k with
  | zero =>
    obtain ⟨b, hb, hy⟩ := hc (k * 2 ^ 0) (DyadicBlock.has_first 0 k)
    exact ⟨b, hb, Nat.zero_le _, hy⟩
  | succ i ih =>
    obtain ⟨b, hb, hle, hleft⟩ := ih (k := 2 * k) (Nat.lt_of_succ_lt hi) fun y hy =>
      hc y (hy.half (by omega))
    obtain ⟨c, hc', hle', hright⟩ := ih (k := 2 * k + 1) (Nat.lt_of_succ_lt hi) fun y hy =>
      hc y (hy.half (by omega))
    have larger : ∀ d ∈ F, ∀ k', k' / 2 = k → i < d.order → d.Has (k' * 2 ^ i) →
        ∃ b ∈ F, i + 1 ≤ b.order ∧ b.Has (k * 2 ^ (i + 1)) := fun d hd k' hk hlt hhas =>
      ⟨d, hd, hlt, hhas.mono hlt ((DyadicBlock.has_first i k').half hk) (DyadicBlock.has_first _ k)⟩
    rcases hle.lt_or_eq with hlt | heq
    · exact larger b hb (2 * k) (by omega) hlt hleft
    rcases hle'.lt_or_eq with hlt | heq'
    · exact larger c hc' (2 * k + 1) (by omega) hlt hright
    -- both halves would be in the family
    have half : ∀ d : DyadicBlock, ∀ k', i = d.order → d.Has (k' * 2 ^ i) → d = ⟨i, k'⟩ := by
      rintro ⟨j, l⟩ k' rfl hhas
      have : k' * 2 ^ i / 2 ^ i = l := hhas
      rw [Nat.mul_div_cancel k' (Nat.two_pow_pos i)] at this
      rw [this]
    exact absurd (half c _ heq' hright ▸ hc') (h.joined i k hi (half b _ heq hleft ▸ hb))

theorem subset (hF : Reduced n F) (hG : Reduced n G)
    (hcover : ∀ y, (∃ b ∈ F, b.Has y) ↔ ∃ b ∈ G, b.Has y) : F ⊆ G := by
  rintro ⟨i, k⟩ hb
  -- there is a block of `G` around it, and one of `F` around that
  obtain ⟨⟨j, l⟩, hc, hij, hhas⟩ := hG.exists_block (hF.order_lt _ hb) fun y hy =>
    (hcover y).mp ⟨_, hb, hy⟩
  obtain ⟨d, hd, hjd, hhas'⟩ := hF.exists_block (hG.order_lt _ hc) fun y hy =>
    (hcover y).mpr ⟨_, hc, hy⟩
  have hmeet : d.Has (k * 2 ^ i) := hhas'.mono hjd (DyadicBlock.has_first j l) hhas
  obtain rfl := hF.disjoint _ hd _ hb _ hmeet (DyadicBlock.has_first i k)
  obtain rfl : i = j := Nat.le_antisymm hij hjd
  have : k * 2 ^ i / 2 ^ i = l := hhas
  rw [Nat.mul_div_cancel k (Nat.two_pow_pos i)] at this
  exact this ▸ hc

/-- What is covered determines the family. -/
theorem unique (hF : Reduced n F) (hG : Reduced n G)
    (hcover : ∀ y, (∃ b ∈ F, b.Has y) ↔ ∃ b ∈ G, b.Has y) : F = G :=
  Set.Subset.antisymm (hF.subset hG hcover) (hG.subset hF fun y => (hcover y).symm)

end Reduced

end Library
