import Mathlib.Data.List.Nodup
import Mathlib.Logic.Function.Basic
import Mathlib.Tactic.Common

/-!
# Chained tables that compare a part of the key

A table keeps its elements in chains. The bucket is chosen from the whole key, and within a chain
elements are told apart by a tag, a part of the key. Keys with the same bucket and the same tag
clash.

## Main definitions

* `Clashes`: another key in use has the same bucket and tag.
* `Chained`: the chains hold a finite map in which no two keys clash.
-/

namespace Library

variable {K B T P : Type*} {bucket : K → B} {tag : K → T} {chain chain' : B → List P}
  {tagOf tagOf' : P → T} {live : K → Option P} {k : K} {p : P}

/-- The elements of a map have other keys with the bucket and the tag of `k`. -/
def Clashes (bucket : K → B) (tag : K → T) (live : K → Option P) (k : K) : Prop :=
  ∃ k', live k' ≠ none ∧ k' ≠ k ∧ bucket k' = bucket k ∧ tag k' = tag k

/-- The chains hold the elements of `live`. -/
structure Chained (bucket : K → B) (tag : K → T) (chain : B → List P) (tagOf : P → T)
    (live : K → Option P) : Prop where
  mem_iff : ∀ b p, p ∈ chain b ↔ ∃ k, live k = some p ∧ bucket k = b
  nodup : ∀ b, (chain b).Nodup
  tag_eq : ∀ k p, live k = some p → tagOf p = tag k
  injective : ∀ k k' p, live k = some p → live k' = some p → k = k'
  separated : ∀ k, live k ≠ none → ¬ Clashes bucket tag live k

namespace Chained

theorem empty (bucket : K → B) (tag : K → T) (tagOf : P → T) :
    Chained bucket tag (fun _ => []) tagOf fun _ => none := by
  constructor <;> simp

/-- Other tags for elements that are not in the table. -/
theorem congr (h : Chained bucket tag chain tagOf live)
    (ht : ∀ k p, live k = some p → tagOf' p = tagOf p) :
    Chained bucket tag chain tagOf' live :=
  { h with tag_eq := fun k p hk => (ht k p hk).trans (h.tag_eq k p hk) }

/-- A search along a chain finds what the map holds, exactly when the key does not clash. -/
theorem find_iff [DecidableEq T] (h : Chained bucket tag chain tagOf live) (k : K) :
    (chain (bucket k)).find? (fun p => tagOf p = tag k) = live k ↔
      ¬ Clashes bucket tag live k := by
  constructor
  · rintro heq ⟨k', hlive, hne, hbucket, htag⟩
    obtain ⟨p', hp'⟩ := Option.ne_none_iff_exists'.mp hlive
    have hmem := (h.mem_iff (bucket k) p').mpr ⟨k', hp', hbucket⟩
    have hfind : (chain (bucket k)).find? (fun p => tagOf p = tag k) ≠ none := by
      intro hnone
      have hno := List.find?_eq_none.mp hnone p' hmem
      simp [h.tag_eq k' p' hp', htag] at hno
    exact h.separated k (heq ▸ hfind) ⟨k', hlive, hne, hbucket, htag⟩
  · intro hclash
    -- an element of the chain with the tag of `k` is the element of `k`
    have honly : ∀ p ∈ chain (bucket k), tagOf p = tag k → live k = some p := by
      intro p hp ht
      obtain ⟨k', hk', hbucket⟩ := (h.mem_iff _ p).mp hp
      have htag := (h.tag_eq k' p hk').symm.trans ht
      by_contra hno
      refine hclash ⟨k', by simp [hk'], ?_, hbucket, htag⟩
      rintro rfl
      exact hno hk'
    cases hfind : (chain (bucket k)).find? fun p => tagOf p = tag k with
    | some p =>
      have ht := List.find?_some hfind
      exact (honly p (List.mem_of_find?_eq_some hfind) (by simpa using ht)).symm
    | none =>
      symm
      by_contra hlive
      obtain ⟨p, hp⟩ := Option.ne_none_iff_exists'.mp hlive
      have hno := List.find?_eq_none.mp hfind p ((h.mem_iff _ p).mpr ⟨k, hp, rfl⟩)
      simp [h.tag_eq k p hp] at hno

variable [DecidableEq K] [DecidableEq B]

/-- A new element at the head of its chain. -/
theorem insert (h : Chained bucket tag chain tagOf live) (hnew : ∀ b, p ∉ chain b)
    (hk : live k = none) (ht : tagOf p = tag k) (hclash : ¬ Clashes bucket tag live k) :
    Chained bucket tag (Function.update chain (bucket k) (p :: chain (bucket k))) tagOf
      (Function.update live k (some p)) := by
  have hout : ∀ k', live k' ≠ some p := fun k' hk' =>
    hnew (bucket k') ((h.mem_iff _ p).mpr ⟨k', hk', rfl⟩)
  have hlive : ∀ k' q, Function.update live k (some p) k' = some q ↔
      k' = k ∧ q = p ∨ live k' = some q := by
    intro k' q
    by_cases hkk : k' = k
    · subst hkk
      simp [hk, eq_comm]
    · simp [hkk]
  constructor
  case mem_iff =>
    intro b q
    simp only [hlive]
    by_cases hb : b = bucket k
    · subst hb
      rw [Function.update_self, List.mem_cons, h.mem_iff]
      grind
    · rw [Function.update_of_ne hb, h.mem_iff]
      grind
  case nodup =>
    intro b
    by_cases hb : b = bucket k
    · subst hb
      rw [Function.update_self]
      exact List.nodup_cons.mpr ⟨hnew _, h.nodup _⟩
    · rw [Function.update_of_ne hb]
      exact h.nodup b
  case tag_eq =>
    intro k' q hq
    rcases (hlive k' q).mp hq with ⟨rfl, rfl⟩ | hq
    · exact ht
    · exact h.tag_eq k' q hq
  case injective =>
    intro k₁ k₂ q h₁ h₂
    have := h.injective k₁ k₂ q
    grind
  case separated =>
    rintro k₁ h₁ ⟨k₂, h₂, hne, hbucket, htag⟩
    by_cases hk₁ : k₁ = k
    · subst hk₁
      rw [Function.update_of_ne hne] at h₂
      exact hclash ⟨k₂, h₂, hne, hbucket, htag⟩
    · rw [Function.update_of_ne hk₁] at h₁
      by_cases hk₂ : k₂ = k
      · subst hk₂
        exact hclash ⟨k₁, h₁, hk₁, hbucket.symm, htag.symm⟩
      · rw [Function.update_of_ne hk₂] at h₂
        exact h.separated k₁ h₁ ⟨k₂, h₂, hne, hbucket, htag⟩

/-- The element of a key leaves its chain. -/
theorem erase [DecidableEq P] (h : Chained bucket tag chain tagOf live) (hk : live k = some p) :
    Chained bucket tag (Function.update chain (bucket k) ((chain (bucket k)).erase p)) tagOf
      (Function.update live k none) := by
  have hlive : ∀ k' q, Function.update live k none k' = some q ↔ live k' = some q ∧ q ≠ p := by
    intro k' q
    have := h.injective k k' q
    by_cases hkk : k' = k
    · subst hkk
      simp [hk, eq_comm]
    · rw [Function.update_of_ne hkk]
      grind
  constructor
  case mem_iff =>
    intro b q
    simp only [hlive]
    by_cases hb : b = bucket k
    · subst hb
      rw [Function.update_self, (h.nodup _).mem_erase_iff, h.mem_iff]
      grind
    · rw [Function.update_of_ne hb, h.mem_iff]
      have := h.injective k
      grind
  case nodup =>
    intro b
    by_cases hb : b = bucket k
    · subst hb
      rw [Function.update_self]
      exact (h.nodup _).erase p
    · rw [Function.update_of_ne hb]
      exact h.nodup b
  case tag_eq => exact fun k' q hq => h.tag_eq k' q ((hlive k' q).mp hq).1
  case injective =>
    exact fun k₁ k₂ q h₁ h₂ => h.injective k₁ k₂ q ((hlive _ _).mp h₁).1 ((hlive _ _).mp h₂).1
  case separated =>
    have hsome : ∀ k', Function.update live k none k' ≠ none → live k' ≠ none := by
      intro k' hk'
      by_cases hkk : k' = k
      · simp [hkk] at hk'
      · rwa [Function.update_of_ne hkk] at hk'
    rintro k₁ h₁ ⟨k₂, h₂, hne⟩
    exact h.separated k₁ (hsome k₁ h₁) ⟨k₂, hsome k₂ h₂, hne⟩

end Chained

end Library
