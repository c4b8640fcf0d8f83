import Mathlib.Data.List.Nodup
import Mathlib.Logic.Function.Basic
import Mathlib.Tactic.Common

/-!
# Doubly linked rings

Entries are linked in both directions by two functions. A ring starts and ends at its head, which
is no entry of the list.

## Main definitions

* `Linked`: the entries between two places, linked in both directions.
* `Ring`: a list that starts and ends at its head.
* `follow`: the loop over a list.
-/

namespace Library

variable {P : Type*} {next prev next' prev' : P → P} {a b c x y head new : P} {l r : List P}

/-- From `a` the entries of `l` follow one after the other, and then `b`. -/
def Linked (next prev : P → P) (a : P) : List P → P → Prop
  | [], b => next a = b ∧ prev b = a
  | x :: l, b => next a = x ∧ prev x = a ∧ Linked next prev x l b

/-- The entries of `l` in a ring with a head. -/
structure Ring (next prev : P → P) (head : P) (l : List P) : Prop where
  linked : Linked next prev head l head
  nodup : (head :: l).Nodup

/-- The entries from `p` to the head, or `none` if they are more than the loop has steps. -/
def follow [DecidableEq P] (step : P → P) (head : P) : Nat → P → Option (List P)
  | 0, _ => none
  | n + 1, p => if p = head then some [] else (follow step head n (step p)).map (p :: ·)

namespace Linked

theorem append : Linked next prev a (l ++ x :: r) b ↔
    Linked next prev a l x ∧ Linked next prev x r b := by
  induction l generalizing a with
  | nil => simp [Linked, and_assoc]
  | cons y l ih => simp [Linked, ih, and_assoc]

theorem congr (h : Linked next prev a l b) (hnext : ∀ x ∈ a :: l, next' x = next x)
    (hprev : ∀ y, y ∈ l ∨ y = b → prev' y = prev y) : Linked next' prev' a l b := by
  induction l generalizing a with
  | nil =>
    obtain ⟨hn, hp⟩ := h
    exact ⟨(hnext a (by simp)).trans hn, (hprev b (.inr rfl)).trans hp⟩
  | cons x l ih =>
    obtain ⟨hn, hp, h⟩ := h
    refine ⟨(hnext a (by simp)).trans hn, (hprev x (by simp)).trans hp, ?_⟩
    apply ih h
    · exact fun y hy => hnext y (List.mem_cons_of_mem a hy)
    · grind

theorem reverse (h : Linked next prev a l b) : Linked prev next b l.reverse a := by
  induction l generalizing a with
  | nil => exact ⟨h.2, h.1⟩
  | cons x l ih =>
    obtain ⟨hn, hp, h⟩ := h
    rw [List.reverse_cons]
    exact append.mpr ⟨ih h, hp, hn⟩

theorem prev_mem (h : Linked next prev a l b) : prev b ∈ a :: l := by
  induction l generalizing a with
  | nil => simp [h.2]
  | cons x l ih => exact List.mem_cons_of_mem a (ih h.2.2)

theorem next_eq (h : Linked next prev a l b) : next a = (l ++ [b]).headD a := by
  cases l with
  | nil => exact h.1
  | cons x l => exact h.1

/-- The last entry is followed by another place. -/
theorem redirect (h : Linked next prev a l b) (hnodup : (a :: l).Nodup)
    (hc : next' (prev b) = c ∧ prev' c = prev b)
    (hnext : ∀ x ∈ a :: l, x ≠ prev b → next' x = next x) (hprev : ∀ y ∈ l, prev' y = prev y) :
    Linked next' prev' a l c := by
  induction l generalizing a with
  | nil =>
    obtain ⟨-, hp⟩ := h
    exact hp ▸ hc
  | cons x l ih =>
    obtain ⟨hn, hp, h⟩ := h
    rw [List.nodup_cons] at hnodup
    have hne : a ≠ prev b := by
      intro heq
      exact hnodup.1 (heq ▸ h.prev_mem)
    refine ⟨(hnext a (by simp) hne).trans hn, (hprev x (by simp)).trans hp, ?_⟩
    apply ih h hnodup.2
    · exact fun y hy => hnext y (List.mem_cons_of_mem a hy)
    · exact fun y hy => hprev y (List.mem_cons_of_mem x hy)

theorem follow_eq [DecidableEq P] (h : Linked next prev a l b) (hb : b ∉ l) {fuel : Nat}
    (hfuel : l.length < fuel) : follow next b fuel (next a) = some l := by
  induction l generalizing a fuel with
  | nil =>
    obtain ⟨n, rfl⟩ := Nat.exists_eq_add_of_lt hfuel
    simp [follow, h.1]
  | cons x l ih =>
    obtain ⟨hn, -, h⟩ := h
    obtain ⟨n, rfl⟩ := Nat.exists_eq_add_of_lt hfuel
    have hne : x ≠ b := fun heq => hb (by simp [heq])
    have hrest := ih h (fun hmem => hb (List.mem_cons_of_mem x hmem))
      (show l.length < l.length + 1 + n by omega)
    rw [hn, List.length_cons, follow, if_neg hne, hrest]
    rfl

end Linked

namespace Ring

theorem reverse (h : Ring next prev head l) : Ring prev next head l.reverse := by
  refine ⟨h.linked.reverse, ?_⟩
  simpa using h.nodup

/-- Links of other entries do not matter. -/
theorem frame (h : Ring next prev head l)
    (hsame : ∀ x ∈ head :: l, next' x = next x ∧ prev' x = prev x) : Ring next' prev' head l := by
  refine ⟨h.linked.congr (fun x hx => (hsame x hx).1) fun y hy => (hsame y ?_).2, h.nodup⟩
  grind

theorem prev_mem (h : Ring next prev head l) (hx : x ∈ head :: l) : prev x ∈ head :: l := by
  rcases List.mem_cons.mp hx with rfl | hx
  · exact h.linked.prev_mem
  · obtain ⟨before, after, rfl⟩ := List.append_of_mem hx
    have hmem := (Linked.append.mp h.linked).1.prev_mem
    grind

theorem next_mem (h : Ring next prev head l) (hx : x ∈ head :: l) : next x ∈ head :: l := by
  have hmem := h.reverse.prev_mem (x := x) (by simpa using hx)
  simpa using hmem

/-- A new entry before all others. -/
theorem push (h : Ring next prev head l) (hnew : new ∉ head :: l) (hhead : next' head = new)
    (hnext : next' new = next head) (hprev : prev' new = head) (hfirst : prev' (next head) = new)
    (hn : ∀ x, x ≠ head → x ≠ new → next' x = next x)
    (hp : ∀ x, x ≠ next head → x ≠ new → prev' x = prev x) : Ring next' prev' head (new :: l) := by
  refine ⟨⟨hhead, hprev, ?_⟩, by grind [h.nodup]⟩
  have hlinked := h.linked
  cases l with
  | nil =>
    obtain ⟨hfirst', -⟩ := hlinked
    exact ⟨hnext.trans hfirst', hfirst' ▸ hfirst⟩
  | cons x l =>
    obtain ⟨hx, -, hrest⟩ := hlinked
    obtain ⟨hhead', hnodup⟩ := List.nodup_cons.mp h.nodup
    have hother : ∀ y ∈ x :: l, y ≠ head ∧ y ≠ new := by
      refine fun y hy => ⟨fun heq => hhead' (heq ▸ hy), fun heq => hnew ?_⟩
      exact List.mem_cons_of_mem head (heq ▸ hy)
    refine ⟨hnext.trans hx, hx ▸ hfirst, hrest.congr (fun y hy => ?_) fun y hy => ?_⟩
    · exact hn y (hother y hy).1 (hother y hy).2
    · rw [hx] at hp
      rcases hy with hy | rfl
      · apply hp y
        · exact fun heq => (List.nodup_cons.mp hnodup).1 (heq ▸ hy)
        · exact (hother y (List.mem_cons_of_mem x hy)).2
      · apply hp y
        · exact fun heq => hhead' (by simp [heq])
        · exact fun heq => hnew (by simp [heq])

/-- A new entry behind all others. -/
theorem pushBack (h : Ring next prev head l) (hnew : new ∉ head :: l) (hhead : prev' head = new)
    (hprev : prev' new = prev head) (hnext : next' new = head) (hlast : next' (prev head) = new)
    (hn : ∀ x, x ≠ prev head → x ≠ new → next' x = next x)
    (hp : ∀ x, x ≠ head → x ≠ new → prev' x = prev x) : Ring next' prev' head (l ++ [new]) := by
  have hpush := h.reverse.push (by simpa using hnew) hhead hprev hnext hlast hp hn
  simpa using hpush.reverse

/-- An entry goes. -/
theorem remove (h : Ring next prev head l) [DecidableEq P] (hx : x ∈ l)
    (hnext : next' (prev x) = next x) (hprev : prev' (next x) = prev x)
    (hn : ∀ y, y ≠ prev x → y ≠ x → next' y = next y)
    (hp : ∀ y, y ≠ next x → y ≠ x → prev' y = prev y) : Ring next' prev' head (l.erase x) := by
  obtain ⟨before, after, rfl⟩ := List.append_of_mem hx
  obtain ⟨hbefore, hafter⟩ := Linked.append.mp h.linked
  have hnodup := h.nodup
  have hmem : prev x ∈ head :: before := hbefore.prev_mem
  have herase : (before ++ x :: after).erase x = before ++ after := by
    rw [List.erase_append_right _ (by grind), List.erase_cons_head]
  rw [herase]
  refine ⟨?_, by grind⟩
  cases after with
  | nil =>
    obtain ⟨hlast, -⟩ := hafter
    rw [List.append_nil]
    apply hbefore.redirect (by grind)
    · exact ⟨hnext.trans hlast, hlast ▸ hprev⟩
    · grind
    · grind
  | cons y after =>
    obtain ⟨hy, -, hrest⟩ := hafter
    rw [hy] at hnext hprev hp
    refine Linked.append.mpr ⟨?_, ?_⟩
    · apply hbefore.redirect (by grind)
      · exact ⟨hnext, hprev⟩
      · grind
      · grind
    · apply hrest.congr
      · grind
      · grind

/-- The neighbours of an entry are others. -/
theorem neighbours_ne (h : Ring next prev head l) (hx : x ∈ l) : prev x ≠ x ∧ next x ≠ x := by
  obtain ⟨before, after, rfl⟩ := List.append_of_mem hx
  obtain ⟨hbefore, hafter⟩ := Linked.append.mp h.linked
  have hprev := hbefore.prev_mem
  have hnext := hafter.reverse.prev_mem
  have hnodup := h.nodup
  constructor
  · intro heq
    rw [heq] at hprev
    grind
  · intro heq
    rw [heq] at hnext
    grind

theorem empty_iff (h : Ring next prev head l) : next head = head ↔ l = [] := by
  cases l with
  | nil => simp [h.linked.1]
  | cons x l =>
    have hne : x ≠ head := by grind [h.nodup]
    simp [h.linked.1, hne]

end Ring

end Library
