import Mathlib.Data.List.Infix
import Mathlib.Data.Set.Finite.Basic
import Mathlib.Logic.Function.Basic
import Mathlib.Tactic.Common

/-!
# Finite trees of files and directories

A tree says what is at every path, a list of names: nothing, a file or a directory. The empty
path is the root.

## Main definitions

* `NameTree`: a finite tree whose nodes hang below directories.
* `NameTree.create`, `NameTree.delete`: creation of a node and removal of a subtree.
-/

namespace Library

/-- A finite tree; `kind p = some true` is a directory at `p`, `some false` a file. -/
structure NameTree (N : Type*) where
  kind : List N → Option Bool
  root : kind [] = some true
  closed : ∀ p c, kind (p ++ [c]) ≠ none → kind p = some true
  finite : { p | kind p ≠ none }.Finite

namespace NameTree

variable {N : Type*}

/-- The tree that is only a root. -/
def empty (N : Type*) : NameTree N where
  kind p := if p.isEmpty then some true else none
  root := rfl
  closed p c h := by simp at h
  finite := (Set.finite_singleton []).subset fun p hp => by simpa using hp

variable [DecidableEq N]

/-- A new node below a directory. -/
def add (t : NameTree N) (p : List N) (c : N) (isDir : Bool) (hp : t.kind p = some true)
    (hfree : t.kind (p ++ [c]) = none) : NameTree N where
  kind := Function.update t.kind (p ++ [c]) (some isDir)
  root := by simp [Function.update_of_ne, t.root]
  closed q e hq := by
    by_cases hqe : q ++ [e] = p ++ [c]
    · obtain ⟨rfl, -⟩ : q = p ∧ e = c := by simpa using hqe
      simpa [Function.update_apply] using hp
    · rw [Function.update_of_ne hqe] at hq
      have hdir := t.closed q e hq
      rwa [Function.update_of_ne]
      rintro rfl
      simp [hdir] at hfree
  finite := (t.finite.insert (p ++ [c])).subset fun q hq => by
    by_cases hqp : q = p ++ [c]
    · exact .inl hqp
    · exact .inr (by simpa [Function.update_of_ne hqp] using hq)

/-- Without everything below `p`. -/
def remove (t : NameTree N) (p : List N) (hp : p ≠ []) : NameTree N where
  kind q := if p <+: q then none else t.kind q
  root := by simp [hp, t.root]
  closed q c hq := by
    have hnot : ¬ p <+: q ++ [c] := fun h => hq (if_pos h)
    rw [if_neg hnot] at hq
    rw [if_neg fun h => hnot (h.trans (List.prefix_append _ _))]
    exact t.closed q c hq
  finite := t.finite.subset fun q hq h => hq (by simp [h])

/-- Create a node, if its father is a directory that has no node of this name. -/
def create (t : NameTree N) (p : List N) (c : N) (isDir : Bool) : NameTree N × Bool :=
  if h : t.kind p = some true ∧ t.kind (p ++ [c]) = none then (t.add p c isDir h.1 h.2, true)
  else (t, false)

/-- Delete a node and everything below it, if it exists. -/
def delete (t : NameTree N) (p : List N) (c : N) : NameTree N × Bool :=
  if t.kind (p ++ [c]) = none then (t, false) else (t.remove (p ++ [c]) (by simp), true)

variable {t : NameTree N} {p : List N} {c : N}

theorem create_of_free (isDir : Bool) (hp : t.kind p = some true)
    (hfree : t.kind (p ++ [c]) = none) :
    (t.create p c isDir).2 = true ∧
      (t.create p c isDir).1.kind = Function.update t.kind (p ++ [c]) (some isDir) := by
  simp [create, hp, hfree, add]

theorem create_of_not {isDir : Bool} (h : ¬ (t.kind p = some true ∧ t.kind (p ++ [c]) = none)) :
    t.create p c isDir = (t, false) := dif_neg h

theorem delete_of_some (h : t.kind (p ++ [c]) ≠ none) :
    (t.delete p c).2 = true ∧
      (t.delete p c).1.kind = fun q => if p ++ [c] <+: q then none else t.kind q := by
  simp [delete, h, remove]

theorem delete_of_none (h : t.kind (p ++ [c]) = none) : t.delete p c = (t, false) := if_pos h

end NameTree

end Library
