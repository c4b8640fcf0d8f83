import DhmpFs.Fs.Entries
import DhmpFs.Library.Paths

/-!
# Looking a path up

A canonical absolute path is a list of components. `search_d_hash` cuts the string back into
the components and walks down the hash maps; `deal` cuts the last component off.

## Main definitions

* `pathOf`: the string of a list of components.
* `walk`: `search_d_hash` over components.
-/

namespace DhmpFs

open Library

/-! ## Strings of components -/

/-- A component of a canonical path. -/
def Canonical (c : Str) : Prop := c ≠ [] ∧ slash ∉ c

instance : DecidablePred Canonical := fun c => inferInstanceAs (Decidable (c ≠ [] ∧ slash ∉ c))

/-- Every component with a slash in front of it. -/
def absolute (p : List Str) : Str := p.flatMap (slash :: ·)

/-- The canonical absolute path with the components `p`. -/
def pathOf (p : List Str) : Str := if p = [] then [slash] else absolute p

@[simp] theorem absolute_nil : absolute [] = [] := rfl

@[simp] theorem absolute_cons (c : Str) (p : List Str) :
    absolute (c :: p) = slash :: (c ++ absolute p) := rfl

theorem absolute_snoc (p : List Str) (c : Str) :
    absolute (p ++ [c]) = absolute p ++ slash :: c := by
  simp [absolute]

theorem pathOf_snoc (p : List Str) (c : Str) : pathOf (p ++ [c]) = absolute p ++ slash :: c := by
  rw [pathOf, if_neg (by simp), absolute_snoc]

theorem length_pathOf_eq_one {p : List Str} (hp : ∀ c ∈ p, Canonical c) :
    (pathOf p).length = 1 ↔ p = [] := by
  cases p with
  | nil => simp [pathOf]
  | cons c p =>
    have := List.length_pos_iff.mpr (hp c (by simp)).1
    simp only [pathOf, reduceCtorEq, if_false, absolute_cons, List.length_cons,
      List.length_append, iff_false]
    omega

/-! ## Cutting the last component off -/

theorem lastSlash_of_notMem {c : Str} (hc : slash ∉ c) (i j : Nat) : lastSlash i j c = j := by
  induction c generalizing i with
  | nil => rfl
  | cons ch c ih =>
    have hch : ch ≠ slash := fun heq => hc (by simp [heq])
    simp only [lastSlash, hch, false_and, if_false]
    exact ih (fun hm => hc (by simp [hm])) _

theorem lastSlash_append {c : Str} (hc : Canonical c) (a : Str) (i j : Nat) :
    lastSlash i j (a ++ slash :: c) = i + a.length := by
  induction a generalizing i j with
  | nil => simp [lastSlash, hc.1, lastSlash_of_notMem hc.2]
  | cons ch a ih =>
    rw [List.cons_append, lastSlash, ih, List.length_cons]
    omega

theorem deal_pathOf {p : List Str} {c : Str} (hc : Canonical c)
    (hlen : (pathOf (p ++ [c])).length ≤ fileNameLen) :
    deal (pathOf (p ++ [c])) = some (absolute p ++ [slash], c) := by
  rw [pathOf_snoc] at hlen ⊢
  have hpos := List.length_pos_iff.mpr hc.1
  have hlast : c.getLast? ≠ some slash := fun h => hc.2 (List.mem_of_getLast? h)
  have hlen' : ¬ (fileNameLen < (absolute p ++ slash :: c).length ∨
      (absolute p ++ slash :: c).length ≤ 1) := by
    simp only [List.length_append, List.length_cons] at hlen ⊢
    omega
  have hsplit : absolute p ++ slash :: c = (absolute p ++ [slash]) ++ c := by simp
  have hcut : (absolute p).length + 1 = (absolute p ++ [slash]).length := by simp
  rw [deal, if_neg hlen', lastSlash_append hc, Nat.zero_add]
  dsimp only
  rw [hcut, hsplit, List.take_left, List.drop_left, if_neg hlast]

/-! ## The walk down the hash maps -/

/-- The node a name stands for in a directory; `some none` is `NULL`, and a file has no hash
map to ask. -/
def child (s : Fs) (nowNode : InodeId) (name : Str) : Option (Option InodeId) :=
  (s.inodes nowNode).dHash.map fun dHash => dHash.get s.names name

/-- The search for a list of components. -/
def walk (s : Fs) (nowNode : InodeId) : List Str → Option (Option InodeId)
  | [] => some (some nowNode)
  | name :: p =>
    match child s nowNode name with
    | none => none
    | some none => some none
    | some (some nextInode) => walk s nextInode p

theorem walk_snoc (s : Fs) (i : InodeId) (p : List Str) (c : Str) :
    walk s i (p ++ [c]) = (walk s i p).bind fun
      | none => some none
      | some d => child s d c := by
  induction p generalizing i with
  | nil =>
    simp only [List.nil_append, walk, Option.bind_some]
    rcases child s i c with _ | _ | _ <;> rfl
  | cons a p ih =>
    simp only [List.cons_append, walk]
    rcases child s i a with _ | _ | j
    · rfl
    · rfl
    · exact ih j

section search

variable {s : Fs} {i : InodeId} {name c : Str}

/-- The end of a component. -/
theorem searchLoop_component (hc : slash ∉ c) (hlen : name.length + c.length < fileNameLen)
    (rest : Str) :
    searchLoop s false i name (c ++ slash :: rest) =
      match child s i (name ++ c) with
      | none => none
      | some none => some none
      | some (some nextInode) => searchLoop s false nextInode [] rest := by
  induction c generalizing name with
  | nil =>
    have hname : ¬ fileNameLen ≤ name.length := by simpa using hlen
    simp only [List.nil_append, searchLoop, hname, if_false, true_or, if_true,
      Bool.false_eq_true, List.append_nil, child]
    cases (s.inodes i).dHash with
    | none => rfl
    | some dHash => cases hg : dHash.get s.names name <;> simp [hg]
  | cons ch c ih =>
    simp only [List.mem_cons, not_or, List.length_cons] at hc hlen
    have hname : ¬ fileNameLen ≤ name.length := by omega
    have hch : ¬ (ch = slash ∨ c ++ slash :: rest = []) := by simp [Ne.symm hc.1]
    rw [List.cons_append, searchLoop, if_neg hname, if_neg hch, ih hc.2 (by simp; omega)]
    simp

/-- The last component, with no slash behind it. -/
theorem searchLoop_last (hc : Canonical c) (hlen : name.length + c.length < fileNameLen) :
    searchLoop s false i name c =
      match child s i (name ++ c) with
      | none => none
      | some none => some none
      | some (some nextInode) => some (some nextInode) := by
  induction c generalizing name with
  | nil => exact absurd rfl hc.1
  | cons ch c ih =>
    obtain ⟨-, hc⟩ := hc
    simp only [List.mem_cons, not_or, List.length_cons] at hc hlen
    have hname : ¬ fileNameLen ≤ name.length := by omega
    rw [searchLoop, if_neg hname]
    cases c with
    | nil =>
      have hname' : ¬ fileNameLen ≤ (name ++ [ch]).length := by simp; omega
      simp only [Ne.symm hc.1, or_true, if_true, Bool.false_eq_true, if_false, hname', child]
      cases (s.inodes i).dHash with
      | none => rfl
      | some dHash => cases hg : dHash.get s.names (name ++ [ch]) <;> simp [hg, searchLoop]
    | cons c' c =>
      have hch : ¬ (ch = slash ∨ c' :: c = []) := by simp [Ne.symm hc.1]
      rw [if_neg hch, ih ⟨by simp, hc.2⟩ (by simp at hlen ⊢; omega)]
      simp

/-- The components of a path fit the buffer of `search_d_hash`. -/
def FitsName (p : List Str) : Prop := ∀ c ∈ p, c.length < fileNameLen

theorem searchLoop_absolute {p : List Str} (hc : Canonical c) (hp : ∀ c ∈ p, Canonical c)
    (hfit : FitsName (c :: p)) :
    searchLoop s false i [] (c ++ absolute p) = walk s i (c :: p) ∧
      searchLoop s false i [] (c ++ absolute p ++ [slash]) = walk s i (c :: p) := by
  induction p generalizing c i with
  | nil =>
    have hlen : ([] : Str).length + c.length < fileNameLen := by simpa using hfit c (by simp)
    rw [absolute_nil, List.append_nil, searchLoop_last hc hlen, searchLoop_component hc.2 hlen]
    simp only [List.nil_append, walk]
    rcases child s i c with _ | _ | j <;> simp [searchLoop]
  | cons c' p ih =>
    have hlen : ([] : Str).length + c.length < fileNameLen := by simpa using hfit c (by simp)
    rw [absolute_cons, List.append_assoc, List.cons_append, searchLoop_component hc.2 hlen,
      searchLoop_component hc.2 hlen, List.nil_append, walk]
    rcases child s i c with _ | _ | j
    · exact ⟨rfl, rfl⟩
    · exact ⟨rfl, rfl⟩
    · exact ih (hp c' (by simp)) (fun x hx => hp x (by simp [hx]))
        fun x hx => hfit x (List.mem_cons_of_mem _ hx)

/-- The first slash is skipped. -/
theorem searchLoop_first (rest : Str) :
    searchLoop s true i [] (slash :: rest) = searchLoop s false i [] rest := by
  simp [searchLoop]

theorem searchDHash_pathOf {p : List Str} (hp : ∀ c ∈ p, Canonical c) (hfit : FitsName p) :
    searchDHash s (pathOf p) = walk s rootId p := by
  unfold searchDHash
  cases p with
  | nil => simp [pathOf, walk]
  | cons c p =>
    have hlen : (pathOf (c :: p)).length ≠ 1 := by simp [length_pathOf_eq_one hp]
    rw [if_neg hlen, pathOf, if_neg (by simp), absolute_cons, searchLoop_first]
    exact (searchLoop_absolute (hp c (by simp)) (fun x hx => hp x (by simp [hx])) hfit).1

/-- The directory part that `deal` leaves ends with a slash. -/
theorem searchDHash_dirname {p : List Str} (hp : ∀ c ∈ p, Canonical c) (hfit : FitsName p) :
    searchDHash s (absolute p ++ [slash]) = walk s rootId p := by
  unfold searchDHash
  cases p with
  | nil => simp [walk]
  | cons c p =>
    have hlen : (absolute (c :: p) ++ [slash]).length ≠ 1 := by simp
    rw [if_neg hlen, absolute_cons, List.cons_append, searchLoop_first]
    exact (searchLoop_absolute (hp c (by simp)) (fun x hx => hp x (by simp [hx])) hfit).2

end search

/-! ## What the walk finds -/

/-- Where every proper prefix that exists is a directory, the walk finds the node at the path
and `NULL` if there is none. -/
theorem walk_spec {s : Fs} {kids : InodeId → List InodeId} (h : Tree s kids) (hx : Exact s kids)
    {p : List Str} (hdir : ∀ q, q <+: p → q ≠ p → ∀ d, PathTo kids s.names rootId q d →
      (s.inodes d).isDirectories = true) :
    ∃ r, walk s rootId p = some r ∧ ∀ i, r = some i ↔ PathTo kids s.names rootId p i := by
  induction p using List.reverseRecOn with
  | nil => exact ⟨some rootId, rfl, fun i => by simp [eq_comm]⟩
  | append_singleton p c ih =>
    obtain ⟨r, hr, hi⟩ := ih fun q hq hne d =>
      hdir q (hq.trans (List.prefix_append _ _)) (by
        rintro rfl
        have := hq.length_le
        simp at this) d
    rw [walk_snoc, hr, Option.bind_some]
    simp only [PathTo.snoc_iff]
    cases r with
    | none =>
      refine ⟨none, rfl, fun i => ?_⟩
      simp only [reduceCtorEq, false_iff]
      rintro ⟨d, hd, -⟩
      exact absurd ((hi d).mpr hd) (by simp)
    | some father =>
      have hpath := (hi father).mp rfl
      have hfather := hdir p (List.prefix_append _ _) (by simp) father hpath
      obtain ⟨d, hd⟩ := Option.ne_none_iff_exists'.mp ((h.dHash_iff father).mpr hfather)
      refine ⟨d.get s.names c, by simp [child, hd], fun i => ?_⟩
      rw [hx.get_eq_some h hd]
      constructor
      · rintro ⟨hk, hname⟩
        exact ⟨father, hpath, hk, hname⟩
      · rintro ⟨e, he, hk, hname⟩
        obtain rfl : father = e := Option.some.inj ((hi e).mpr he)
        exact ⟨hk, hname⟩

end DhmpFs
