import DhmpFs.Fs.ErrorPaths

/-!
# Splitting a path and looking it up

`deal` cuts a path at its last separator and `search_d_hash` walks along its components. On a
canonical path, with or without a slash behind it, the two agree: the walk is a lookup of the file
name in the directory that the walk along the other part finds.

## Main definitions

* `lookIn`: a name looked up in the directory that a search found.
-/

namespace DhmpFs

open Library

/-- A name is looked up in what a search found; `NULL` stays `NULL`. -/
def lookIn (s : Fs) (filename : Str) : Option InodeId → Option (Option InodeId)
  | none => some none
  | some father => child s father filename

/-! ## The two scanners -/

section

variable {s : Fs} {p : List Str} {c : Str}

theorem lastSlash_trailing (hc : slash ∉ c) (i j : Nat) : lastSlash i j (c ++ [slash]) = j := by
  induction c generalizing i with
  | nil => simp [lastSlash]
  | cons ch c ih =>
    have hch : ch ≠ slash := fun heq => hc (by simp [heq])
    simp only [List.cons_append, lastSlash, hch, false_and, if_false]
    exact ih (fun hm => hc (by simp [hm])) _

/-- The slash at the end of a path is no separator. -/
theorem lastSlash_append_trailing (hc : Canonical c) (a : Str) (i j : Nat) :
    lastSlash i j (a ++ slash :: (c ++ [slash])) = i + a.length := by
  induction a generalizing i j with
  | nil => simp [lastSlash, lastSlash_trailing hc.2]
  | cons ch a ih =>
    rw [List.cons_append, lastSlash, ih, List.length_cons]
    omega

theorem deal_pathOf_trailing (hc : Canonical c)
    (hlen : (pathOf (p ++ [c]) ++ [slash]).length ≤ fileNameLen) :
    deal (pathOf (p ++ [c]) ++ [slash]) = some (absolute p ++ [slash], c) := by
  rw [pathOf_snoc, List.append_assoc, List.cons_append] at hlen ⊢
  have hlen' : ¬ (fileNameLen < (absolute p ++ slash :: (c ++ [slash])).length ∨
      (absolute p ++ slash :: (c ++ [slash])).length ≤ 1) := by
    simp only [List.length_append, List.length_cons] at hlen ⊢
    omega
  have hsplit : absolute p ++ slash :: (c ++ [slash]) =
      (absolute p ++ [slash]) ++ (c ++ [slash]) := by simp
  have hcut : (absolute p).length + 1 = (absolute p ++ [slash]).length := by simp
  rw [deal, if_neg hlen', lastSlash_append_trailing hc, Nat.zero_add]
  dsimp only
  rw [hcut, hsplit, List.take_left, List.drop_left, if_pos List.getLast?_concat,
    List.dropLast_concat]

/-- The slash at the end is looked at and makes no difference. -/
theorem searchDHash_trailing (hp : ∀ x ∈ p ++ [c], Canonical x) (hfit : FitsName (p ++ [c])) :
    searchDHash s (pathOf (p ++ [c]) ++ [slash]) = walk s rootId (p ++ [c]) := by
  rw [pathOf, if_neg (by simp)]
  exact searchDHash_dirname hp hfit

/-- Both strings of a path are cut and searched alike. -/
theorem split_and_search {path : Str} (canonical : ∀ x ∈ p ++ [c], Canonical x)
    (hpath : path = pathOf (p ++ [c]) ∨ path = pathOf (p ++ [c]) ++ [slash])
    (hlen : path.length < fileNameLen) :
    FitsName (p ++ [c]) ∧ deal (pathOf (p ++ [c])) = some (absolute p ++ [slash], c) ∧
      deal path = some (absolute p ++ [slash], c) ∧
      searchDHash s path = walk s rootId (p ++ [c]) := by
  have hc := canonical c (by simp)
  have hshort : (pathOf (p ++ [c])).length ≤ fileNameLen := by
    rcases hpath with rfl | rfl
    · exact Nat.le_of_lt hlen
    · rw [List.length_append] at hlen
      omega
  have hdeal := deal_pathOf hc hshort
  have hfit := fitsName_of_deal hdeal
  refine ⟨hfit, hdeal, ?_⟩
  rcases hpath with rfl | rfl
  · exact ⟨hdeal, searchDHash_pathOf canonical hfit⟩
  · exact ⟨deal_pathOf_trailing hc (Nat.le_of_lt hlen), searchDHash_trailing canonical hfit⟩

end

/-! ## The two agree -/

/-- On a canonical path other than the root, with or without a slash behind it: `deal` yields the
last component; where every proper prefix that exists is a directory, the search is a lookup of
that component in what a search for the other part finds; and the slash makes no difference. -/
theorem path_splitting {s : Fs} {kids : InodeId → List InodeId} (tree : Tree s kids)
    {p : List Str} {c path : Str} (canonical : ∀ x ∈ p ++ [c], Canonical x)
    (hpath : path = pathOf (p ++ [c]) ∨ path = pathOf (p ++ [c]) ++ [slash])
    (hlen : path.length < fileNameLen) :
    ∃ dirname, deal path = some (dirname, c) ∧
      ((∀ q, q <+: p → ∀ d, searchDHash s (pathOf q) = some (some d) →
          (s.inodes d).isDirectories = true) →
        ∃ father r, searchDHash s dirname = some father ∧ searchDHash s path = some r ∧
          lookIn s c father = some r) ∧
      deal path = deal (pathOf (p ++ [c])) ∧
      searchDHash s path = searchDHash s (pathOf (p ++ [c])) := by
  obtain ⟨hfit, hplain, hdeal, hsearch⟩ := split_and_search (s := s) canonical hpath hlen
  have hp : ∀ x ∈ p, Canonical x := fun x hx => canonical x (by simp [hx])
  have hfit' : FitsName p := fun x hx => hfit x (by simp [hx])
  refine ⟨_, hdeal, fun hdir => ?_, hdeal.trans hplain.symm,
    hsearch.trans (searchDHash_pathOf canonical hfit).symm⟩
  have hsearchable : Searchable s (p ++ [c]) := by
    intro q n hq d hd
    have hsub : q <+: p := List.prefix_of_prefix_length_le ((List.prefix_append q [n]).trans hq)
      (List.prefix_append p [c]) (by simpa using hq.length_le)
    refine ⟨hdir q hsub d ?_, hfit n (hq.subset (by simp))⟩
    rw [searchDHash_pathOf (fun x hx => hp x (hsub.subset hx)) fun x hx =>
      hfit' x (hsub.subset hx)]
    exact hd
  obtain ⟨r, hr⟩ := Option.ne_none_iff_exists'.mp
    (tree.searchDHash_of_searchable canonical hsearchable).2
  have hsnoc := walk_snoc s rootId p c
  rw [hr] at hsnoc
  obtain ⟨father, hfather, hlook⟩ := Option.bind_eq_some_iff.mp hsnoc.symm
  refine ⟨father, r, (searchDHash_dirname hp hfit').trans hfather, hsearch.trans hr, ?_⟩
  cases father <;> exact hlook

/-- `/a/b/` after `/a` was made: the directory is found, and the file is not. -/
theorem path_splitting_directory :
    ∃ s, Run FsStep (dhmpInit fun _ _ => 0) [.mkdir [47, 97]] s ∧
      ∃ dirname, deal [47, 97, 47, 98, 47] = some (dirname, [98]) ∧
        searchDHash s dirname = some (some 1) ∧
        searchDHash s [47, 97, 47, 98, 47] = some none ∧ lookIn s [98] (some 1) = some none := by
  have run : Run FsStep (dhmpInit fun _ _ => 0) [.mkdir [47, 97]] _ :=
    .single (.next trivial (by decide +kernel))
  obtain ⟨-, kids, tree⟩ := fsInv_run run
  have canonical : ∀ x ∈ [[97]] ++ [[98]], Canonical x := by decide
  have hpath : ([47, 97, 47, 98, 47] : Str) = pathOf ([[97]] ++ [[98]]) ∨
      ([47, 97, 47, 98, 47] : Str) = pathOf ([[97]] ++ [[98]]) ++ [slash] := .inr rfl
  obtain ⟨dirname, hdeal, hsearch, -⟩ := path_splitting tree canonical hpath (by decide)
  obtain ⟨father, r, hfather, hr, hlook⟩ := hsearch (by
    intro q hq d hd
    obtain rfl | rfl : q = [] ∨ q = [[97]] := by simpa [List.prefix_cons_iff] using hq
    · have hzero : some (some 0) = some (some d) := hd
      obtain rfl : 0 = d := by simpa using hzero
      rfl
    · have hone : some (some 1) = some (some d) := hd
      obtain rfl : 1 = d := by simpa using hone
      rfl)
  -- both searches can be run
  obtain rfl := (Prod.mk.inj (Option.some.inj hdeal)).1
  obtain rfl : some 1 = father := Option.some.inj hfather
  obtain rfl : none = r := Option.some.inj hr
  exact ⟨_, run, _, hdeal, hfather, hr, hlook⟩

end DhmpFs
