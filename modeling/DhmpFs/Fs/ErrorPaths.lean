import DhmpFs.Fs.Rename

/-!
# Paths that do not exist

`search_d_hash` asks every node it comes to for its hash map and stops at the first name that is
not there. Only `dhmpCreateDirectory` and `dhmpDelFromInode` look at `isDirectories` first.

## Main definitions

* `Leads`: the hash maps lead along a path to a node.
* `Searchable`: the search asks only directories, for names that fit its buffer.
* `PathOp.Missing`: there is nothing an operation could work on.
* `FailsCleanly`: an operation fails, and that is all.
-/

namespace DhmpFs

open Library

/-- The hash maps lead from the root along `p` to the inode `i`. -/
def Leads (s : Fs) (p : List Str) (i : InodeId) : Prop := walk s rootId p = some (some i)

/-- Every node the search from `i` comes to is a directory, and every name it asks for fits. -/
def SearchableFrom (s : Fs) (i : InodeId) (p : List Str) : Prop :=
  ∀ q n, q ++ [n] <+: p → ∀ d, walk s i q = some (some d) →
    (s.inodes d).isDirectories = true ∧ n.length < fileNameLen

abbrev Searchable (s : Fs) (p : List Str) : Prop := SearchableFrom s rootId p

/-! ## The search -/

section search

variable {s : Fs} {kids : InodeId → List InodeId} {i d : InodeId} {p : List Str} {c n : Str}

/-- A directory, and only a directory, has a hash map that can be asked. -/
theorem Tree.child_eq_none_iff (h : Tree s kids) :
    child s d n = none ↔ (s.inodes d).isDirectories = false := by
  have hdir := h.dHash_iff d
  rw [child, Option.map_eq_none_iff]
  grind

theorem searchableFrom_nil : SearchableFrom s i [] := by
  intro q n hq
  simp at hq

theorem searchableFrom_cons :
    SearchableFrom s i (c :: p) ↔
      ((s.inodes i).isDirectories = true ∧ c.length < fileNameLen) ∧
        ∀ j, child s i c = some (some j) → SearchableFrom s j p := by
  constructor
  · intro h
    refine ⟨h [] c ⟨p, rfl⟩ i rfl, fun j hj q n hq d hd => ?_⟩
    obtain ⟨r, rfl⟩ := hq
    exact h (c :: q) n ⟨r, rfl⟩ d (by rw [walk, hj]; exact hd)
  · rintro ⟨hi, hrest⟩ q n hq d hd
    cases q with
    | nil =>
      obtain ⟨r, hr⟩ := hq
      obtain ⟨rfl, -⟩ := List.cons.inj hr
      obtain rfl : i = d := by simpa [walk] using hd
      exact hi
    | cons a q =>
      obtain ⟨r, hr⟩ := hq
      obtain ⟨rfl, rfl⟩ := List.cons.inj hr
      rw [walk] at hd
      rcases hj : child s i a with _ | _ | j <;> rw [hj] at hd
      · cases hd
      · cases hd
      · exact hrest j hj q n ⟨r, rfl⟩ d hd

/-- A search ends at a node that does not have the next name. -/
theorem searchLoop_end (hc : Canonical c) (hlen : c.length < fileNameLen)
    (hend : ∀ j, child s i c ≠ some (some j)) :
    searchLoop s false i [] (c ++ absolute p) = child s i c := by
  have hlen : ([] : Str).length + c.length < fileNameLen := by simpa using hlen
  cases p with
  | nil =>
    rw [absolute_nil, List.append_nil, searchLoop_last hc hlen, List.nil_append]
    grind
  | cons c' p =>
    rw [absolute_cons, searchLoop_component hc.2 hlen, List.nil_append]
    grind

/-- A search goes on from the node it finds. -/
theorem searchLoop_down (hc : Canonical c) (hlen : c.length < fileNameLen) {j : InodeId}
    (hj : child s i c = some (some j)) (c' : Str) :
    searchLoop s false i [] (c ++ absolute (c' :: p)) =
      searchLoop s false j [] (c' ++ absolute p) := by
  have hlen : ([] : Str).length + c.length < fileNameLen := by simpa using hlen
  rw [absolute_cons, searchLoop_component hc.2 hlen, List.nil_append, hj]

/-- A search from a file asks `NULL`, and a name that is too long overruns the buffer. -/
theorem Tree.searchLoop_stuck (h : Tree s kids) (hc : Canonical c)
    (hstuck : ¬ ((s.inodes i).isDirectories = true ∧ c.length < fileNameLen)) :
    searchLoop s false i [] (c ++ absolute p) = none := by
  by_cases hlen : c.length < fileNameLen
  · have hfile : child s i c = none := h.child_eq_none_iff.mpr (by grind)
    rw [searchLoop_end hc hlen (by simp [hfile]), hfile]
  · refine searchLoop_long hc.2 (by simpa using hlen) fun hnil => hc.1 ?_
    exact (List.append_eq_nil_iff.mp hnil).1

/-- The first name decides, if no node of that name is found. -/
theorem Tree.search_spec_first (h : Tree s kids) (hc : Canonical c)
    (hend : ∀ j, ¬ ((s.inodes i).isDirectories = true ∧ c.length < fileNameLen ∧
      child s i c = some (some j))) :
    (SearchableFrom s i (c :: p) → walk s i (c :: p) ≠ none ∧
      searchLoop s false i [] (c ++ absolute p) = walk s i (c :: p)) ∧
    (¬ SearchableFrom s i (c :: p) → searchLoop s false i [] (c ++ absolute p) = none) := by
  by_cases hstep : (s.inodes i).isDirectories = true ∧ c.length < fileNameLen
  · have hchild : child s i c ≠ none := mt h.child_eq_none_iff.mp (by grind)
    rw [searchableFrom_cons, walk]
    rcases hj : child s i c with _ | _ | j
    · exact absurd hj hchild
    · simp [hstep, searchLoop_end hc hstep.2, hj]
    · exact absurd ⟨hstep.1, hstep.2, hj⟩ (hend j)
  · have hnot : ¬ SearchableFrom s i (c :: p) := fun hs => hstep (searchableFrom_cons.mp hs).1
    exact ⟨fun hs => absurd hs hnot, fun _ => h.searchLoop_stuck hc hstep⟩

/-- The search walks as long as it comes to directories and to names that fit. -/
theorem Tree.search_spec (h : Tree s kids) (hc : Canonical c) (hp : ∀ x ∈ p, Canonical x) :
    (SearchableFrom s i (c :: p) → walk s i (c :: p) ≠ none ∧
      searchLoop s false i [] (c ++ absolute p) = walk s i (c :: p)) ∧
    (¬ SearchableFrom s i (c :: p) → searchLoop s false i [] (c ++ absolute p) = none) := by
  induction p generalizing c i with
  | nil =>
    by_cases hnext : ∃ j, (s.inodes i).isDirectories = true ∧ c.length < fileNameLen ∧
        child s i c = some (some j)
    · obtain ⟨j, hdir, hlen, hj⟩ := hnext
      have hlen' : ([] : Str).length + c.length < fileNameLen := by simpa using hlen
      have hs : SearchableFrom s i [c] :=
        searchableFrom_cons.mpr ⟨⟨hdir, hlen⟩, fun _ _ => searchableFrom_nil⟩
      simp [hs, walk, searchLoop_last hc hlen', hj]
    · exact h.search_spec_first hc (not_exists.mp hnext)
  | cons c' p ih =>
    by_cases hnext : ∃ j, (s.inodes i).isDirectories = true ∧ c.length < fileNameLen ∧
        child s i c = some (some j)
    · obtain ⟨j, hdir, hlen, hj⟩ := hnext
      have hrest := ih (i := j) (hp c' (by simp)) fun x hx => hp x (List.mem_cons_of_mem _ hx)
      have hiff : SearchableFrom s i (c :: c' :: p) ↔ SearchableFrom s j (c' :: p) := by
        rw [searchableFrom_cons, and_iff_right ⟨hdir, hlen⟩]
        simp [hj]
      rw [hiff, searchLoop_down hc hlen hj, walk, hj]
      exact hrest
    · exact h.search_spec_first hc (not_exists.mp hnext)

theorem Tree.searchDHash_of_searchable (h : Tree s kids) (hp : ∀ x ∈ p, Canonical x)
    (hs : Searchable s p) : searchDHash s (pathOf p) = walk s rootId p ∧ walk s rootId p ≠ none := by
  cases p with
  | nil => simp [searchDHash, pathOf, walk]
  | cons c p =>
    have hlen : (pathOf (c :: p)).length ≠ 1 := by simp [length_pathOf_eq_one hp]
    have hspec := (h.search_spec (hp c (by simp)) fun x hx => hp x (by simp [hx])).1 hs
    rw [searchDHash, if_neg hlen, pathOf, if_neg (by simp), absolute_cons, searchLoop_first]
    exact ⟨hspec.2, hspec.1⟩

/-- `search_d_hash` comes to an end just when all it asks are directories, for names that fit. -/
theorem Tree.searchDHash_ne_none_iff (h : Tree s kids) (hp : ∀ x ∈ p, Canonical x) :
    searchDHash s (pathOf p) ≠ none ↔ Searchable s p := by
  refine ⟨fun hne => ?_, fun hs => ?_⟩
  · by_contra hs
    cases p with
    | nil => exact hs searchableFrom_nil
    | cons c p =>
      have hlen : (pathOf (c :: p)).length ≠ 1 := by simp [length_pathOf_eq_one hp]
      have hspec := (h.search_spec (hp c (by simp)) fun x hx => hp x (by simp [hx])).2 hs
      refine hne ?_
      rw [searchDHash, if_neg hlen, pathOf, if_neg (by simp), absolute_cons, searchLoop_first, hspec]
  · obtain ⟨heq, hne⟩ := h.searchDHash_of_searchable hp hs
    rwa [heq]

theorem searchable_snoc :
    Searchable s (p ++ [c]) ↔ Searchable s p ∧
      ∀ d, Leads s p d → (s.inodes d).isDirectories = true ∧ c.length < fileNameLen := by
  constructor
  · refine fun h => ⟨fun q n hq => h q n (hq.trans (List.prefix_append _ _)), fun d hd => ?_⟩
    exact h p c (List.prefix_refl _) d hd
  · rintro ⟨hp, hc⟩ q n hq d hd
    rcases List.prefix_concat_iff.mp hq with heq | hq
    · obtain ⟨rfl, hn⟩ := List.append_inj' heq rfl
      obtain rfl : n = c := by simpa using hn
      exact hc d hd
    · exact hp q n hq d hd

theorem leads_snoc {i : InodeId} :
    Leads s (p ++ [c]) i ↔ ∃ d, Leads s p d ∧ child s d c = some (some i) := by
  unfold Leads
  rw [walk_snoc]
  rcases walk s rootId p with _ | _ | d <;> simp

theorem Leads.unique {i j : InodeId} (hi : Leads s p i) (hj : Leads s p j) : i = j :=
  Option.some.inj (Option.some.inj (hi.symm.trans hj))

end search

/-! ## The operations -/

/-- An operation on a path. -/
inductive PathOp where
  | mknod
  | mkdir
  | delete
  | getAttr (attr : Attr)
  | rename (dst : Str)

namespace PathOp

/-- The state after an operation and its result. -/
def run (op : PathOp) (s : Fs) (path : Str) : Option (Fs × Int) :=
  match op with
  | mknod => dhmpMknod s path
  | mkdir => dhmpCreateDirectory s path
  | delete => dhmpDelete s path
  | getAttr attr => (dhmpGetAttr s path attr).map fun (res, _) => (s, res)
  | rename dst => dhmpFsRename s path dst

/-- There is no directory for `c`, or an operation on an existing entry finds none. -/
def Missing (op : PathOp) (s : Fs) (p : List Str) (c : Str) : Prop :=
  (∀ d, Leads s p d → (s.inodes d).isDirectories = false) ∨
    match op with
    | mknod | mkdir => False
    | delete | getAttr _ | rename _ => ∀ i, ¬ Leads s (p ++ [c]) i

/-- The inodes whose `d_hash` is used: those the search comes to, and the parent. -/
def UsesHash (op : PathOp) (s : Fs) (p : List Str) (c : Str) (d : InodeId) : Prop :=
  match op with
  | mkdir | delete => (∃ q n, q ++ [n] <+: p ∧ Leads s q d) ∨
      Leads s p d ∧ (s.inodes d).isDirectories = true
  | mknod | getAttr _ | rename _ => ∃ q n, q ++ [n] <+: p ++ [c] ∧ Leads s q d

/-- When a missing path is noticed: the buffers are long enough, and nothing but a directory is
asked for a name. `dhmp_fs_rename` needs the parent. -/
def Noticed (op : PathOp) (s : Fs) (p : List Str) (c : Str) : Prop :=
  match op with
  | mkdir | delete => (pathOf (p ++ [c])).length ≤ fileNameLen ∧ Searchable s p
  | mknod => (pathOf (p ++ [c])).length ≤ fileNameLen ∧ Searchable s (p ++ [c])
  | getAttr _ => Searchable s (p ++ [c])
  | rename _ => (pathOf (p ++ [c])).length ≤ fileNameLen ∧
      ∃ d, Leads s p d ∧ (s.inodes d).isDirectories = true

end PathOp

/-- The operation returns a negative value, leaves everything as it was, and uses the hash maps of
directories only. -/
structure FailsCleanly (op : PathOp) (s : Fs) (p : List Str) (c : Str) : Prop where
  returns : ∃ res, res < 0 ∧ op.run s (pathOf (p ++ [c])) = some (s, res)
  uses : ∀ d, op.UsesHash s p c d → (s.inodes d).isDirectories = true

theorem FailsCleanly.run_ne {op : PathOp} {s : Fs} {p : List Str} {c : Str}
    (fails : FailsCleanly op s p c) : op.run s (pathOf (p ++ [c])) ≠ none := by
  obtain ⟨res, -, hrun⟩ := fails.returns
  simp [hrun]

/-! ## Each operation -/

section operations

variable {s : Fs} {kids : InodeId → List InodeId} {p : List Str} {c : Str}

/-- What an operation finds when it cuts the path and looks the directory up. -/
theorem Tree.parent_spec (h : Tree s kids) (canonical : ∀ x ∈ p ++ [c], Canonical x)
    (hlen : (pathOf (p ++ [c])).length ≤ fileNameLen) :
    deal (pathOf (p ++ [c])) = some (absolute p ++ [slash], c) ∧
      searchDHash s (absolute p ++ [slash]) = walk s rootId p ∧
      (walk s rootId p ≠ none ↔ Searchable s p) ∧ c.length < fileNameLen := by
  have hp : ∀ x ∈ p, Canonical x := fun x hx => canonical x (by simp [hx])
  have hdeal := deal_pathOf (canonical c (by simp)) hlen
  have hfit := fitsName_of_deal hdeal
  have hfit' : FitsName p := fun x hx => hfit x (by simp [hx])
  refine ⟨hdeal, searchDHash_dirname hp hfit', ?_, hfit c (by simp)⟩
  rw [← searchDHash_pathOf hp hfit']
  exact h.searchDHash_ne_none_iff hp

theorem deal_eq_none {path : Str} (hlen : ¬ path.length ≤ fileNameLen) : deal path = none := by
  unfold deal
  grind

theorem length_pathOf_snoc_ne (canonical : ∀ x ∈ p ++ [c], Canonical x) :
    (pathOf (p ++ [c])).length ≠ 1 := by
  simp [length_pathOf_eq_one canonical]

/-- A directory does not have the entry of a missing path. -/
theorem not_found {d : InodeId} {m : HashMap InodeId InodeId}
    (missing : (∀ d, Leads s p d → (s.inodes d).isDirectories = false) ∨
      ∀ i, ¬ Leads s (p ++ [c]) i)
    (hd : Leads s p d) (hdir : (s.inodes d).isDirectories = true)
    (hm : (s.inodes d).dHash = some m) : m.get s.names c = none := by
  rcases missing with hfile | hentry
  · simp [hfile d hd] at hdir
  · by_contra hne
    obtain ⟨i, hi⟩ := Option.ne_none_iff_exists'.mp hne
    exact hentry i (leads_snoc.mpr ⟨d, hd, by simp [child, hm, hi]⟩)

/-- `dhmpCreateDirectory` looks at the parent before it uses its hash map. -/
theorem mkdir_returns_iff (h : Tree s kids) (canonical : ∀ x ∈ p ++ [c], Canonical x)
    (missing : PathOp.mkdir.Missing s p c) :
    (∃ res, res < 0 ∧ dhmpCreateDirectory s (pathOf (p ++ [c])) = some (s, res)) ↔
      PathOp.mkdir.Noticed s p c := by
  have hfile := missing.resolve_right id
  unfold dhmpCreateDirectory PathOp.Noticed
  rw [if_neg (length_pathOf_snoc_ne canonical)]
  by_cases hlen : (pathOf (p ++ [c])).length ≤ fileNameLen
  · obtain ⟨hdeal, hsearch, hs, -⟩ := h.parent_spec canonical hlen
    simp only [hdeal, hsearch, ← hs, Option.bind_eq_bind, Option.bind_some]
    rcases hw : walk s rootId p with _ | _ | d
    · simp
    · simp [hlen]
    · simp [hlen, hfile d hw]
  · simp [deal_eq_none hlen, hlen]

/-- `dhmpMknod` uses the hash map of its parent, whatever the parent is. -/
theorem mknod_returns_iff (h : Tree s kids) (canonical : ∀ x ∈ p ++ [c], Canonical x)
    (missing : PathOp.mknod.Missing s p c) :
    (∃ res, res < 0 ∧ dhmpMknod s (pathOf (p ++ [c])) = some (s, res)) ↔
      PathOp.mknod.Noticed s p c := by
  have hfile := missing.resolve_right id
  unfold dhmpMknod PathOp.Noticed
  rw [if_neg (length_pathOf_snoc_ne canonical), searchable_snoc]
  by_cases hlen : (pathOf (p ++ [c])).length ≤ fileNameLen
  · obtain ⟨hdeal, hsearch, hs, -⟩ := h.parent_spec canonical hlen
    simp only [hdeal, hsearch, ← hs, Option.bind_eq_bind, Option.bind_some, Leads] at hfile ⊢
    rcases hw : walk s rootId p with _ | _ | d
    · simp
    · simp [hlen]
    · simp [h.dHash_none (hfile d hw), hfile d hw]
  · simp [deal_eq_none hlen, hlen]

/-- `dhmpDelFromInode` looks at the parent before it uses its hash map. -/
theorem delete_returns_iff (h : Tree s kids) (canonical : ∀ x ∈ p ++ [c], Canonical x)
    (missing : PathOp.delete.Missing s p c) :
    (∃ res, res < 0 ∧ dhmpDelete s (pathOf (p ++ [c])) = some (s, res)) ↔
      PathOp.delete.Noticed s p c := by
  unfold dhmpDelete dhmpDelFromInode PathOp.Noticed
  rw [if_neg (length_pathOf_snoc_ne canonical)]
  by_cases hlen : (pathOf (p ++ [c])).length ≤ fileNameLen
  · obtain ⟨hdeal, hsearch, hs, -⟩ := h.parent_spec canonical hlen
    simp only [hdeal, hsearch, ← hs, Option.bind_eq_bind, Option.bind_some]
    rcases hw : walk s rootId p with _ | _ | d
    · simp
    · simp [hlen]
    · cases hdir : (s.inodes d).isDirectories with
      | false => simp [hlen, hdir]
      | true =>
        obtain ⟨m, hm⟩ := Option.ne_none_iff_exists'.mp ((h.dHash_iff d).mpr hdir)
        have hnone := not_found missing hw hdir hm
        simp [hlen, hdir, hm, hnone]
  · simp [deal_eq_none hlen, hlen]

/-- `dhmpGetAttr` asks whatever it comes to on the way. -/
theorem getAttr_returns_iff (h : Tree s kids) (canonical : ∀ x ∈ p ++ [c], Canonical x)
    (attr : Attr) (missing : (PathOp.getAttr attr).Missing s p c) :
    (∃ res, res < 0 ∧ (PathOp.getAttr attr).run s (pathOf (p ++ [c])) = some (s, res)) ↔
      (PathOp.getAttr attr).Noticed s p c := by
  have hentry : ∀ i, ¬ Leads s (p ++ [c]) i := by
    rcases missing with hfile | hentry
    · intro i hi
      obtain ⟨d, hd, hchild⟩ := leads_snoc.mp hi
      rw [h.child_eq_none_iff.mpr (hfile d hd)] at hchild
      cases hchild
    · exact hentry
  have hiff := h.searchDHash_ne_none_iff canonical
  unfold PathOp.run PathOp.Noticed dhmpGetAttr
  rw [← hiff]
  rcases hr : searchDHash s (pathOf (p ++ [c])) with _ | _ | i
  · simp
  · simp
  · have hs := hiff.mp (by simp [hr])
    rw [(h.searchDHash_of_searchable canonical hs).1] at hr
    exact absurd hr (hentry i)

/-- `dhmp_fs_rename` uses the hash map of its parent, whether or not there is one. -/
theorem rename_returns_iff (h : Tree s kids) (canonical : ∀ x ∈ p ++ [c], Canonical x)
    (dst : Str) (missing : (PathOp.rename dst).Missing s p c) :
    (∃ res, res < 0 ∧ dhmpFsRename s (pathOf (p ++ [c])) dst = some (s, res)) ↔
      (PathOp.rename dst).Noticed s p c := by
  unfold dhmpFsRename PathOp.Noticed Leads
  by_cases hlen : (pathOf (p ++ [c])).length ≤ fileNameLen
  · obtain ⟨hdeal, hsearch, -, -⟩ := h.parent_spec canonical hlen
    simp only [hdeal, hsearch, Option.bind_eq_bind, Option.bind_some]
    rcases hw : walk s rootId p with _ | _ | d
    · simp
    · simp
    · cases hdir : (s.inodes d).isDirectories with
      | false => simp [h.dHash_none hdir, hdir]
      | true =>
        obtain ⟨m, hm⟩ := Option.ne_none_iff_exists'.mp ((h.dHash_iff d).mpr hdir)
        have hnone := not_found missing hw hdir hm
        simp [hlen, hm, hnone, hdir]
  · simp [deal_eq_none hlen, hlen]

/-- When a missing path is noticed, only directories have been asked. -/
theorem PathOp.Noticed.uses (h : Tree s kids) (canonical : ∀ x ∈ p ++ [c], Canonical x)
    {op : PathOp} (noticed : op.Noticed s p c) {d : InodeId} (hd : op.UsesHash s p c d) :
    (s.inodes d).isDirectories = true := by
  cases op with
  | mkdir | delete =>
    rcases hd with ⟨q, n, hq, hd⟩ | ⟨-, hdir⟩
    · exact (noticed.2 q n hq d hd).1
    · exact hdir
  | mknod =>
    obtain ⟨q, n, hq, hd⟩ := hd
    exact (noticed.2 q n hq d hd).1
  | getAttr attr =>
    obtain ⟨q, n, hq, hd⟩ := hd
    exact (noticed q n hq d hd).1
  | rename dst =>
    obtain ⟨q, n, hq, hd⟩ := hd
    obtain ⟨hlen, father, hfather, hdir⟩ := noticed
    obtain ⟨-, -, hs, hc⟩ := h.parent_spec canonical hlen
    have hsearchable : Searchable s (p ++ [c]) := by
      refine searchable_snoc.mpr ⟨hs.mp (by rw [hfather]; simp), fun e he => ?_⟩
      obtain rfl := he.unique hfather
      exact ⟨hdir, hc⟩
    exact (hsearchable q n hq d hd).1

theorem PathOp.returns_iff (h : Tree s kids) (canonical : ∀ x ∈ p ++ [c], Canonical x)
    {op : PathOp} (missing : op.Missing s p c) :
    (∃ res, res < 0 ∧ op.run s (pathOf (p ++ [c])) = some (s, res)) ↔ op.Noticed s p c := by
  cases op with
  | mknod => exact mknod_returns_iff h canonical missing
  | mkdir => exact mkdir_returns_iff h canonical missing
  | delete => exact delete_returns_iff h canonical missing
  | getAttr attr => exact getAttr_returns_iff h canonical attr missing
  | rename dst => exact rename_returns_iff h canonical dst missing

end operations

/-- In every reachable state, an operation on a missing path fails cleanly exactly when the buffers
are long enough and only directories are asked for a name: by the search, and by `dhmpMknod`,
`dhmpGetAttr` and `dhmp_fs_rename` in the parent too, which for `dhmp_fs_rename` has to exist. -/
theorem fails_cleanly_iff {bank : Nat → Nat → UInt8} {ops : List FsOp} {s : Fs} {p : List Str}
    {c : Str} (run : Run FsStep (dhmpInit bank) ops s) (canonical : ∀ x ∈ p ++ [c], Canonical x)
    {op : PathOp} (missing : op.Missing s p c) :
    FailsCleanly op s p c ↔ op.Noticed s p c := by
  obtain ⟨-, kids, h⟩ := fsInv_run run
  constructor
  · exact fun fails => (op.returns_iff h canonical missing).mp fails.returns
  · exact fun noticed => ⟨(op.returns_iff h canonical missing).mpr noticed,
      fun d hd => noticed.uses h canonical hd⟩

/-- `/f` is a file, and `/f/x` cannot be made a directory. -/
theorem fails_cleanly_mkdir : ∃ s, Run FsStep (dhmpInit fun _ _ => 0) [.mknod [47, 102]] s ∧
    FailsCleanly .mkdir s [[102]] [120] := by
  have run : Run FsStep (dhmpInit fun _ _ => 0) [.mknod [47, 102]] _ :=
    .single (.next trivial (by decide +kernel))
  have file : ∀ d, Leads (FsOp.next (dhmpInit fun _ _ => 0) (.mknod [47, 102])) [[102]] d →
      ((FsOp.next (dhmpInit fun _ _ => 0) (.mknod [47, 102])).inodes d).isDirectories = false := by
    intro d hd
    obtain rfl : 1 = d := Option.some.inj (Option.some.inj hd)
    rfl
  refine ⟨_, run, (fails_cleanly_iff run (by decide) (.inl file)).mpr ⟨by decide, ?_⟩⟩
  -- the search for the parent asks the root only
  intro q n hq d hd
  obtain ⟨rfl, rfl⟩ : q = [] ∧ n = [102] := by
    cases q with
    | nil => simpa using hq
    | cons x q => simpa using hq.length_le
  obtain rfl : rootId = d := Option.some.inj (Option.some.inj hd)
  exact ⟨rfl, by decide⟩

/-- `/f` is a file. To make a file `/f/x`, to ask for the attributes of `/f/x` and to rename `/g/x`
use the hash map of a file or of no inode at all. -/
theorem not_fails_cleanly : ∃ s, Run FsStep (dhmpInit fun _ _ => 0) [.mknod [47, 102]] s ∧
    (PathOp.mknod.Missing s [[102]] [120] ∧ ¬ FailsCleanly .mknod s [[102]] [120]) ∧
    (∀ attr, (PathOp.getAttr attr).Missing s [[102]] [120] ∧
      ¬ FailsCleanly (.getAttr attr) s [[102]] [120]) ∧
    ∀ dst, (PathOp.rename dst).Missing s [[103]] [120] ∧
      ¬ FailsCleanly (.rename dst) s [[103]] [120] := by
  have run : Run FsStep (dhmpInit fun _ _ => 0) [.mknod [47, 102]] _ :=
    .single (.next trivial (by decide +kernel))
  have file : ∀ d, Leads (FsOp.next (dhmpInit fun _ _ => 0) (.mknod [47, 102])) [[102]] d →
      ((FsOp.next (dhmpInit fun _ _ => 0) (.mknod [47, 102])).inodes d).isDirectories = false := by
    intro d hd
    obtain rfl : 1 = d := Option.some.inj (Option.some.inj hd)
    rfl
  refine ⟨_, run, ⟨.inl file, fun fails => fails.run_ne ?_⟩,
    fun attr => ⟨.inl file, fun fails => fails.run_ne ?_⟩,
    fun dst => ⟨.inl fun d hd => ?_, fun fails => fails.run_ne ?_⟩⟩
  · rfl
  · rfl
  · cases Option.some.inj hd
  · rfl

end DhmpFs
