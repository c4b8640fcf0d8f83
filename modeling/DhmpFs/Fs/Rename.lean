import DhmpFs.Fs.Namespace

/-!
# Renaming

`dhmp_fs_rename` removes the old name of a node from the hash map of its directory and stores the
node in that same directory under the last component of the new path. It does not look at the
rest of the new path, nor at what already has the new name.

## Main definitions

* `RenameCorrect`: the rename that was asked for.
* `NamesFree`: no other son of the directory has the old name or the new one.
-/

namespace DhmpFs

open Library

/-! ## Lookups that agree -/

/-- The length of a path that `deal` cuts. -/
theorem fitsName_of_deal {p : List Str} {r : Str × Str} (h : deal (pathOf p) = some r) :
    FitsName p := by
  have hlen := length_le_of_deal h
  intro c hc
  have hp : p ≠ [] := List.ne_nil_of_mem hc
  rw [pathOf, if_neg hp] at hlen
  exact (length_lt_absolute hc).trans_le hlen

section lookup

variable {s s' : Fs} {kids : InodeId → List InodeId} {names' : InodeId → Str}
  {p q : List Str} {c n : Str} {d i j : InodeId}

/-- Other names elsewhere do not change what a directory finds. -/
theorem Names.get_congr {sons : List InodeId} {m : HashMap InodeId InodeId}
    (h : Names s.names sons m) (hn : ∀ i ∈ sons, names' i = s.names i) (name : Str) :
    m.get names' name = m.get s.names name := by
  ext i
  have h' := h.congr hn
  rw [h'.valid.get_eq_some, h.valid.get_eq_some]
  refine exists_congr fun k => and_congr_right fun he => ?_
  obtain ⟨_, _, hk, -⟩ := h.entry _ he
  rw [hn k hk]

theorem Tree.child_some (h : Tree s kids) (hc : child s d n = some (some i)) :
    i ∈ kids d ∧ s.names i = n := by
  obtain ⟨m, hm, hg⟩ := Option.map_eq_some_iff.mp hc
  exact (h.hash d m hm).get hg

theorem searchDHash_snoc (hp : ∀ x ∈ p ++ [n], Canonical x) (hfit : FitsName (p ++ [n]))
    (hfather : searchDHash s (pathOf p) = some (some d)) :
    searchDHash s (pathOf (p ++ [n])) = child s d n := by
  rw [searchDHash_pathOf (fun x hx => hp x (List.mem_append_left _ hx))
    (fun x hx => hfit x (List.mem_append_left _ hx))] at hfather
  rw [searchDHash_pathOf hp hfit, walk_snoc, hfather]
  rfl

/-- A walk that ends somewhere follows a path of names. -/
theorem Tree.path_of_walk (h : Tree s kids) (hw : walk s rootId p = some (some i)) :
    PathTo kids s.names rootId p i := by
  induction p using List.reverseRecOn generalizing i with
  | nil =>
    obtain rfl : rootId = i := by simpa [walk] using hw
    exact .root
  | append_singleton p n ih =>
    rw [walk_snoc] at hw
    obtain ⟨r, hr, hw⟩ := Option.bind_eq_some_iff.mp hw
    cases r with
    | none => simp at hw
    | some d => exact PathTo.snoc_iff.mpr ⟨d, ih hr, h.child_some hw⟩

theorem Tree.path_unique (h : Tree s kids) (hp : PathTo kids s.names rootId p i)
    (hq : PathTo kids s.names rootId q i) : p = q :=
  hp.path_unique h.forest.father h.root_kids hq

/-- A component that is too long overruns the buffer of `search_d_hash`. -/
theorem searchLoop_long {name rest : Str} (hc : slash ∉ c)
    (hlen : fileNameLen ≤ name.length + c.length) (hne : c ++ rest ≠ []) :
    searchLoop s false i name (c ++ rest) = none := by
  induction c generalizing name with
  | nil =>
    cases rest with
    | nil => exact absurd rfl hne
    | cons ch rest =>
      have hname : fileNameLen ≤ name.length := by simpa using hlen
      simp [searchLoop, hname]
  | cons ch c ih =>
    rw [List.mem_cons, not_or] at hc
    rw [List.length_cons] at hlen
    rw [List.cons_append, searchLoop]
    by_cases hname : fileNameLen ≤ name.length
    · rw [if_pos hname]
    rw [if_neg hname]
    have hlong : fileNameLen ≤ (name ++ [ch]).length + c.length := by
      rw [List.length_append, List.length_singleton]
      omega
    by_cases hrest : c ++ rest = []
    · obtain ⟨rfl, rfl⟩ := List.append_eq_nil_iff.mp hrest
      have hch : ¬ ch = slash := fun heq => hc.1 heq.symm
      simp only [List.append_nil, or_true, if_true, Bool.false_eq_true, if_false, hch]
      exact if_pos hlong
    · rw [if_neg (by simp [hrest, Ne.symm hc.1])]
      exact ih hc.2 hlong hrest

/-- Two states find the same along a path if every directory on it finds the same. -/
theorem searchLoop_congr (h : Tree s kids) (hpath : PathTo kids s.names rootId q d)
    (hc : Canonical c) (hp : ∀ x ∈ p, Canonical x)
    (hchild : ∀ a n e, a ++ [n] <+: q ++ c :: p → PathTo kids s.names rootId a e →
      child s' e n = child s e n) :
    searchLoop s' false d [] (c ++ absolute p) = searchLoop s false d [] (c ++ absolute p) := by
  induction p generalizing q c d with
  | nil =>
    have hsame := hchild q c d (List.prefix_refl _) hpath
    rw [absolute_nil, List.append_nil]
    by_cases hlen : c.length < fileNameLen
    · have hlen' : ([] : Str).length + c.length < fileNameLen := by simpa using hlen
      rw [searchLoop_last hc hlen', searchLoop_last hc hlen', List.nil_append, hsame]
    · have hlong : ∀ t, searchLoop t false d [] (c ++ []) = none := fun t =>
        searchLoop_long hc.2 (by simpa using hlen) (by simpa using hc.1)
      rw [← List.append_nil c, hlong, hlong]
  | cons c' p ih =>
    have hpre : q ++ [c] <+: q ++ c :: c' :: p := ⟨c' :: p, by simp⟩
    have hsame := hchild q c d hpre hpath
    rw [absolute_cons]
    by_cases hlen : c.length < fileNameLen
    · have hlen' : ([] : Str).length + c.length < fileNameLen := by simpa using hlen
      rw [searchLoop_component hc.2 hlen', searchLoop_component hc.2 hlen', List.nil_append, hsame]
      rcases hnext : child s d c with _ | _ | next
      · rfl
      · rfl
      · refine ih (PathTo.snoc_iff.mpr ⟨d, hpath, h.child_some hnext⟩) (hp c' (by simp))
          (fun x hx => hp x (List.mem_cons_of_mem _ hx)) fun a n e ha => hchild a n e ?_
        simpa using ha
    · have hlong : ∀ t, searchLoop t false d [] (c ++ slash :: (c' ++ absolute p)) = none :=
        fun t => searchLoop_long hc.2 (by simpa using hlen) (by simp)
      rw [hlong, hlong]

theorem searchDHash_congr (h : Tree s kids) (hp : ∀ x ∈ p, Canonical x)
    (hchild : ∀ a n e, a ++ [n] <+: p → PathTo kids s.names rootId a e →
      child s' e n = child s e n) :
    searchDHash s' (pathOf p) = searchDHash s (pathOf p) := by
  unfold searchDHash
  cases p with
  | nil => rfl
  | cons c p =>
    have hlen : (pathOf (c :: p)).length ≠ 1 := by simp [length_pathOf_eq_one hp]
    rw [if_neg hlen, if_neg hlen, pathOf, if_neg (by simp), absolute_cons, searchLoop_first,
      searchLoop_first]
    exact searchLoop_congr (q := []) h .root (hp c (by simp))
      (fun x hx => hp x (List.mem_cons_of_mem _ hx)) (by simpa using hchild)

end lookup

/-! ## The rename that is asked for -/

/-- `c` in the directory `p` exists, the directory `q` exists, and the new path is neither the old
one nor inside it. -/
structure LegalRename (s : Fs) (p : List Str) (c : Str) (q : List Str) (e : Str) : Prop where
  canonical : ∀ x ∈ p ++ [c], Canonical x
  canonical' : ∀ x ∈ q ++ [e], Canonical x
  source : ∃ head, searchDHash s (pathOf (p ++ [c])) = some (some head)
  target : ∃ father, searchDHash s (pathOf q) = some (some father) ∧
    (s.inodes father).isDirectories = true
  outside : ¬ p ++ [c] <+: q ++ [e]

/-- The inode and all inodes below it are back on the slab, and their chunks are free. -/
def Freed (s s' : Fs) (i : InodeId) : Prop :=
  ∀ j, Relation.ReflTransGen (OnChain s) i j →
    j ∈ s'.freeInodeSlab ∧ (s'.inodes j).context = [] ∧
      ∀ chunk ∈ (s.inodes j).context, s'.bitmap chunk = false

/-- The node `c` of the directory `p` has become the node `e` of the directory `q`. -/
structure RenameCorrect (s : Fs) (p : List Str) (c : Str) (q : List Str) (e : Str) (s' : Fs) :
    Prop where
  target : ∀ head, searchDHash s (pathOf (p ++ [c])) = some (some head) →
    searchDHash s' (pathOf (q ++ [e])) = some (some head)
  source : searchDHash s' (pathOf (p ++ [c])) = some none
  listed : ∃ l, dhmpReadDir s' (pathOf q) = some l ∧ (l.map Prod.fst).count e = 1
  unlisted : ∃ l, dhmpReadDir s' (pathOf p) = some l ∧ c ∉ l.map Prod.fst
  replaced : ∀ i, searchDHash s (pathOf (q ++ [e])) = some (some i) → Freed s s' i
  others : ∀ r, (∀ x ∈ r, Canonical x) → ¬ p ++ [c] <+: r → ¬ q ++ [e] <+: r →
    searchDHash s' (pathOf r) = searchDHash s (pathOf r)

/-- Every son of the directory `p` but `c` itself has another name than `c` and `e`. -/
def NamesFree (s : Fs) (p : List Str) (c e : Str) : Prop :=
  ∀ father head i, searchDHash s (pathOf p) = some (some father) →
    searchDHash s (pathOf (p ++ [c])) = some (some head) → OnChain s father i → i ≠ head →
    s.names i ≠ c ∧ s.names i ≠ e

/-! ## What the code does -/

/-- The node `head` of the directory `father`, at the path `p`, is now called `e`. -/
structure Moved (s : Fs) (kids : InodeId → List InodeId) (p : List Str) (c e : Str)
    (father head : InodeId) (s' : Fs) : Prop where
  fits : FitsName (p ++ [c])
  path : PathTo kids s.names rootId p father
  isDirectories : ∀ i, (s'.inodes i).isDirectories = (s.inodes i).isDirectories
  canonical : ∀ x ∈ p ++ [c], Canonical x
  resolves : searchDHash s (pathOf p) = some (some father)
  found : child s father c = some (some head)
  tree : Tree s' kids
  names : s'.names = Function.update s.names head e
  child_father : ∀ n, child s' father n =
    if n = e then some (some head) else if n = c then some none else child s father n
  child_ne : ∀ d n, d ≠ father → child s' d n = child s d n

section

variable {s s' : Fs} {kids : InodeId → List InodeId} {p q : List Str} {c e : Str}
  {father head : InodeId}

theorem renamed_child (h : Tree s kids) {d d₁ d₂ : HashMap InodeId InodeId}
    (hd : (s.inodes father).dHash = some d) (hg : d.get s.names c = some head)
    (hv : d₁.Valid s.names) (hr : Assoc.Removed s.names d.entries c d₁.entries)
    (hput : d₁.put (Function.update s.names head e) head (some head) = some d₂) (n : Str) :
    child (renamed s father head e d₂) father n =
      if n = e then some (some head) else if n = c then some none else child s father n := by
  have hn := h.hash father d hd
  obtain ⟨hhead, hname⟩ := hn.get hg
  have hne : father ≠ head := (h.forest.son_ne hhead).symm
  -- without the old name, the buffer of `head` is no key
  have hkeys : ∀ x ∈ d₁.entries, Function.update s.names head e x.1 = s.names x.1 := by
    intro x hx
    refine Function.update_of_ne ?_ _ _
    intro heq
    exact hr.ne hn.valid.distinct hx (heq ▸ hname)
  have hv' := hv.congr hkeys
  obtain ⟨hv₂, hstored⟩ := HashMap.put_some hv' hput
  have hget : d₂.get (Function.update s.names head e) n =
      if n = e then some head else if n = c then none else d.get s.names n := by
    rw [hv₂.get_eq, hstored.find hv'.distinct, Assoc.find_congr hkeys, hr.find hn.valid.distinct,
      hn.valid.get_eq, Function.update_self]
    grind
  have hnames := renamed_names (s := s) hne e d₂
  simp only [child, renamed_inodes hne, hnames, if_true, Option.map_some, hget, hd]
  grind

theorem moved (h : Tree s kids) (legal : LegalRename s p c q e)
    (returns : dhmpFsRename s (pathOf (p ++ [c])) (pathOf (q ++ [e])) = some (s', 0)) :
    ∃ father head, Moved s kids p c e father head s' ∧ FitsName (q ++ [e]) := by
  have hc : Canonical c := legal.canonical c (by simp)
  have hp : ∀ x ∈ p, Canonical x := fun x hx => legal.canonical x (List.mem_append_left _ hx)
  obtain ⟨head, hsource⟩ := legal.source
  have hdeals : ∃ r r', deal (pathOf (p ++ [c])) = some r ∧ deal (pathOf (q ++ [e])) = some r' := by
    unfold dhmpFsRename at returns
    simp only [Option.bind_eq_bind, Option.bind_eq_some_iff, Option.pure_def] at returns
    obtain ⟨r, hr, _, -, father, -, d, -, hrest⟩ := returns
    cases hg : d.get s.names r.2 with
    | none => simp [hg] at hrest
    | some i =>
      simp only [hg, Option.bind_eq_some_iff] at hrest
      obtain ⟨_, -, r', hr', -⟩ := hrest
      exact ⟨r, r', hr, hr'⟩
  obtain ⟨r, r', hr, hr'⟩ := hdeals
  have hfit := fitsName_of_deal hr
  have hfit' : FitsName p := fun x hx => hfit x (List.mem_append_left _ hx)
  have hdeal := deal_pathOf (p := p) hc (length_le_of_deal hr)
  have hdeal' := deal_pathOf (p := q) (legal.canonical' e (by simp)) (length_le_of_deal hr')
  rw [searchDHash_pathOf legal.canonical hfit, walk_snoc] at hsource
  obtain ⟨father?, hwalk, hfound⟩ := Option.bind_eq_some_iff.mp hsource
  cases father? with
  | none => simp at hfound
  | some father =>
    have hfound : child s father c = some (some head) := hfound
    obtain ⟨d, hd, hg⟩ := Option.map_eq_some_iff.mp hfound
    have hresolves : Resolves s (pathOf (p ++ [c])) father c d :=
      ⟨_, hdeal, (searchDHash_dirname hp hfit').trans hwalk, hd⟩
    have heffect := dhmpFsRename_effect h returns
    generalize hop : FsOp.rename (pathOf (p ++ [c])) (pathOf (q ++ [e])) = op at heffect
    cases heffect with
    | fail idle =>
      subst hop
      exact absurd ⟨father, c, d, hresolves, by simp [hg]⟩ idle
    | create isDir => cases isDir <;> simp at hop
    | delete isDelete => rcases isDelete with rfl | rfl <;> simp at hop
    | data => simp at hop
    | rename name found target valid removed put =>
      obtain ⟨rfl, rfl⟩ := FsOp.rename.inj hop
      obtain ⟨rfl, rfl, rfl⟩ := hresolves.unique name
      obtain rfl := Option.some.inj (hg.symm.trans found)
      obtain ⟨todir, htarget⟩ := target
      obtain ⟨-, rfl⟩ := Prod.mk.inj (Option.some.inj (hdeal'.symm.trans htarget))
      have hhead := (h.child_some hfound).1
      have hne : father ≠ head := (h.forest.son_ne hhead).symm
      have hnames := renamed_names (s := s) hne e
      refine ⟨father, head, ⟨hfit, h.path_of_walk hwalk, fun i => by rw [renamed_inodes hne],
        legal.canonical, (searchDHash_pathOf hp hfit').trans hwalk, hfound,
        tree_renamed h hd found valid removed put, hnames _,
        renamed_child h hd found valid removed put, fun i n hi => ?_⟩, fitsName_of_deal hr'⟩
      unfold child
      rw [renamed_inodes hne, if_neg hi, hnames]
      cases hm : (s.inodes i).dHash with
      | none => rfl
      | some m =>
        refine congrArg some ((h.hash i m hm).get_congr (fun j hj => ?_) n)
        refine Function.update_of_ne ?_ _ _
        rintro rfl
        exact hi (h.forest.father _ _ _ hj hhead)

/-- Paths that are neither below the old one nor below the new name lead where they led. -/
theorem Moved.others (h : Tree s kids) (m : Moved s kids p c e father head s') {r : List Str}
    (hr : ∀ x ∈ r, Canonical x) (hc : ¬ p ++ [c] <+: r) (he : ¬ p ++ [e] <+: r) :
    searchDHash s' (pathOf r) = searchDHash s (pathOf r) := by
  refine searchDHash_congr h hr fun a n d ha hd => ?_
  by_cases hf : d = father
  · subst hf
    obtain rfl := h.path_unique hd m.path
    have hnc : n ≠ c := by
      rintro rfl
      exact hc ha
    have hne : n ≠ e := by
      rintro rfl
      exact he ha
    rw [m.child_father, if_neg hne, if_neg hnc]
  · exact m.child_ne d n hf

theorem not_prefix_snoc (p : List Str) (n : Str) : ¬ p ++ [n] <+: p := by
  intro hx
  have := hx.length_le
  simp at this

/-- The directory stays where it is and has the new name in place of the old one. -/
theorem Moved.resolves' (h : Tree s kids) (m : Moved s kids p c e father head s') :
    searchDHash s' (pathOf p) = some (some father) := by
  rw [m.others h (fun x hx => m.canonical x (List.mem_append_left _ hx)) (not_prefix_snoc p c)
    (not_prefix_snoc p e), m.resolves]

/-- The listing of the directory. -/
theorem Moved.listing (h : Tree s kids) (m : Moved s kids p c e father head s') :
    ∃ l, dhmpReadDir s' (pathOf p) = some l ∧
      (l.map Prod.fst).Perm (e :: ((kids father).erase head).map s.names) := by
  have hhead := (h.child_some m.found).1
  have hdir : (s'.inodes father).isDirectories = true := by
    rw [m.isDirectories]
    exact h.kids_dir father (List.ne_nil_of_mem hhead)
  obtain ⟨l, hl, hperm⟩ := m.tree.dhmpReadDir (m.resolves' h) hdir
  refine ⟨l, hl, (hperm.map Prod.fst).trans ?_⟩
  rw [List.map_map, m.names]
  refine ((List.perm_cons_erase hhead).map _).trans (.of_eq ?_)
  have hrest : ∀ j ∈ (kids father).erase head, Function.update s.names head e j = s.names j := by
    intro j hj
    refine Function.update_of_ne ?_ _ _
    rintro rfl
    exact (h.forest.nodup father).not_mem_erase hj
  simpa using hrest

/-- If nothing else has one of the names, the rename within a directory is as it should be. -/
theorem Moved.correct (h : Tree s kids) (legal : LegalRename s p c p e)
    (m : Moved s kids p c e father head s') (hfit : FitsName (p ++ [e]))
    (free : NamesFree s p c e) : RenameCorrect s p c p e s' := by
  have hec : c ≠ e := by
    rintro rfl
    exact legal.outside (List.prefix_refl _)
  have hsource : searchDHash s (pathOf (p ++ [c])) = some (some head) :=
    (searchDHash_snoc m.canonical m.fits m.resolves).trans m.found
  have hother : ∀ n ∈ ((kids father).erase head).map s.names, n ≠ c ∧ n ≠ e := by
    intro n hn
    obtain ⟨i, hi, rfl⟩ := List.mem_map.mp hn
    refine free father head i m.resolves hsource (h.onChain_iff.mpr (List.mem_of_mem_erase hi)) ?_
    rintro rfl
    exact (h.forest.nodup father).not_mem_erase hi
  obtain ⟨l, hl, hperm⟩ := m.listing h
  constructor
  case target =>
    intro i hi
    obtain rfl := Option.some.inj (Option.some.inj (hsource.symm.trans hi))
    rw [searchDHash_snoc legal.canonical' hfit (m.resolves' h), m.child_father, if_pos rfl]
  case source =>
    rw [searchDHash_snoc m.canonical m.fits (m.resolves' h), m.child_father, if_neg hec, if_pos rfl]
  case listed =>
    refine ⟨l, hl, ?_⟩
    have hnot : e ∉ ((kids father).erase head).map s.names := fun he => (hother e he).2 rfl
    rw [hperm.count_eq, List.count_cons_self, List.count_eq_zero_of_not_mem hnot]
  case unlisted =>
    refine ⟨l, hl, fun hc => ?_⟩
    rcases List.mem_cons.mp (hperm.mem_iff.mp hc) with heq | hc
    · exact hec heq
    · exact (hother c hc).1 rfl
  case replaced =>
    -- nothing had the new name
    intro i hi
    rw [searchDHash_snoc legal.canonical' hfit m.resolves] at hi
    obtain ⟨hson, hname⟩ := h.child_some hi
    have hne : i ≠ head := by
      rintro rfl
      exact hec ((h.child_some m.found).2.symm.trans hname)
    have hmem : e ∈ ((kids father).erase head).map s.names :=
      hname ▸ List.mem_map_of_mem ((List.mem_erase_of_ne hne).mpr hson)
    exact absurd rfl (hother e hmem).2
  case others => exact fun r hr hc he => m.others h hr hc he

/-- A correct rename stays within a directory and takes a name that nothing else has. -/
theorem Moved.condition (h : Tree s kids) (legal : LegalRename s p c q e)
    (m : Moved s kids p c e father head s') (hfit : FitsName (q ++ [e]))
    (correct : RenameCorrect s p c q e s') : q = p ∧ NamesFree s p c e := by
  have hsource : searchDHash s (pathOf (p ++ [c])) = some (some head) :=
    (searchDHash_snoc m.canonical m.fits m.resolves).trans m.found
  have hq : ∀ x ∈ q, Canonical x := fun x hx => legal.canonical' x (List.mem_append_left _ hx)
  have hfitq : FitsName q := fun x hx => hfit x (List.mem_append_left _ hx)
  obtain ⟨todir, htodir, -⟩ := legal.target
  have hout : ¬ p ++ [c] <+: q := fun hpre =>
    legal.outside (hpre.trans (List.prefix_append _ _))
  have htodir' : searchDHash s' (pathOf q) = some (some todir) := by
    rw [correct.others q hq hout (not_prefix_snoc q e), htodir]
  -- the node is a son of its new directory, and it never changed its father
  have hsame : todir = father := by
    have htarget := correct.target head hsource
    rw [searchDHash_snoc legal.canonical' hfit htodir'] at htarget
    exact h.forest.father _ _ _ (m.tree.child_some htarget).1 (h.child_some m.found).1
  obtain rfl : q = p := by
    rw [searchDHash_pathOf hq hfitq, hsame] at htodir
    exact h.path_unique (h.path_of_walk htodir) m.path
  refine ⟨rfl, fun father' head' i hfather' hhead' hi hne => ?_⟩
  obtain rfl := Option.some.inj (Option.some.inj (m.resolves.symm.trans hfather'))
  obtain rfl := Option.some.inj (Option.some.inj (hsource.symm.trans hhead'))
  have hmem : s.names i ∈ ((kids father).erase head).map s.names :=
    List.mem_map_of_mem ((List.mem_erase_of_ne hne).mpr (h.onChain_iff.mp hi))
  obtain ⟨l, hl, hperm⟩ := m.listing h
  constructor
  · obtain ⟨l', hl', hnot⟩ := correct.unlisted
    obtain rfl := Option.some.inj (hl.symm.trans hl')
    intro heq
    exact hnot (hperm.mem_iff.mpr (List.mem_cons_of_mem _ (heq ▸ hmem)))
  · obtain ⟨l', hl', hcount⟩ := correct.listed
    obtain rfl := Option.some.inj (hl.symm.trans hl')
    intro heq
    have hpos := List.count_pos_iff.mpr (heq ▸ hmem)
    rw [hperm.count_eq, List.count_cons_self] at hcount
    omega

end

/-- In every reachable state, a legal rename that returns `0` has done what was asked for exactly
when it stays in one directory in which no other node has the old name or the new one. -/
theorem rename_correct_iff {bank : Nat → Nat → UInt8} {ops : List FsOp} {s s' : Fs}
    {p q : List Str} {c e : Str} (run : Run FsStep (dhmpInit bank) ops s)
    (legal : LegalRename s p c q e)
    (returns : dhmpFsRename s (pathOf (p ++ [c])) (pathOf (q ++ [e])) = some (s', 0)) :
    RenameCorrect s p c q e s' ↔ q = p ∧ NamesFree s p c e := by
  obtain ⟨-, kids, h⟩ := fsInv_run run
  obtain ⟨father, head, m, hfit⟩ := moved h legal returns
  constructor
  · exact m.condition h legal hfit
  · rintro ⟨rfl, free⟩
    exact m.correct h legal hfit free

/-- `/a` is renamed to `/b`. -/
theorem rename_correct_root : ∃ s s', Run FsStep (dhmpInit fun _ _ => 0) [.mknod [47, 97]] s ∧
    dhmpFsRename s (pathOf [[97]]) (pathOf [[98]]) = some (s', 0) ∧
    RenameCorrect s [] [97] [] [98] s' := by
  have run : Run FsStep (dhmpInit fun _ _ => 0) [.mknod [47, 97]] _ :=
    .single (.next trivial (by decide +kernel))
  have legal : LegalRename (FsOp.next (dhmpInit fun _ _ => 0) (.mknod [47, 97])) [] [97] [] [98] :=
    ⟨by decide, by decide, ⟨1, by rfl⟩, ⟨rootId, by rfl, by rfl⟩, by decide⟩
  have free : NamesFree (FsOp.next (dhmpInit fun _ _ => 0) (.mknod [47, 97])) [] [97] [98] := by
    rintro father head i hfather hhead ⟨l, hl, hi⟩ hne
    obtain rfl : rootId = father := Option.some.inj (Option.some.inj hfather)
    obtain rfl : 1 = head := Option.some.inj (Option.some.inj hhead)
    have hchain : Chain (FsOp.next (dhmpInit fun _ _ => 0) (.mknod [47, 97])).bro
        (Fs.son (FsOp.next (dhmpInit fun _ _ => 0) (.mknod [47, 97])) rootId) [1] :=
      ⟨by rfl, by rfl⟩
    obtain rfl := hl.unique hchain
    simp [Ne.symm hne] at hi
  have returns : (dhmpFsRename (FsOp.next (dhmpInit fun _ _ => 0) (.mknod [47, 97]))
      (pathOf [[97]]) (pathOf [[98]])).map Prod.snd = some 0 := by decide +kernel
  obtain ⟨⟨s', res⟩, hs', rfl⟩ := Option.map_eq_some_iff.mp returns
  exact ⟨_, s', run, hs', (rename_correct_iff run legal hs').mpr ⟨rfl, free⟩⟩

/-- `/a` is renamed to `/d/b`, and `/d/b` does not exist. -/
theorem not_rename_correct_across : ∃ s s',
    Run FsStep (dhmpInit fun _ _ => 0) [.mknod [47, 97], .mkdir [47, 100]] s ∧
    LegalRename s [] [97] [[100]] [98] ∧
    dhmpFsRename s (pathOf [[97]]) (pathOf [[100], [98]]) = some (s', 0) ∧
    ¬ RenameCorrect s [] [97] [[100]] [98] s' := by
  have run : Run FsStep (dhmpInit fun _ _ => 0) [.mknod [47, 97], .mkdir [47, 100]] _ :=
    .cons (.next trivial (by decide +kernel)) (.single (.next trivial (by decide +kernel)))
  have returns : (dhmpFsRename (FsOp.next (FsOp.next (dhmpInit fun _ _ => 0) (.mknod [47, 97]))
      (.mkdir [47, 100])) (pathOf [[97]]) (pathOf [[100], [98]])).map
        (fun r => (searchDHash r.1 (pathOf [[100], [98]]), r.2)) = some (some none, 0) := by
    decide +kernel
  obtain ⟨⟨s', res⟩, hs', hout⟩ := Option.map_eq_some_iff.mp returns
  obtain ⟨hsearch, rfl⟩ := Prod.mk.inj hout
  refine ⟨_, s', run, ⟨by decide, by decide, ⟨1, by rfl⟩, ⟨2, by rfl, by rfl⟩, by decide⟩, hs',
    fun correct => ?_⟩
  have htarget := correct.target 1 (by rfl)
  rw [List.singleton_append] at htarget
  simp [hsearch] at htarget

end DhmpFs
