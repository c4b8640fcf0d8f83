import DhmpFs.Fs.Create
import DhmpFs.Fs.Delete
import DhmpFs.Library.Run

/-!
# Runs of the file system

A step is an operation that returns. Its path arguments are arbitrary: a step on a path without
a father either fails or has no successor state. A file is written and read through the handle
of an inode in the tree.

## Main definitions

* `FsStep`: the steps.
* `Ownership`: which inode owns what, read off the pointers of a state.
-/

namespace DhmpFs

open Library

/-! ## The tree in a state -/

/-- `i` is on the son/bro chain of `d`, once. -/
def OnChain (s : Fs) (d i : InodeId) : Prop :=
  ∃ l, Chain s.bro (s.son d) l ∧ l.count i = 1

/-- The inodes reachable from the root along the chains. -/
inductive InTree (s : Fs) : InodeId → Prop
  | root : InTree s rootId
  | son {d i : InodeId} : InTree s d → OnChain s d i → InTree s i

namespace Tree

variable {s : Fs} {kids : InodeId → List InodeId} {d i : InodeId}

theorem onChain_iff (h : Tree s kids) : OnChain s d i ↔ i ∈ kids d := by
  constructor
  · rintro ⟨l, hl, hc⟩
    rw [← hl.unique (h.forest.chain d)]
    exact List.count_pos_iff.mp (by omega)
  · intro hi
    exact ⟨kids d, h.forest.chain d, List.count_eq_one_of_mem (h.forest.nodup d) hi⟩

theorem inTree_iff (h : Tree s kids) : InTree s i ↔ In kids i := by
  constructor
  · intro hi
    cases hi with
    | root => exact .inl rfl
    | son _ hc => exact .inr ⟨_, h.onChain_iff.mp hc⟩
  · intro hi
    induction h.reachable hi with
    | refl => exact .root
    | tail _ hk ih =>
      have hdir := h.kids_dir _ (List.ne_nil_of_mem hk)
      exact .son (ih (h.in_of_dir hdir)) (h.onChain_iff.mpr hk)

end Tree

/-! ## Steps -/

/-- Handles belong to inodes that are still in the tree. -/
def FsOp.Handle (s : Fs) : FsOp → Prop
  | .write fh _ _ => InTree s fh
  | .read fh _ _ => InTree s fh
  | _ => True

/-- An operation that returns. -/
def FsStep (s : Fs) (op : FsOp) (s' : Fs) : Prop :=
  op.Handle s ∧ ∃ res, op.run s = some (s', res)

/-- The state after an operation that returns. -/
def FsOp.next (s : Fs) (op : FsOp) : Fs := ((op.run s).map Prod.fst).getD s

theorem FsStep.next {s : Fs} {op : FsOp} (handle : op.Handle s)
    (returns : (op.run s).isSome = true) : FsStep s op (op.next s) := by
  obtain ⟨⟨s', res⟩, hr⟩ := Option.isSome_iff_exists.mp returns
  exact ⟨handle, res, by simp [FsOp.next, hr]⟩

/-! ## What a step does -/

/-- The father and the name a path stands for, as `deal` and `search_d_hash` find them. -/
def Resolves (s : Fs) (path : Str) (father : InodeId) (filename : Str)
    (d : HashMap InodeId InodeId) : Prop :=
  ∃ dirname, deal path = some (dirname, filename) ∧
    searchDHash s dirname = some (some father) ∧ (s.inodes father).dHash = some d

/-- The operation gets to change something: a creation finds its father and a free name, a
deletion or a rename finds its source. -/
def Acts (s : Fs) : FsOp → Prop
  | .mknod path | .mkdir path => ∃ father filename d,
      Resolves s path father filename d ∧ d.get s.names filename = none
  | .unlink path | .rmdir path | .rename path _ => ∃ father filename d,
      Resolves s path father filename d ∧ d.get s.names filename ≠ none
  | .write _ _ _ => True
  | .read _ _ _ => False

/-- The state after `head`, a son of `father`, got a new name. -/
def renamed (s : Fs) (father head : InodeId) (toname : Str) (dHash : HashMap InodeId InodeId) :
    Fs :=
  (s.modify father fun n => { n with dHash := some dHash }).modify head fun n =>
    { n with filename := toname }

/-- The effects a step can have. -/
inductive Effect (s : Fs) (kids : InodeId → List InodeId) : FsOp → Fs → Prop
  | fail {op : FsOp} (idle : ¬ Acts s op) : Effect s kids op s
  | create {path : Str} {father now : InodeId} {filename : Str} {d d' : HashMap InodeId InodeId}
      {s1 : Fs} (isDir : Bool) (name : Resolves s path father filename d)
      (free : d.get s.names filename = none) (spare : getFreeInode s = (s1, now))
      (put : d.put (Function.update s.names now filename) now (some now) = some d') :
      Effect s kids (if isDir then .mkdir path else .mknod path)
        (created s1 father now isDir filename d')
  | delete {op : FsOp} {path : Str} {father toDel : InodeId} {filename : Str}
      {d : HashMap InodeId InodeId} {l : List InodeId} {s' : Fs}
      (isDelete : op = .unlink path ∨ op = .rmdir path) (name : Resolves s path father filename d)
      (found : d.get s.names filename = some toDel)
      (deleted : Deleted s kids father toDel filename l s') : Effect s kids op s'
  | rename {src dst : Str} {father head : InodeId} {filename toname : Str}
      {d d₁ d₂ : HashMap InodeId InodeId} (name : Resolves s src father filename d)
      (found : d.get s.names filename = some head)
      (target : ∃ dirname, deal dst = some (dirname, toname))
      (valid : d₁.Valid s.names) (removed : Assoc.Removed s.names d.entries filename d₁.entries)
      (put : d₁.put (Function.update s.names head toname) head (some head) = some d₂) :
      Effect s kids (.rename src dst) (renamed s father head toname d₂)
  | data {fh : InodeId} {buf : List UInt8} {offset : Nat} {s' : Fs} (handle : InTree s fh)
      (only : DataOnly fh s s') (owned : Owned s') : Effect s kids (.write fh buf offset) s'

section effect

variable {s s' : Fs} {kids : InodeId → List InodeId} {path : Str} {res : Int}

theorem newNode_eq (h : Tree s kids) (isDir : Bool) {father : InodeId}
    {d : HashMap InodeId InodeId} (hd : (s.inodes father).dHash = some d) (filename : Str) :
    (if isDir then newDirectory s father filename else newFile s father filename) =
      if intMax ≤ (s.inodes father).sonNums then none
      else (d.put (Function.update s.names (getFreeInode s).2 filename) (getFreeInode s).2
        (some (getFreeInode s).2)).map
          (created (getFreeInode s).1 father (getFreeInode s).2 isDir filename) := by
  have hp := getFreeInode_spec h
  have hdir : (s.inodes father).isDirectories = true := (h.dHash_iff father).mp (by simp [hd])
  have hne := hp.father_ne h hdir
  cases isDir with
  | true => exact newDirectory_eq hp rfl hne hd
  | false => exact newFile_eq hp rfl hne hd

/-- A new inode hangs below its father. -/
theorem newNode_effect (h : Tree s kids) (isDir : Bool) {father : InodeId} {filename : Str}
    {d : HashMap InodeId InodeId} (name : Resolves s path father filename d)
    (free : d.get s.names filename = none)
    (hnew : (if isDir then newDirectory s father filename else newFile s father filename) =
      some s') : Effect s kids (if isDir then .mkdir path else .mknod path) s' := by
  obtain ⟨dirname, hdeal, hsearch, hd⟩ := name
  rw [newNode_eq h isDir hd] at hnew
  split at hnew
  · simp at hnew
  · obtain ⟨d', hput, rfl⟩ := Option.map_eq_some_iff.mp hnew
    exact .create isDir ⟨dirname, hdeal, hsearch, hd⟩ free rfl hput

/-- A path of one byte names nothing. -/
theorem not_resolves_of_length {father : InodeId} {filename : Str} {d : HashMap InodeId InodeId}
    (hlen : path.length = 1) : ¬ Resolves s path father filename d := by
  rintro ⟨dirname, hdeal, -⟩
  simp [deal, hlen] at hdeal

/-- A path stands for one name at most. -/
theorem resolves_iff {dirname filename : Str} {father? : Option InodeId}
    (hdeal : deal path = some (dirname, filename)) (hsearch : searchDHash s dirname = some father?)
    {father : InodeId} {name : Str} {d : HashMap InodeId InodeId} :
    Resolves s path father name d ↔
      name = filename ∧ father? = some father ∧ (s.inodes father).dHash = some d := by
  unfold Resolves
  constructor
  · rintro ⟨dirname', hdeal', hsearch', hd⟩
    obtain ⟨rfl, rfl⟩ := Prod.mk.inj (Option.some.inj (hdeal.symm.trans hdeal'))
    exact ⟨rfl, Option.some.inj (hsearch.symm.trans hsearch'), hd⟩
  · rintro ⟨rfl, rfl, hd⟩
    exact ⟨dirname, hdeal, hsearch, hd⟩

theorem Resolves.unique {father father' : InodeId} {name name' : Str}
    {d d' : HashMap InodeId InodeId} (h : Resolves s path father name d)
    (h' : Resolves s path father' name' d') : father = father' ∧ name = name' ∧ d = d' := by
  obtain ⟨dirname, hdeal, hsearch, hd⟩ := h
  obtain ⟨rfl, hf, hd'⟩ := (resolves_iff hdeal hsearch).mp h'
  obtain rfl := Option.some.inj hf
  exact ⟨rfl, rfl, Option.some.inj (hd.symm.trans hd')⟩

theorem not_resolves_of_file (h : Tree s kids) {dirname filename : Str} {father : InodeId}
    (hdeal : deal path = some (dirname, filename))
    (hsearch : searchDHash s dirname = some (some father))
    (hfile : (s.inodes father).isDirectories = false) {father' : InodeId} {name : Str}
    {d : HashMap InodeId InodeId} : ¬ Resolves s path father' name d := by
  rw [resolves_iff hdeal hsearch]
  rintro ⟨-, hf, hd⟩
  obtain rfl := Option.some.inj hf
  simp [h.dHash_none hfile] at hd

theorem dhmpMknod_effect (h : Tree s kids) (hr : dhmpMknod s path = some (s', res)) :
    Effect s kids (.mknod path) s' := by
  unfold dhmpMknod at hr
  split at hr
  · obtain ⟨rfl, -⟩ := Prod.mk.inj (Option.some.inj hr)
    exact .fail fun ⟨_, _, _, hres, _⟩ => not_resolves_of_length ‹_› hres
  simp only [Option.bind_eq_bind, Option.bind_eq_some_iff, Option.pure_def] at hr
  obtain ⟨⟨dirname, filename⟩, hdeal, father?, hsearch, hr⟩ := hr
  cases father? with
  | none =>
    obtain ⟨rfl, -⟩ := Prod.mk.inj (Option.some.inj hr)
    exact .fail fun ⟨_, _, _, hres, _⟩ => by simp [resolves_iff hdeal hsearch] at hres
  | some father =>
    obtain ⟨d, hd, hr⟩ := Option.bind_eq_some_iff.mp hr
    cases hg : d.get s.names filename with
    | some i =>
      simp only [hg, Option.some.injEq, Prod.mk.injEq] at hr
      obtain ⟨rfl, -⟩ := hr
      exact .fail fun ⟨_, _, _, hres, hfree⟩ => by simp_all [resolves_iff hdeal hsearch]
    | none =>
      simp only [hg, Option.bind_eq_some_iff, Option.some.injEq, Prod.mk.injEq] at hr
      obtain ⟨t, hnew, rfl, -⟩ := hr
      exact newNode_effect h false ⟨dirname, hdeal, hsearch, hd⟩ hg hnew

theorem dhmpCreateDirectory_effect (h : Tree s kids)
    (hr : dhmpCreateDirectory s path = some (s', res)) : Effect s kids (.mkdir path) s' := by
  unfold dhmpCreateDirectory at hr
  split at hr
  · obtain ⟨rfl, -⟩ := Prod.mk.inj (Option.some.inj hr)
    exact .fail fun ⟨_, _, _, hres, _⟩ => not_resolves_of_length ‹_› hres
  simp only [Option.bind_eq_bind, Option.bind_eq_some_iff, Option.pure_def] at hr
  obtain ⟨⟨dirname, filename⟩, hdeal, father?, hsearch, hr⟩ := hr
  cases father? with
  | none =>
    obtain ⟨rfl, -⟩ := Prod.mk.inj (Option.some.inj hr)
    exact .fail fun ⟨_, _, _, hres, _⟩ => by simp [resolves_iff hdeal hsearch] at hres
  | some father =>
    simp only at hr
    split at hr
    · obtain ⟨rfl, -⟩ := Prod.mk.inj (Option.some.inj hr)
      exact .fail fun ⟨_, _, _, hres, _⟩ =>
        not_resolves_of_file h hdeal hsearch ‹_› hres
    obtain ⟨d, hd, hr⟩ := Option.bind_eq_some_iff.mp hr
    cases hg : d.get s.names filename with
    | some i =>
      simp only [hg, Option.some.injEq, Prod.mk.injEq] at hr
      obtain ⟨rfl, -⟩ := hr
      exact .fail fun ⟨_, _, _, hres, hfree⟩ => by simp_all [resolves_iff hdeal hsearch]
    | none =>
      simp only [hg, Option.bind_eq_some_iff, Option.some.injEq, Prod.mk.injEq] at hr
      obtain ⟨t, hnew, rfl, -⟩ := hr
      exact newNode_effect h true ⟨dirname, hdeal, hsearch, hd⟩ hg hnew

theorem dhmpDelete_effect (h : Tree s kids) (o : Owned s) {op : FsOp}
    (hop : op = .unlink path ∨ op = .rmdir path)
    (hacts : Acts s op ↔ Acts s (.unlink path)) (hr : dhmpDelete s path = some (s', res)) :
    Effect s kids op s' := by
  have idle : (∀ father filename d, Resolves s path father filename d →
      d.get s.names filename = none) → ¬ Acts s op := by
    intro hnone hact
    obtain ⟨father, filename, d, hres, hne⟩ := hacts.mp hact
    exact hne (hnone father filename d hres)
  unfold dhmpDelete at hr
  split at hr
  · obtain ⟨rfl, -⟩ := Prod.mk.inj (Option.some.inj hr)
    exact .fail (idle fun _ _ _ hres => absurd hres (not_resolves_of_length ‹_›))
  simp only [Option.bind_eq_bind, Option.bind_eq_some_iff] at hr
  obtain ⟨⟨dirname, filename⟩, hdeal, father?, hsearch, hr⟩ := hr
  unfold dhmpDelFromInode at hr
  cases father? with
  | none =>
    obtain ⟨rfl, -⟩ := Prod.mk.inj (Option.some.inj hr)
    exact .fail (idle fun _ _ _ hres => by simp [resolves_iff hdeal hsearch] at hres)
  | some father =>
    simp only at hr
    split at hr
    · obtain ⟨rfl, -⟩ := Prod.mk.inj (Option.some.inj hr)
      exact .fail (idle fun _ _ _ hres =>
        absurd hres (not_resolves_of_file h hdeal hsearch ‹_›))
    obtain ⟨d, hd, hr⟩ := Option.bind_eq_some_iff.mp hr
    cases hg : d.get s.names filename with
    | none =>
      simp only [hg, Option.pure_def, Option.some.injEq, Prod.mk.injEq] at hr
      obtain ⟨rfl, -⟩ := hr
      exact .fail (idle fun _ _ _ hres => by simp_all [resolves_iff hdeal hsearch])
    | some toDel =>
      simp only [hg] at hr
      obtain ⟨t, l, ht, hdel⟩ := removeSon_spec h o hd hg
      obtain ⟨rfl, -⟩ := Prod.mk.inj (Option.some.inj (ht.symm.trans hr))
      exact .delete hop ⟨dirname, hdeal, hsearch, hd⟩ hg hdel

theorem dhmpFsRename_effect (h : Tree s kids) {src dst : Str}
    (hr : dhmpFsRename s src dst = some (s', res)) : Effect s kids (.rename src dst) s' := by
  unfold dhmpFsRename at hr
  simp only [Option.bind_eq_bind, Option.bind_eq_some_iff, Option.pure_def] at hr
  obtain ⟨⟨dirname, filename⟩, hdeal, father?, hsearch, father, rfl, d, hd, hr⟩ := hr
  have hn := h.hash father d hd
  cases hg : d.get s.names filename with
  | none =>
    simp only [hg, Option.some.injEq, Prod.mk.injEq] at hr
    obtain ⟨rfl, -⟩ := hr
    exact .fail fun ⟨_, _, _, hres, hfree⟩ => by simp_all [resolves_iff hdeal hsearch]
  | some head =>
    obtain ⟨d₁, hrem, hv, hremoved⟩ := HashMap.remove_spec hn.valid filename
    have hne : father ≠ head := (h.forest.son_ne (hn.get hg).1).symm
    simp only [hg, hrem, Option.some.injEq, exists_eq_left', Option.bind_eq_some_iff,
      Prod.mk.injEq] at hr
    obtain ⟨⟨todir, toname⟩, hdst, t, hput, rfl, -⟩ := hr
    have hnames : ((s.modify father fun n => { n with dHash := some d₁ }).modify head fun n =>
        { n with filename := toname }).names = Function.update s.names head toname := by
      refine names_eq s toname (by simp) fun i hi => ?_
      rw [Fs.modify_inodes_ne _ hi]
      by_cases hf : i = father
      · simp [hf]
      · rw [Fs.modify_inodes_ne _ hf]
    unfold putSon at hput
    simp only [Fs.modify_inodes_ne _ hne, Fs.modify_inodes_self, hnames,
      Option.map_eq_some_iff] at hput
    obtain ⟨d₂, hput, rfl⟩ := hput
    have ht : (((s.modify father fun n => { n with dHash := some d₁ }).modify head fun n =>
        { n with filename := toname }).modify father fun n => { n with dHash := some d₂ }) =
        renamed s father head toname d₂ := by
      simp only [renamed, Fs.modify, Function.update_self, Function.update_of_ne hne,
        Function.update_of_ne hne.symm]
      rw [Function.update_comm hne, Function.update_idem, Function.update_comm hne]
    rw [ht]
    exact .rename ⟨dirname, hdeal, hsearch, hd⟩ hg ⟨todir, hdst⟩ hv hremoved hput

/-- Every step has one of the effects. -/
theorem FsStep.effect (h : Tree s kids) (o : Owned s) {op : FsOp} (hs : FsStep s op s') :
    Effect s kids op s' := by
  obtain ⟨handle, res, hr⟩ := hs
  cases op with
  | mknod path =>
    obtain ⟨⟨t, r⟩, ht, he⟩ := Option.map_eq_some_iff.mp hr
    obtain ⟨rfl, -⟩ := Prod.mk.inj he
    exact dhmpMknod_effect h ht
  | mkdir path =>
    obtain ⟨⟨t, r⟩, ht, he⟩ := Option.map_eq_some_iff.mp hr
    obtain ⟨rfl, -⟩ := Prod.mk.inj he
    exact dhmpCreateDirectory_effect h ht
  | unlink path =>
    obtain ⟨⟨t, r⟩, ht, he⟩ := Option.map_eq_some_iff.mp hr
    obtain ⟨rfl, -⟩ := Prod.mk.inj he
    exact dhmpDelete_effect h o (.inl rfl) Iff.rfl ht
  | rmdir path =>
    obtain ⟨⟨t, r⟩, ht, he⟩ := Option.map_eq_some_iff.mp hr
    obtain ⟨rfl, -⟩ := Prod.mk.inj he
    exact dhmpDelete_effect h o (.inr rfl) Iff.rfl ht
  | rename src dst => exact dhmpFsRename_effect h hr
  | write fh buf offset =>
    obtain ⟨howned, honly⟩ := dhmpFsWrite_spec o hr
    exact .data handle honly howned
  | read fh size offset =>
    obtain ⟨⟨bytes, r⟩, -, he⟩ := Option.map_eq_some_iff.mp hr
    obtain ⟨rfl, -⟩ := Prod.mk.inj he
    exact .fail id

end effect

/-! ## What every step preserves -/

section preserved

variable {s s' : Fs} {kids : InodeId → List InodeId}

theorem renamed_inodes {father head : InodeId} (hne : father ≠ head) (toname : Str)
    (dHash : HashMap InodeId InodeId) (i : InodeId) :
    (renamed s father head toname dHash).inodes i = { s.inodes i with
      filename := if i = head then toname else (s.inodes i).filename
      dHash := if i = father then some dHash else (s.inodes i).dHash } := by
  by_cases hi : i = head
  · subst hi
    simp [renamed, Fs.modify_inodes_ne _ hne.symm, hne.symm]
  · by_cases hf : i = father
    · subst hf
      simp [renamed, Fs.modify_inodes_ne _ hi, hi]
    · simp [renamed, Fs.modify_inodes_ne _ hi, Fs.modify_inodes_ne _ hf, hi, hf]

theorem renamed_names {father head : InodeId} (hne : father ≠ head) (toname : Str)
    (dHash : HashMap InodeId InodeId) :
    (renamed s father head toname dHash).names = Function.update s.names head toname :=
  names_eq s toname (by simp [renamed_inodes hne]) fun i hi => by simp [renamed_inodes hne, hi]

theorem tree_renamed (h : Tree s kids) {father head : InodeId} {filename toname : Str}
    {d d₁ d₂ : HashMap InodeId InodeId} (hd : (s.inodes father).dHash = some d)
    (hg : d.get s.names filename = some head) (hv : d₁.Valid s.names)
    (hr : Assoc.Removed s.names d.entries filename d₁.entries)
    (hput : d₁.put (Function.update s.names head toname) head (some head) = some d₂) :
    Tree (renamed s father head toname d₂) kids := by
  have hn := h.hash father d hd
  obtain ⟨hhead, hname⟩ := hn.get hg
  have hne : father ≠ head := (h.forest.son_ne hhead).symm
  have hs := renamed_inodes (s := s) hne toname d₂
  have hnames := renamed_names (s := s) hne toname d₂
  have hson : (renamed s father head toname d₂).son = s.son := funext fun i => by
    simp only [Fs.son, hs]
  have hbro : (renamed s father head toname d₂).bro = s.bro := funext fun i => by
    simp only [Fs.bro, hs]
  have hdir : ∀ i, ((renamed s father head toname d₂).inodes i).isDirectories =
      (s.inodes i).isDirectories := fun i => by rw [hs]
  constructor
  case forest =>
    rw [hson, hbro]
    exact h.forest
  case root_kids => exact h.root_kids
  case placed => exact h.placed
  case slab_kids => exact h.slab_kids
  case slab_nodup => exact h.slab_nodup
  case spare =>
    intro i hi
    rw [hdir, hs]
    exact h.spare i hi
  case dHash_iff =>
    intro i
    rw [hdir, hs, ← h.dHash_iff]
    by_cases hf : i = father
    · simp [hf, hd]
    · simp [hf]
  case kids_dir => exact fun i hi => (hdir i).trans (h.kids_dir i hi)
  case hash =>
    intro i m hm
    rw [hnames]
    rw [hs] at hm
    by_cases hf : i = father
    · subst hf
      simp only [if_true, Option.some.injEq] at hm
      subst hm
      refine Names.put (hn.removed hv hr fun j hj hnj => ⟨hj, Function.update_of_ne ?_ _ _⟩)
        hhead hput
      rintro rfl
      exact hnj hname
    · simp only [hf, if_false] at hm
      refine (h.hash i m hm).congr fun j hj => Function.update_of_ne ?_ _ _
      rintro rfl
      exact hf (h.forest.father _ _ _ hj hhead)
  case sonNums =>
    intro i
    rw [hs]
    exact h.sonNums i
  case root_dir => exact (hdir _).trans h.root_dir

theorem tree_data (h : Tree s kids) {fh : InodeId} (hfh : InTree s fh) (hd : DataOnly fh s s') :
    Tree s' kids := by
  obtain ⟨hne, ⟨size, index, context, heq⟩, hl, hm⟩ := hd
  refine h.congr (fun i => ?_) (fun i hi => ?_) hm hl
  · by_cases hi : i = fh
    · subst hi
      simp [heq]
    · simp [hne i hi]
  · have hif : i ≠ fh := by
      rintro rfl
      exact h.not_spare (h.inTree_iff.mp hfh) hi
    rw [hne i hif]
    exact (h.spare i hi).2

end preserved

/-- The invariant of every reachable state. -/
def FsInv (s : Fs) : Prop := Owned s ∧ ∃ kids, Tree s kids

theorem Effect.fsInv {s s' : Fs} {kids : InodeId → List InodeId} {op : FsOp} (h : Tree s kids)
    (o : Owned s) (e : Effect s kids op s') : FsInv s' := by
  cases e with
  | fail => exact ⟨o, kids, h⟩
  | create isDir name free spare put =>
    obtain ⟨-, -, -, hd⟩ := name
    have hp := getFreeInode_spec h
    rw [spare] at hp
    exact ⟨owned_created o hp isDir, _, tree_created h hp hd put⟩
  | delete _ name found deleted =>
    obtain ⟨-, -, -, hd⟩ := name
    obtain ⟨hdel, hname⟩ := (h.hash _ _ hd).get found
    exact ⟨deleted.owned, _, tree_deleted h hdel hname deleted⟩
  | @rename _ _ father head _ toname _ _ d₂ name found _ valid removed put =>
    obtain ⟨-, -, -, hd⟩ := name
    refine ⟨o.congr (fun i => ?_) rfl rfl rfl, _, tree_renamed h hd found valid removed put⟩
    have hi : ((renamed s father head toname d₂).inodes i).cntId = (s.inodes i).cntId ∧
        ((renamed s father head toname d₂).inodes i).context = (s.inodes i).context ∧
        ((renamed s father head toname d₂).inodes i).size = (s.inodes i).size := by
      unfold renamed Fs.modify
      grind
    rw [hi.1, hi.2.1, hi.2.2]
    exact ⟨o.complete i, fun _ => rfl, rfl, rfl⟩
  | data handle only owned => exact ⟨owned, kids, tree_data h handle only⟩

theorem fsInv_step {s s' : Fs} {op : FsOp} (h : FsInv s) (hs : FsStep s op s') : FsInv s' := by
  obtain ⟨o, kids, h⟩ := h
  exact (hs.effect h o).fsInv h o

theorem fsInv_run {bank : Nat → Nat → UInt8} {ops : List FsOp} {s : Fs}
    (h : Run FsStep (dhmpInit bank) ops s) : FsInv s :=
  h.invariant FsInv (fun _ _ _ => fsInv_step) ⟨owned_dhmpInit bank, _, tree_dhmpInit bank⟩

end DhmpFs
