import DhmpFs.Fs.Entries

/-!
# Directories as chain, hash map and counter

A directory keeps its sons three times. Two steps can set them apart: a rename onto the name of
another son, which leaves that son on the chain without an entry, and a directory made of a
recycled inode, whose counter was not reset.

## Main definitions

* `DirRep`: the three records of a directory agree.
* `InStep`: the condition on a step under which they stay in step.
-/

namespace DhmpFs

open Library

/-- The chain, the hash map and the counter of the directory `d` all hold `sons`. -/
structure DirRep (s : Fs) (d : InodeId) (sons : List InodeId) : Prop where
  chain : Chain s.bro (s.son d) sons
  names : (sons.map s.names).Nodup
  hash : ∃ m, (s.inodes d).dHash = some m ∧ m.size = sons.length ∧
    ∀ name i, m.get s.names name = some i ↔ i ∈ sons ∧ s.names i = name
  sonNums : (s.inodes d).sonNums = sons.length

/-- The representation invariant of all directories of the tree. -/
def DirInv (s : Fs) : Prop :=
  ∀ d, InTree s d → (s.inodes d).isDirectories = true → ∃ sons, DirRep s d sons

/-- A directory that is created starts with a zero counter, and a rename does not hit the name
of another entry of the directory it works in. -/
def InStep (s : Fs) : FsOp → Prop
  | .mkdir path => Acts s (.mkdir path) →
      ((getFreeInode s).1.inodes (getFreeInode s).2).sonNums = 0
  | .rename src dst => ∀ father filename d todir toname, Resolves s src father filename d →
      d.get s.names filename ≠ none → deal dst = some (todir, toname) →
      toname = filename ∨ d.get s.names toname = none
  | _ => True

/-- Every directory records its sons in step. -/
structure Mirrored (s : Fs) (kids : InodeId → List InodeId) : Prop where
  hash : Exact s kids
  sonNums : ∀ d, (s.inodes d).isDirectories = true → (s.inodes d).sonNums = (kids d).length

/-! ## Steps in step -/

section step

variable {s s' : Fs} {kids : InodeId → List InodeId} {op : FsOp}

theorem mirrored_dhmpInit (bank : Nat → Nat → UInt8) : Mirrored (dhmpInit bank) fun _ => [] := by
  refine ⟨exact_dhmpInit bank, fun d _ => ?_⟩
  by_cases hd : d = rootId <;> simp [dhmpInit, hd, Inode.fresh]

/-- The representation invariant holds when the records are in step. -/
theorem Mirrored.dirRep (h : Tree s kids) (hm : Mirrored s kids) {d : InodeId}
    (hd : (s.inodes d).isDirectories = true) : DirRep s d (kids d) := by
  obtain ⟨m, hdm⟩ := Option.ne_none_iff_exists'.mp ((h.dHash_iff d).mpr hd)
  have hv := (h.hash d m hdm).valid
  have hp := hm.hash d m hdm
  refine ⟨h.forest.chain d, names_nodup hv hp, ⟨m, hdm, ?_, fun _ _ => get_eq_some_iff hv hp⟩,
    hm.sonNums d hd⟩
  rw [hv.size_eq, hp.length_eq, sonEntries, List.length_map]

theorem DirRep.sons_eq (h : Tree s kids) {d : InodeId} {sons : List InodeId}
    (hr : DirRep s d sons) : sons = kids d :=
  hr.chain.unique (h.forest.chain d)

theorem mirrored_created (h : Tree s kids) (hm : Mirrored s kids) {s1 : Fs}
    {father now : InodeId} {filename : Str} {d d' : HashMap InodeId InodeId} {isDir : Bool}
    (hp : Picked s s1 now) (hd : (s.inodes father).dHash = some d)
    (free : d.get s.names filename = none)
    (hput : d.put (Function.update s.names now filename) now (some now) = some d')
    (hcounter : isDir = true → (s1.inodes now).sonNums = 0) :
    Mirrored (created s1 father now isDir filename d')
      (Function.update kids father (now :: kids father)) := by
  have hdir : (s.inodes father).isDirectories = true := (h.dHash_iff father).mp (by simp [hd])
  have hne := hp.father_ne h hdir
  refine ⟨exact_created hm.hash h hp hd free hput, fun e hed => ?_⟩
  by_cases hf : e = father
  · subst hf
    rw [created_father filename d' hp isDir hne, Function.update_self]
    simp [hm.sonNums e hdir]
  · rw [Function.update_of_ne hf]
    by_cases hi : e = now
    · subst hi
      rw [created_now filename d' hp isDir hne] at hed ⊢
      simp [h.kids_spare hp.spare, hcounter hed]
    · rw [created_other filename d' hp isDir hi hf] at hed ⊢
      exact hm.sonNums e hed

theorem mirrored_deleted (h : Tree s kids) (hm : Mirrored s kids) {father toDel : InodeId}
    {filename : Str} {l : List InodeId} (hdel : toDel ∈ kids father)
    (hname : s.names toDel = filename) (w : Deleted s kids father toDel filename l s') :
    Mirrored s' (remaining kids father toDel l) := by
  refine ⟨exact_deleted hm.hash h hdel hname w, fun d hd => ?_⟩
  have hl : d ∉ l := by
    intro hl
    simp [(w.wiped h hl).1] at hd
  rw [remaining, if_neg hl]
  by_cases hf : d = father
  · subst hf
    obtain ⟨_, _, _, _, _, heq⟩ := w.inodes_father
    have hpos := List.length_pos_of_mem hdel
    rw [heq] at hd ⊢
    rw [Function.update_self, List.length_erase_of_mem hdel]
    simp only [hm.sonNums d hd]
    omega
  · rw [w.inodes_ne d hl hf] at hd ⊢
    rw [Function.update_of_ne hf]
    exact hm.sonNums d hd

theorem mirrored_renamed (h : Tree s kids) (hm : Mirrored s kids) {father head : InodeId}
    {filename toname : Str} {d d₁ d₂ : HashMap InodeId InodeId}
    (hd : (s.inodes father).dHash = some d) (hg : d.get s.names filename = some head)
    (hv₁ : d₁.Valid s.names)
    (hr : Assoc.Removed s.names d.entries filename d₁.entries)
    (hput : d₁.put (Function.update s.names head toname) head (some head) = some d₂)
    (hfree : toname = filename ∨ d.get s.names toname = none) :
    Mirrored (renamed s father head toname d₂) kids := by
  have hne : father ≠ head := (h.forest.son_ne ((h.hash father d hd).get hg).1).symm
  refine ⟨exact_renamed hm.hash h hd hg hv₁ hr hput hfree, fun e hed => ?_⟩
  rw [renamed_inodes hne] at hed ⊢
  exact hm.sonNums e hed

/-- Every step that meets the condition keeps all directories in step. -/
theorem Effect.mirrored (h : Tree s kids) (hm : Mirrored s kids) (ok : InStep s op)
    (e : Effect s kids op s') : ∃ kids', Tree s' kids' ∧ Mirrored s' kids' := by
  cases e with
  | fail => exact ⟨kids, h, hm⟩
  | @create path _ _ _ _ _ _ isDir name free spare put =>
    obtain ⟨dirname, hdeal, hsearch, hd⟩ := name
    have hp := getFreeInode_spec h
    have hcounter : isDir = true → ((getFreeInode s).1.inodes (getFreeInode s).2).sonNums = 0 := by
      rintro rfl
      exact ok ⟨_, _, _, ⟨dirname, hdeal, hsearch, hd⟩, free⟩
    rw [spare] at hp hcounter
    exact ⟨_, tree_created h hp hd put, mirrored_created h hm hp hd free put hcounter⟩
  | delete _ name found deleted =>
    obtain ⟨-, -, -, hd⟩ := name
    obtain ⟨hdel, hname⟩ := (h.hash _ _ hd).get found
    exact ⟨_, tree_deleted h hdel hname deleted, mirrored_deleted h hm hdel hname deleted⟩
  | rename name found target valid removed put =>
    obtain ⟨todir, hdst⟩ := target
    have hfree := ok _ _ _ _ _ name (by simp [found]) hdst
    obtain ⟨-, -, -, hd⟩ := name
    exact ⟨_, tree_renamed h hd found valid removed put,
      mirrored_renamed h hm hd found valid removed put hfree⟩
  | data handle only owned =>
    have hsame : ∀ i, (s'.inodes i).dHash = (s.inodes i).dHash ∧
        (s'.inodes i).isDirectories = (s.inodes i).isDirectories ∧
        (s'.inodes i).sonNums = (s.inodes i).sonNums := by
      intro i
      obtain ⟨_, _, _, heq⟩ := only.inodes
      have hne := only.inodes_ne i
      grind
    refine ⟨kids, tree_data h handle only, fun d m hd => ?_, fun d hd => ?_⟩
    · exact hm.hash d m ((hsame d).1 ▸ hd)
    · rw [(hsame d).2.2]
      exact hm.sonNums d ((hsame d).2.1 ▸ hd)

/-- A step that misses the condition sets a directory apart. -/
theorem Effect.not_dirInv (h : Tree s kids) (bad : ¬ InStep s op)
    (e : Effect s kids op s') : ¬ DirInv s' := by
  cases e with
  | fail idle =>
    cases op with
    | mkdir path => exact absurd (fun hact => absurd hact idle) bad
    | rename src dst =>
      refine absurd (fun father filename d _ _ name found _ => ?_) bad
      exact absurd ⟨father, filename, d, name, found⟩ idle
    | _ => exact absurd trivial bad
  | @create _ father now filename d d' s1 isDir name free spare put =>
    obtain ⟨-, -, -, hd⟩ := name
    have hp := getFreeInode_spec h
    cases isDir with
    | false => exact absurd trivial bad
    | true =>
      have hcounter : ((getFreeInode s).1.inodes (getFreeInode s).2).sonNums ≠ 0 :=
        fun hzero => bad fun _ => hzero
      rw [spare] at hp hcounter
      have hdir : (s.inodes father).isDirectories = true := (h.dHash_iff father).mp (by simp [hd])
      have hne := hp.father_ne h hdir
      have ht : Tree (created s1 father now true filename d') _ := tree_created h hp hd put
      have hnow := created_now filename d' hp true hne
      intro hinv
      obtain ⟨sons, hr⟩ := hinv now
        (ht.inTree_iff.mpr (.inr ⟨father, by simp⟩)) (by rw [hnow])
      have hsons := hr.sons_eq ht
      rw [Function.update_of_ne hne.symm, h.kids_spare hp.spare] at hsons
      have hnums := hr.sonNums
      rw [hnow, hsons] at hnums
      exact hcounter hnums
  | @delete op _ _ _ _ _ _ _ isDelete =>
    rcases isDelete with rfl | rfl <;> exact absurd trivial bad
  | @rename src dst father head filename toname d d₁ d₂ name found target valid removed put =>
    obtain ⟨todir, hdst⟩ := target
    -- the new name belongs to another son, which keeps it
    have hclash : toname ≠ filename ∧ d.get s.names toname ≠ none := by
      rw [← not_or]
      intro hfree
      refine bad fun father' filename' d' todir' toname' name' _ hdst' => ?_
      obtain ⟨-, rfl, rfl⟩ := name.unique name'
      obtain ⟨-, rfl⟩ := Prod.mk.inj (Option.some.inj (hdst.symm.trans hdst'))
      exact hfree
    obtain ⟨v, hv⟩ := Option.ne_none_iff_exists'.mp hclash.2
    obtain ⟨-, -, -, hd⟩ := name
    have hn := h.hash father d hd
    obtain ⟨hhead, hname⟩ := hn.get found
    obtain ⟨hvk, hvname⟩ := hn.get hv
    have hne : father ≠ head := (h.forest.son_ne hhead).symm
    have hvh : v ≠ head := by
      rintro rfl
      exact hclash.1 (hvname.symm.trans hname)
    have ht := tree_renamed h hd found valid removed put
    have hdir := h.kids_dir father (List.ne_nil_of_mem hhead)
    intro hinv
    obtain ⟨sons, hr⟩ := hinv father (ht.inTree_iff.mpr (h.in_of_dir hdir))
      (by rw [renamed_inodes hne]; exact hdir)
    have hnodup := hr.names
    rw [hr.sons_eq ht, renamed_names hne] at hnodup
    refine hvh (List.inj_on_of_nodup_map hnodup hvk hhead ?_)
    rw [Function.update_self, Function.update_of_ne hvh, hvname]
  | data => exact absurd trivial bad

end step

/-- The states of runs whose steps all meet the condition. -/
theorem mirrored_run {bank : Nat → Nat → UInt8} {ops : List FsOp} {s : Fs}
    (h : Run (guarded InStep FsStep) (dhmpInit bank) ops s) :
    Owned s ∧ ∃ kids, Tree s kids ∧ Mirrored s kids := by
  refine h.invariant (fun s => Owned s ∧ ∃ kids, Tree s kids ∧ Mirrored s kids) ?_
    ⟨owned_dhmpInit bank, _, tree_dhmpInit bank, mirrored_dhmpInit bank⟩
  rintro s op s' ⟨o, kids, ht, hm⟩ ⟨ok, hs⟩
  have e := hs.effect ht o
  exact ⟨(e.fsInv ht o).1, e.mirrored ht hm ok⟩

/-- While every step meets the condition all directories stay in step, and the first step that
misses it sets one apart. -/
theorem dirInv_run {bank : Nat → Nat → UInt8} {ops : List FsOp} {s : Fs}
    (h : Run (guarded InStep FsStep) (dhmpInit bank) ops s) :
    DirInv s ∧ ∀ op s', FsStep s op s' → (DirInv s' ↔ InStep s op) := by
  obtain ⟨o, kids, ht, hm⟩ := mirrored_run h
  refine ⟨fun d _ hd => ⟨kids d, hm.dirRep ht hd⟩, fun op s' hs => ⟨fun hinv => ?_, fun ok => ?_⟩⟩
  · by_contra bad
    exact (hs.effect ht o).not_dirInv ht bad hinv
  · obtain ⟨kids', ht', hm'⟩ := (hs.effect ht o).mirrored ht hm ok
    exact fun d _ hd => ⟨kids' d, hm'.dirRep ht' hd⟩

/-- A file is renamed to a new name. -/
theorem dirInv_run_rename :
    DirInv ([.mkdir [47, 98], .mknod [47, 97], .rename [47, 97] [47, 99]].foldl FsOp.next
      (dhmpInit fun _ _ => 0)) := by
  have free : InStep ([.mkdir [47, 98], .mknod [47, 97]].foldl FsOp.next (dhmpInit fun _ _ => 0))
      (.rename [47, 97] [47, 99]) := by
    intro father filename d todir toname name _ hdst
    obtain ⟨-, hf, hd⟩ := (resolves_iff rfl rfl).mp name
    obtain rfl : rootId = father := Option.some.inj hf
    obtain ⟨-, rfl⟩ := Prod.mk.inj (Option.some.inj (hdst.symm.trans rfl))
    obtain rfl := Option.some.inj hd
    exact .inr rfl
  have run : Run (guarded InStep FsStep) (dhmpInit fun _ _ => 0)
      [.mkdir [47, 98], .mknod [47, 97], .rename [47, 97] [47, 99]] _ :=
    .cons ⟨fun _ => rfl, .next trivial rfl⟩ (.cons ⟨trivial, .next trivial rfl⟩
      (.single ⟨free, .next trivial rfl⟩))
  exact (dirInv_run run).1

/-- A rename onto the name of another file leaves both files on the chain, with one name. -/
theorem not_dirInv_rename :
    ¬ ∀ (bank : Nat → Nat → UInt8) (ops : List FsOp) (s : Fs),
      Run FsStep (dhmpInit bank) ops s → DirInv s := by
  intro h
  have run : Run FsStep (dhmpInit fun _ _ => 0)
      [.mknod [47, 97], .mknod [47, 98], .rename [47, 97] [47, 98]] _ :=
    .cons (.next trivial rfl) (.cons (.next trivial rfl) (.single (.next trivial rfl)))
  obtain ⟨sons, hr⟩ := h _ _ _ run rootId .root rfl
  have hsons : sons = [2, 1] := hr.chain.unique ⟨rfl, rfl, rfl⟩
  have hnames := hr.names
  rw [hsons] at hnames
  exact absurd hnames (by decide)

end DhmpFs
