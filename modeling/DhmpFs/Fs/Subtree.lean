import DhmpFs.Fs.Banks
import DhmpFs.Fs.ErrorPaths

/-!
# Deleting a subtree

`dhmpDelete` unlinks the inode at a path from its directory, and recycles it after everything that
hangs below it. The path has to fit the buffers of `deal`, which are made for names; a rename can
make the path of a node longer.

## Main definitions

* `InSubtree`: the inodes reached from a node along the chains.
* `SubtreeDeleted`: what a deletion does, and what it leaves as it was.
-/

namespace DhmpFs

open Library

/-- `i` is `toDel` or hangs below it. -/
def InSubtree (s : Fs) (toDel i : InodeId) : Prop := Relation.ReflTransGen (OnChain s) toDel i

/-- The chunk belongs to an inode of the subtree. -/
def ChunkOf (s : Fs) (toDel : InodeId) (c : Chunk) : Prop :=
  ∃ i, InSubtree s toDel i ∧ c ∈ (s.inodes i).context

/-- The subtree at `toDel`, the son of `father` with the name `filename`, is deleted, and nothing
else has changed. -/
structure SubtreeDeleted (s : Fs) (father toDel : InodeId) (filename : Str) (s' : Fs) : Prop where
  slab : ∃ l, l.Nodup ∧ (∀ i, i ∈ l ↔ InSubtree s toDel i) ∧
    s'.freeInodeSlab = s.freeInodeSlab ++ l
  slab_nodup : s'.freeInodeSlab.Nodup
  slots : ∀ i, InSubtree s toDel i → ∀ slot, (s'.inodes i).cntId.get slot = none
  freed : ∀ c, ChunkOf s toDel c →
    s.bitmap c = true ∧ s'.bitmap c = false ∧ s'.contextAddr c = ⟨0, none⟩
  kept : ∀ c, ¬ ChunkOf s toDel c →
    s'.bitmap c = s.bitmap c ∧ s'.contextAddr c = s.contextAddr c
  bank : s'.bank = s.bank
  chain : ∃ pre post, (pre ++ toDel :: post).Nodup ∧
    Chain s.bro (s.son father) (pre ++ toDel :: post) ∧
    Chain s'.bro (s'.son father) (pre ++ post)
  chain_ne : ∀ d l, ¬ InSubtree s toDel d → d ≠ father → Chain s.bro (s.son d) l →
    Chain s'.bro (s'.son d) l
  entry : ∃ d d' e, (s.inodes father).dHash = some d ∧ (s'.inodes father).dHash = some d' ∧
    d.entries.Perm (e :: d'.entries) ∧ e.2 = some toDel ∧ s.names e.1 = filename
  child_father : ∀ n, child s' father n = if n = filename then some none else child s father n
  child_ne : ∀ d n, ¬ InSubtree s toDel d → d ≠ father → child s' d n = child s d n
  inode_father : s'.inodes father = { s.inodes father with
    son := (s'.inodes father).son
    sonNums := (s.inodes father).sonNums - 1
    dHash := (s'.inodes father).dHash }
  inode_son : ∀ i, OnChain s father i → i ≠ toDel →
    s'.inodes i = { s.inodes i with bro := (s'.inodes i).bro }
  inode_ne : ∀ i, ¬ InSubtree s toDel i → i ≠ father → ¬ OnChain s father i →
    s'.inodes i = s.inodes i

section

variable {s s₂ s' : Fs} {kids : InodeId → List InodeId} {father toDel i : InodeId}
  {filename : Str} {d' : HashMap InodeId InodeId} {l : List InodeId}

theorem Tree.inSubtree_iff (h : Tree s kids) :
    InSubtree s toDel i ↔ i = toDel ∨ Below kids toDel i := by
  have hstep : OnChain s = fun d i => i ∈ kids d := by
    funext d i
    exact propext h.onChain_iff
  unfold InSubtree Below
  rw [hstep, Relation.reflTransGen_iff_eq_or_transGen]

theorem Tree.not_inSubtree_father (h : Tree s kids) (hdel : toDel ∈ kids father) :
    ¬ InSubtree s toDel father := by
  rw [h.inSubtree_iff]
  rintro (heq | hb)
  · exact h.forest.son_ne hdel heq.symm
  · exact (h.forest.below_son hdel hb).1 rfl

/-- A chunk that no inode owns has a blank context. -/
theorem Owned.contextAddr_free (o : Owned s) {c : Chunk}
    (hc : (s.contextAddr c).whichInodeItIs = none) : s.contextAddr c = ⟨0, none⟩ := by
  have hb : s.bitmap c = false := by
    by_contra hb
    exact (o.bitmap_iff c).mp (by simpa using hb) hc
  have hsize := o.size_free c hb
  cases hctx : s.contextAddr c
  simp_all

theorem Owned.bitmap_congr (o : Owned s) (o' : Owned s') {c : Chunk}
    (hc : s'.contextAddr c = s.contextAddr c) : s'.bitmap c = s.bitmap c := by
  rw [Bool.eq_iff_iff, o.bitmap_iff, o'.bitmap_iff, hc]

/-- A chunk of an inode that is blank afterwards has been freed. -/
theorem KeepsContexts.freed (k : KeepsContexts s s') (o : Owned s) (o' : Owned s')
    (hi : (s'.inodes i).context = []) {c : Chunk} (hc : c ∈ (s.inodes i).context) :
    s.bitmap c = true ∧ s'.bitmap c = false ∧ s'.contextAddr c = ⟨0, none⟩ := by
  obtain ⟨slot, hget⟩ := (o.context_iff i c).mp hc
  have hblank : s'.contextAddr c = ⟨0, none⟩ := by
    refine (k c).resolve_left fun hsame => ?_
    have hwhich := (o.which_iff i slot c).mp hget
    rw [← hsame] at hwhich
    have hmem := o'.mem_of_get ((o'.which_iff i slot c).mpr hwhich)
    simp [hi] at hmem
  refine ⟨o.bitmap_of_get hget, ?_, hblank⟩
  by_contra hb
  exact (o'.bitmap_iff c).mp (by simpa using hb) (by rw [hblank])

/-- A chunk has been kept if its inode, should it have one, has kept its index. -/
theorem KeepsContexts.kept (k : KeepsContexts s s') (o : Owned s) (o' : Owned s') {c : Chunk}
    (hindex : ∀ i, c ∈ (s.inodes i).context → (s'.inodes i).cntId = (s.inodes i).cntId) :
    s'.bitmap c = s.bitmap c ∧ s'.contextAddr c = s.contextAddr c := by
  have hsame : s'.contextAddr c = s.contextAddr c := by
    rcases k c with hsame | hblank
    · exact hsame
    cases hwhich : (s.contextAddr c).whichInodeItIs with
    | none => rw [hblank, o.contextAddr_free hwhich]
    | some owner =>
      obtain ⟨i, slot⟩ := owner
      have hget := (o.which_iff i slot c).mpr hwhich
      rw [← hindex i (o.mem_of_get hget), o'.which_iff, hblank] at hget
      cases hget
  exact ⟨o.bitmap_congr o' hsame, hsame⟩

/-- The one entry of its name is removed, and it is the entry of the son that is deleted. -/
theorem removed_entry {d : HashMap InodeId InodeId} (hv : d.Valid s.names)
    (hg : d.get s.names filename = some toDel)
    (hr : Assoc.Removed s.names d.entries filename d'.entries) :
    ∃ e : InodeId × Option InodeId, d.entries.Perm (e :: d'.entries) ∧ e.2 = some toDel ∧
      s.names e.1 = filename := by
  obtain ⟨k, hk, hname⟩ := hv.get_eq_some.mp hg
  have hout : (k, some toDel) ∉ d'.entries := fun hk' => hr.ne hv.distinct hk' hname
  cases hr with
  | absent hs => exact absurd hname (hs _ hk)
  | @present k' w hl hs =>
    rcases List.mem_cons.mp (hl.mem_iff.mp hk) with heq | hk'
    · obtain ⟨rfl, rfl⟩ := Prod.mk.inj heq
      exact ⟨(k, some toDel), hl, rfl, hname⟩
    · exact absurd hk' hout

/-- What is left of the map of the father. -/
theorem Deleted.child_father (h : Tree s kids) (hdel : toDel ∈ kids father)
    (hname : s.names toDel = filename) (w : Deleted s kids father toDel filename l s') (n : Str) :
    child s' father n = if n = filename then some none else child s father n := by
  obtain ⟨d, d', hd, hv, hr, hfather⟩ := w.inodes_father
  have hd' : (s'.inodes father).dHash = some d' := by rw [hfather]
  have hnames := w.hash h hdel hname hd'
  have hkeys : ∀ e ∈ d'.entries, s'.names e.1 = s.names e.1 := by
    intro e he
    obtain ⟨_, _, hk, -⟩ := hnames.entry e he
    exact w.names ((mem_remaining h hdel w).mp hk).2
  have hdistinct := (h.hash father d hd).valid.distinct
  simp only [child, hd, hd', Option.map_some]
  rw [hnames.valid.get_eq, Assoc.find_congr hkeys, hr.find hdistinct,
    (h.hash father d hd).valid.get_eq]
  grind

/-- The maps of the other directories find what they found. -/
theorem Deleted.child_ne (h : Tree s kids) (hdel : toDel ∈ kids father)
    (w : Deleted s kids father toDel filename l s') {d : InodeId} (hd : d ∉ l) (hne : d ≠ father)
    (n : Str) : child s' d n = child s d n := by
  have hmem := fun {i d} => mem_remaining (i := i) (d := d) h hdel w
  have hsons : remaining kids father toDel l d = kids d := by simp [remaining, hd, hne]
  unfold child
  rw [w.inodes_ne d hd hne]
  cases hm : (s.inodes d).dHash with
  | none => rfl
  | some m =>
    refine congrArg some ((h.hash d m hm).get_congr (fun i hi => w.names ?_) n)
    rw [← hsons] at hi
    exact (hmem.mp hi).2

/-- What is taken out of the tree by `removeSon` is the subtree. -/
theorem subtreeDeleted (h : Tree s kids) (o : Owned s) {d : HashMap InodeId InodeId}
    (hd : (s.inodes father).dHash = some d) (hg : d.get s.names filename = some toDel)
    (u : Detached s kids father toDel d' s₂) (hv : d'.Valid s.names)
    (hr : Assoc.Removed s.names d.entries filename d'.entries) (hn : l.Nodup)
    (hm : ∀ i, i ∈ l ↔ i = toDel ∨ Below kids toDel i) (w : WipedAll s₂ l s')
    (k : KeepsContexts s s') (hbank : s'.bank = s.bank) :
    SubtreeDeleted s father toDel filename s' := by
  have hnames := h.hash father d hd
  obtain ⟨hdel, hname⟩ := hnames.get hg
  have hdeleted := u.deleted h hdel hd hv hr hn hm w
  have hmem : ∀ i, i ∈ l ↔ InSubtree s toDel i := fun i => by rw [hm, h.inSubtree_iff]
  have hfather : father ∉ l := (hmem father).not.mpr (h.not_inSubtree_father hdel)
  have hself : father ∉ kids father := fun hf => h.forest.son_ne hf rfl
  have hcontext : ∀ i ∈ l, (s'.inodes i).context = [] := by
    intro i hi
    obtain ⟨index, hw⟩ := w.inodes i hi
    rw [hw]
    rfl
  have hinode : ∀ i, i ∉ l → s'.inodes i = s₂.inodes i := w.inodes_ne
  have hd' : (s'.inodes father).dHash = some d' := by
    rw [hinode father hfather, u.inodes]
    exact if_pos rfl
  constructor
  case slab => exact ⟨l, hn, hmem, hdeleted.slab⟩
  case slab_nodup => exact (tree_deleted h hdel hname hdeleted).slab_nodup
  case slots => exact fun i hi slot => w.owned.get_none (hcontext i ((hmem i).mpr hi)) slot
  case freed =>
    rintro c ⟨i, hi, hc⟩
    exact k.freed o w.owned (hcontext i ((hmem i).mpr hi)) hc
  case kept =>
    refine fun c hc => k.kept o w.owned fun i hi => ?_
    have hout : i ∉ l := fun hil => hc ⟨i, (hmem i).mp hil, hi⟩
    rw [hinode i hout, u.inodes]
  case bank => exact hbank
  case chain =>
    obtain ⟨pre, post, -, hsplit, herase⟩ := List.exists_erase_eq hdel
    have hnodup := h.forest.nodup father
    have hchain := h.forest.chain father
    have hchain' := hdeleted.chain father hfather
    rw [hsplit] at hnodup hchain
    rw [Function.update_self, herase] at hchain'
    exact ⟨pre, post, hnodup, hchain, hchain'⟩
  case chain_ne =>
    intro e l' he hne hl'
    have hchain := hdeleted.chain e ((hmem e).not.mpr he)
    rw [Function.update_of_ne hne] at hchain
    exact hl'.unique (h.forest.chain e) ▸ hchain
  case entry =>
    obtain ⟨e, he, htoDel, hkey⟩ := removed_entry hnames.valid hg hr
    exact ⟨d, d', e, hd, hd', he, htoDel, hkey⟩
  case child_father => exact hdeleted.child_father h hdel hname
  case child_ne => exact fun e n he hne => hdeleted.child_ne h hdel ((hmem e).not.mpr he) hne n
  case inode_father =>
    have hbro : (s₂.inodes father).bro = (s.inodes father).bro := u.bro_ne father hself
    rw [hinode father hfather, u.inodes]
    simp only [if_true, Fs.bro, hbro]
  case inode_son =>
    intro i hi hne
    have hk := h.onChain_iff.mp hi
    have hout : i ∉ l := fun hil => hne (hdeleted.eq_of_son h hdel hk hil)
    have hif : i ≠ father := h.forest.son_ne hk
    have hsame : (s₂.inodes i).son = (s.inodes i).son := u.son_ne i hif
    rw [hinode i hout, u.inodes]
    simp only [hif, if_false, Fs.son, hsame]
  case inode_ne =>
    intro i hi hne hson
    have hk : i ∉ kids father := fun hk => hson (h.onChain_iff.mpr hk)
    have hsame : (s₂.inodes i).son = (s.inodes i).son := u.son_ne i hne
    have hbro : (s₂.inodes i).bro = (s.inodes i).bro := u.bro_ne i hk
    rw [hinode i ((hmem i).not.mpr hi), u.inodes]
    simp only [hne, if_false, Fs.son, Fs.bro, hsame, hbro]

/-- An existing path that `deal` can cut leads to `removeSon`. -/
theorem dhmpDelete_existing (h : Tree s kids) {p : List Str} {c : Str}
    (canonical : ∀ x ∈ p ++ [c], Canonical x) (existing : Leads s (p ++ [c]) toDel)
    (hlen : (pathOf (p ++ [c])).length ≤ fileNameLen) :
    ∃ father d, Leads s p father ∧ (s.inodes father).dHash = some d ∧
      d.get s.names c = some toDel ∧
      dhmpDelete s (pathOf (p ++ [c])) = removeSon s father toDel c := by
  obtain ⟨father, hfather, hchild⟩ := leads_snoc.mp existing
  obtain ⟨d, hd, hg⟩ := Option.map_eq_some_iff.mp hchild
  have hdir : (s.inodes father).isDirectories = true := (h.dHash_iff father).mp (by simp [hd])
  obtain ⟨hdeal, hsearch, -, -⟩ := h.parent_spec canonical hlen
  refine ⟨father, d, hfather, hd, hg, ?_⟩
  unfold dhmpDelete dhmpDelFromInode
  rw [if_neg (length_pathOf_snoc_ne canonical)]
  simp [hdeal, hsearch, show walk s rootId p = some (some father) from hfather, hdir, hd, hg]

end

/-- `dhmpDelete` returns, and has deleted the subtree at the path and nothing else. -/
def DeletesSubtree (s : Fs) (p : List Str) (c : Str) (toDel : InodeId) : Prop :=
  ∃ father s', Leads s p father ∧ dhmpDelete s (pathOf (p ++ [c])) = some (s', 1) ∧
    SubtreeDeleted s father toDel c s'

/-- In every reachable state, the deletion of an existing path deletes just the subtree there exactly
when the path fits the buffers of `deal`. -/
theorem deletes_subtree_iff {bank : Nat → Nat → UInt8} {ops : List FsOp} {s : Fs} {p : List Str}
    {c : Str} {toDel : InodeId} (run : Run FsStep (dhmpInit bank) ops s)
    (canonical : ∀ x ∈ p ++ [c], Canonical x) (existing : Leads s (p ++ [c]) toDel) :
    DeletesSubtree s p c toDel ↔ (pathOf (p ++ [c])).length ≤ fileNameLen := by
  obtain ⟨o, kids, h⟩ := fsInv_run run
  constructor
  · rintro ⟨father, s', -, hdelete, -⟩
    by_contra hlen
    unfold dhmpDelete at hdelete
    rw [if_neg (length_pathOf_snoc_ne canonical)] at hdelete
    simp [deal_eq_none hlen] at hdelete
  · intro hlen
    obtain ⟨father, d, hfather, hd, hg, heq⟩ := dhmpDelete_existing h canonical existing hlen
    obtain ⟨s₂, s', l, d', hremove, u, hv, hr, hn, hm, w⟩ := removeSon_wiped h o hd hg
    have hrun : (FsOp.unlink (pathOf (p ++ [c]))).run s = some (s', 0) := by
      simp [FsOp.run, heq, hremove]
    have hnames : (FsOp.unlink (pathOf (p ++ [c]))).OnNames := trivial
    exact ⟨father, s', hfather, heq.trans hremove,
      subtreeDeleted h o hd hg u hv hr hn hm w (.removeSon hremove) (FsOp.run_bank hnames hrun)⟩

/-- `/d` is a directory with the file `/d/f`. -/
theorem deletes_subtree_directory : ∃ s, Run FsStep (dhmpInit fun _ _ => 0)
    [.mkdir [47, 100], .mknod [47, 100, 47, 102]] s ∧ DeletesSubtree s [] [100] 1 := by
  have run : Run FsStep (dhmpInit fun _ _ => 0) [.mkdir [47, 100], .mknod [47, 100, 47, 102]] _ :=
    .cons (.next trivial (by decide +kernel)) (.single (.next trivial (by decide +kernel)))
  refine ⟨_, run, (deletes_subtree_iff run (by decide) ?_).mpr (by decide)⟩
  rfl

/-- A name of 300 bytes. -/
def longName (ch : UInt8) : Str := List.replicate 300 ch

/-- `/a` is renamed, and its file has a path of 602 bytes. -/
def longPathOps : List FsOp :=
  [.mkdir [47, 97], .mknod ([47, 97, 47] ++ longName 98), .rename [47, 97] (47 :: longName 97)]

theorem not_deletes_subtree : ∃ s, Run FsStep (dhmpInit fun _ _ => 0) longPathOps s ∧
    Leads s [longName 97, longName 98] 2 ∧
    dhmpDelete s (pathOf [longName 97, longName 98]) = none ∧
    ¬ DeletesSubtree s [longName 97] (longName 98) 2 := by
  have run : Run FsStep (dhmpInit fun _ _ => 0) longPathOps _ :=
    .cons (.next trivial (by decide +kernel)) (.cons (.next trivial (by decide +kernel))
      (.single (.next trivial (by decide +kernel))))
  have undefined : dhmpDelete (FsOp.next (FsOp.next (FsOp.next (dhmpInit fun _ _ => 0)
      (.mkdir [47, 97])) (.mknod ([47, 97, 47] ++ longName 98)))
        (.rename [47, 97] (47 :: longName 97))) (pathOf [longName 97, longName 98]) = none := by
    decide +kernel
  refine ⟨_, run, ?_, undefined, ?_⟩
  · unfold Leads
    decide +kernel
  · rintro ⟨father, s', -, hdelete, -⟩
    rw [List.singleton_append, undefined] at hdelete
    cases hdelete

end DhmpFs
