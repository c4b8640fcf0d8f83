import DhmpFs.Fs.Leak
import DhmpFs.Fs.ReadBack

/-!
# Files and their handles

A handle is the address of an inode. When its file is deleted, directly or with a directory above
it, the inode goes back to the slab and is handed out again: the handle then stands for the new
file.

## Main definitions

* `HandleStep`: the steps, with the times at which files come and go.
* `Isolated`: a handle keeps away from files created after its own was deleted.
* `HandleOp.Allowed`: the condition on the use of a handle.
-/

namespace DhmpFs

open Library

/-! ## Steps -/

/-- `dhmp_fs_open`: the inode goes into `fi->fh`, or the result is `-1` for `NULL`. -/
def dhmpFsOpen (s : Fs) (path : Str) : Option (Option InodeId) := searchDHash s path

/-- The file system with the handles that are open. Only the history variables know the files: when
the one in an inode was created, and when that of a handle was deleted. -/
structure Handles where
  fs : Fs
  opened : List InodeId
  clock : Nat
  born : InodeId → Nat
  died : Nat → Option Nat

/-- No handle is open. -/
def Handles.start (bank : Banks) : Handles := ⟨dhmpInit bank, [], 0, fun _ => 0, fun _ => none⟩

/-- A call; reads and writes name an open handle. -/
inductive HandleOp where
  | names (op : FsOp)
  | fsOpen (path : Str)
  | write (n : Nat) (buf : List UInt8) (offset : Nat)
  | read (n size offset : Nat)

/-- The history after an operation on names. -/
structure Recorded (h h' : Handles) : Prop where
  opened : h'.opened = h.opened
  clock : h'.clock = h.clock + 1
  born_new : ∀ i, InTree h'.fs i → ¬ InTree h.fs i → h'.born i = h.clock
  born_old : ∀ i, InTree h.fs i → h'.born i = h.born i
  died_old : ∀ n, h.died n ≠ none → h'.died n = h.died n
  died_new : ∀ n i, h.opened[n]? = some i → h.died n = none →
    (InTree h'.fs i → h'.died n = none) ∧ (¬ InTree h'.fs i → h'.died n = some h.clock)

inductive HandleStep (h : Handles) : HandleOp → Handles → Prop
  | names {op : FsOp} {h' : Handles} (hop : op.OnNames) (run : FsStep h.fs op h'.fs)
    (record : Recorded h h') : HandleStep h (.names op) h'
  | opened {path : Str} {i : InodeId} (found : dhmpFsOpen h.fs path = some (some i)) :
    HandleStep h (.fsOpen path)
      { h with
        opened := h.opened ++ [i]
        died := Function.update h.died h.opened.length none }
  | failed {path : Str} (found : dhmpFsOpen h.fs path = some none) : HandleStep h (.fsOpen path) h
  | write {n : Nat} {i : InodeId} {buf : List UInt8} {offset : Nat} {s' : Fs} {res : Int}
    (handle : h.opened[n]? = some i) (run : dhmpFsWrite h.fs i buf offset = some (s', res)) :
    HandleStep h (.write n buf offset) { h with fs := s' }
  | read {n size offset : Nat} {i : InodeId} {bytes : List UInt8} {res : Int}
    (handle : h.opened[n]? = some i) (run : dhmpFsRead h.fs i size offset = some (bytes, res)) :
    HandleStep h (.read n size offset) h

/-! ## Isolation -/

/-- The file in `g` was created after that of the handle `n` was deleted. -/
def CreatedAfter (h : Handles) (n : Nat) (g : InodeId) : Prop :=
  InTree h.fs g ∧ ∃ d, h.died n = some d ∧ d < h.born g

/-- The file in `g` has the size and the content it had. -/
structure SameFile (s s' : Fs) (g : InodeId) : Prop where
  size : (s'.inodes g).size = (s.inodes g).size
  slots : ∀ slot, (s'.inodes g).cntId.get slot = (s.inodes g).cntId.get slot
  content : ∀ slot c, (s.inodes g).cntId.get slot = some c →
    s'.contextAddr c = s.contextAddr c ∧ ∀ k < chunkSize, chunkByte s' c k = chunkByte s c k

/-- A new file is empty, and a handle neither changes nor reads a file created after its own was
deleted. -/
def Isolated (h : Handles) (a : HandleOp) (h' : Handles) : Prop :=
  match a with
  | .names _ => ∀ i, InTree h'.fs i → ¬ InTree h.fs i →
      (h'.fs.inodes i).size = 0 ∧ ∀ slot, (h'.fs.inodes i).cntId.get slot = none
  | .fsOpen _ => True
  | .write n _ _ => ∀ g, CreatedAfter h n g → SameFile h.fs h'.fs g
  | .read n size offset => ∀ i g, h.opened[n]? = some i → CreatedAfter h n g →
      (h.fs.inodes i).isDirectories = false →
      ∀ ranges, readLoop h.fs i size size offset = some ranges →
        ∀ r ∈ ranges, ∀ slot, (h.fs.inodes g).cntId.get slot ≠ some r.chunk

/-- A read of nothing, or of no data at all. -/
def NoData (s : Fs) (f : InodeId) (size offset : Nat) : Prop :=
  size = 0 ∨ sizeThirdDirectEnd ≤ offset ∨
    ∀ c, (s.inodes f).cntId.get (slotOf (offset / chunkSize)) = some c →
      (s.contextAddr c).size = offset % chunkSize

/-- Once its file is deleted a handle is written with nothing and finds nothing to read, or it
meets a directory. -/
def HandleOp.Allowed (h : Handles) : HandleOp → Prop
  | .write n buf _ => h.died n = none ∨ buf = [] ∨
      ∀ i, h.opened[n]? = some i → (h.fs.inodes i).isDirectories = true
  | .read n size offset => h.died n = none ∨ ∀ i, h.opened[n]? = some i →
      (h.fs.inodes i).isDirectories = true ∨ NoData h.fs i size offset
  | _ => True

/-! ## What the operations do -/

section

variable {s s' : Fs} {kids : InodeId → List InodeId} {i : InodeId}

/-- A lookup leads to an inode of the tree. -/
theorem searchLoop_inTree (ht : Tree s kids) {first : Bool} {now : InodeId} {name path : Str}
    (hnow : Tree.In kids now) (h : searchLoop s first now name path = some (some i)) :
    Tree.In kids i := by
  induction path generalizing first now name with
  | nil =>
    obtain rfl : now = i := by simpa [searchLoop] using h
    exact hnow
  | cons ch rest ih =>
    rw [searchLoop] at h
    by_cases hlen : fileNameLen ≤ name.length
    · simp [hlen] at h
    rw [if_neg hlen] at h
    by_cases hsep : ch = slash ∨ rest = []
    · rw [if_pos hsep] at h
      cases first with
      | true => exact ih hnow h
      | false =>
        simp only [Bool.false_eq_true, if_false] at h
        generalize (if ch = slash then name else name ++ [ch]) = name' at h
        by_cases hlen' : fileNameLen ≤ name'.length
        · simp [hlen'] at h
        rw [if_neg hlen'] at h
        cases hd : (s.inodes now).dHash with
        | none => simp [hd] at h
        | some d =>
          simp only [hd] at h
          cases hg : d.get s.names name' with
          | none => simp [hg] at h
          | some next =>
            simp only [hg] at h
            exact ih (.inr ⟨now, ((ht.hash now d hd).get hg).1⟩) h
    · rw [if_neg hsep] at h
      exact ih hnow h

theorem searchDHash_inTree (hinv : FsInv s) {path : Str}
    (h : searchDHash s path = some (some i)) : InTree s i := by
  obtain ⟨-, kids, ht⟩ := hinv
  rw [ht.inTree_iff]
  unfold searchDHash at h
  split at h
  · obtain rfl : rootId = i := by simpa using h
    exact .inl rfl
  · exact searchLoop_inTree ht (.inl rfl) h

/-- An inode that comes into the tree is blank. -/
theorem Effect.new_blank {op : FsOp} (ht : Tree s kids) (o : Owned s) (e : Effect s kids op s')
    (hin : InTree s' i) (hout : ¬ InTree s i) :
    (s'.inodes i).size = 0 ∧ ∀ slot, (s'.inodes i).cntId.get slot = none := by
  have inv := e.fsInv ht o
  have blank : (s'.inodes i).context = [] →
      (s'.inodes i).size = 0 ∧ ∀ slot, (s'.inodes i).cntId.get slot = none := by
    intro hc
    exact ⟨by rw [inv.1.size_eq, hc]; rfl, inv.1.get_none hc⟩
  rw [ht.inTree_iff] at hout
  cases e with
  | fail => exact absurd (ht.inTree_iff.mp hin) hout
  | @create _ father now filename d d' s1 isDir name free spare put =>
    obtain ⟨-, -, -, hd⟩ := name
    have hp := getFreeInode_spec ht
    rw [spare] at hp
    have hne := hp.father_ne ht ((ht.dHash_iff father).mp (by simp [hd]))
    rcases (tree_created ht hp hd put).inTree_iff.mp hin with rfl | ⟨e, he⟩
    · exact absurd (.inl rfl) hout
    · obtain rfl : i = now := by
        by_contra hi
        refine hout (.inr ⟨e, ?_⟩)
        by_cases hf : e = father
        · subst hf
          simpa [hi] using he
        · simpa [hf] using he
      refine blank ?_
      rw [created_now filename d' hp isDir hne]
      exact hp.context
  | delete _ name found deleted =>
    obtain ⟨-, -, -, hd⟩ := name
    obtain ⟨hdel, hname⟩ := (ht.hash _ _ hd).get found
    refine absurd ?_ hout
    rcases (tree_deleted ht hdel hname deleted).inTree_iff.mp hin with rfl | ⟨e, he⟩
    · exact .inl rfl
    · exact .inr ⟨e, ((mem_remaining ht hdel deleted).mp he).1⟩
  | rename name found _ valid removed put =>
    obtain ⟨-, -, -, hd⟩ := name
    exact absurd ((tree_renamed ht hd found valid removed put).inTree_iff.mp hin) hout
  | data handle only owned => exact absurd ((tree_data ht handle only).inTree_iff.mp hin) hout

/-- A read of no data asks for nothing. -/
theorem readLoop_noData (o : Owned s) {size offset : Nat} (h : NoData s i size offset)
    {ranges : List Range} (hloop : readLoop s i size size offset = some ranges) : ranges = [] := by
  cases size with
  | zero => exact (Option.some.inj hloop).symm
  | succ rounds =>
    by_cases hend : sizeThirdDirectEnd ≤ offset
    · simpa [readLoop, level3LocalIndex_end hend] using hloop.symm
    have hc := (h.resolve_left (Nat.succ_ne_zero rounds)).resolve_left hend
    rw [readLoop_succ (Nat.not_le.mp hend) (Nat.succ_ne_zero rounds)] at hloop
    cases hget : (s.inodes i).cntId.get (slotOf (offset / chunkSize)) with
    | none =>
      rw [hget] at hloop
      exact (Option.some.inj hloop).symm
    | some c =>
      have hzero : subU64 (s.contextAddr c).size (offset % chunkSize) = 0 := by
        rw [subU64_eq ((o.size_le c).trans_lt (by decide)) (hc c hget).ge, hc c hget, Nat.sub_self]
      simpa [hget, hzero] using hloop.symm

end

/-! ## Runs -/

/-- The file system is as its operations leave it, and a handle stays in the tree while its file
lives. -/
structure HandleInv (h : Handles) : Prop where
  inv : FsInv h.fs
  live : ∀ n i, h.opened[n]? = some i → h.died n = none → InTree h.fs i

/-- A write through a handle that is allowed is one to a file in the tree, or does nothing. -/
theorem HandleInv.write (hinv : HandleInv h) {n offset : Nat} {i : InodeId} {buf : List UInt8}
    {s' : Fs} {res : Int} (ok : HandleOp.Allowed h (.write n buf offset))
    (handle : h.opened[n]? = some i) (run : dhmpFsWrite h.fs i buf offset = some (s', res)) :
    (h.died n = none ∧ FsStep h.fs (.write i buf offset) s') ∨ s' = h.fs := by
  rcases ok with hlive | rfl | hdir
  · exact .inl ⟨hlive, hinv.live n i handle hlive, res, run⟩
  · right
    unfold dhmpFsWrite at run
    split at run
    · exact (Prod.mk.inj (Option.some.inj run)).1.symm
    · exact (Prod.mk.inj (Option.some.inj run)).1.symm
  · right
    rw [dhmpFsWrite, if_pos (hdir i handle)] at run
    exact (Prod.mk.inj (Option.some.inj run)).1.symm

theorem HandleInv.step {h h' : Handles} (hinv : HandleInv h) {a : HandleOp}
    (ok : a.Allowed h) (hs : HandleStep h a h') : HandleInv h' := by
  cases hs with
  | names hop run record =>
    refine ⟨fsInv_step hinv.inv run, fun n i hn hd => ?_⟩
    rw [record.opened] at hn
    have hlive : h.died n = none := by
      by_contra hne
      rw [record.died_old n hne] at hd
      exact hne hd
    by_contra hout
    rw [(record.died_new n i hn hlive).2 hout] at hd
    simp at hd
  | @opened path i found =>
    refine ⟨hinv.inv, fun n j hn hd => ?_⟩
    simp only at hn hd
    by_cases hlt : n < h.opened.length
    · rw [List.getElem?_append_left hlt] at hn
      rw [Function.update_of_ne (by omega)] at hd
      exact hinv.live n j hn hd
    · rw [List.getElem?_append_right (by omega)] at hn
      obtain rfl : j = i := List.mem_singleton.mp (List.mem_of_getElem? hn)
      exact searchDHash_inTree hinv.inv found
  | failed => exact hinv
  | @write n i buf offset s' res handle run =>
    rcases hinv.write ok handle run with ⟨-, hstep⟩ | rfl
    · refine ⟨fsInv_step hinv.inv hstep, fun m j hm hd => ?_⟩
      obtain ⟨o, kids, ht⟩ := hinv.inv
      have ht' := tree_data ht hstep.1 (dhmpFsWrite_spec o run).2
      exact ht'.inTree_iff.mpr (ht.inTree_iff.mp (hinv.live m j hm hd))
    · exact hinv
  | read => exact hinv

theorem HandleInv.isolated {h h' : Handles} (hinv : HandleInv h) {a : HandleOp}
    (ok : a.Allowed h) (hs : HandleStep h a h') : Isolated h a h' := by
  cases hs with
  | names hop run record =>
    obtain ⟨o, kids, ht⟩ := hinv.inv
    exact fun i hin hout => (run.effect ht o).new_blank ht o hin hout
  | opened => trivial
  | failed => trivial
  | write handle run =>
    rintro g ⟨-, d, hd, -⟩
    rcases hinv.write ok handle run with ⟨hlive, -⟩ | rfl
    · simp [hlive] at hd
    · exact ⟨rfl, fun _ => rfl, fun _ _ _ => ⟨rfl, fun _ _ => rfl⟩⟩
  | read handle run =>
    rintro i g hi ⟨-, d, hd, -⟩ hfile ranges hloop
    rcases ok with hlive | hquiet
    · simp [hlive] at hd
    · have hno := (hquiet i hi).resolve_left (by simp [hfile])
      rw [readLoop_noData hinv.inv.1 hno hloop]
      simp

/-! ## A file that comes and goes -/

/-- No file; `l` is the slab. -/
structure Vacant (s : Fs) (l : List InodeId) : Prop where
  owned : Owned s
  tree : Tree s fun _ => []
  slab : s.freeInodeSlab = l
  sonNums : (s.inodes rootId).sonNums = 0
  context : ∀ i, (s.inodes i).context = []

/-- One empty file of that name, below the root. -/
structure OneFile (s : Fs) (filename : Str) (i : InodeId) (l : List InodeId) : Prop where
  owned : Owned s
  tree : Tree s (Function.update (fun _ => []) rootId [i])
  slab : s.freeInodeSlab = l
  sonNums : (s.inodes rootId).sonNums = 1
  context : ∀ i, (s.inodes i).context = []
  file : (s.inodes i).isDirectories = false
  named : ∃ d, (s.inodes rootId).dHash = some d ∧ d.get s.names filename = some i

section

variable {s : Fs} {path filename : Str} {i : InodeId} {l : List InodeId}

theorem vacant_dhmpInit (bank : Banks) : Vacant (dhmpInit bank) (List.range' 1 slabNums) := by
  refine ⟨owned_dhmpInit bank, tree_dhmpInit bank, rfl, rfl, fun i => ?_⟩
  by_cases hi : i = rootId <;> simp [dhmpInit, hi, Inode.fresh]

theorem Tree.root_hash {kids : InodeId → List InodeId} (ht : Tree s kids) :
    ∃ d, (s.inodes rootId).dHash = some d :=
  Option.ne_none_iff_exists'.mp ((ht.dHash_iff rootId).mpr ht.root_dir)

/-- A file is made in the first inode of the slab. -/
theorem Vacant.mknod (h : Vacant s (i :: l)) (hdeal : deal path = some ([slash], filename)) :
    ∃ s', FsStep s (.mknod path) s' ∧ OneFile s' filename i l := by
  obtain ⟨d, hd⟩ := h.tree.root_hash
  have hn := h.tree.hash rootId d hd
  have hempty : d.entries = [] := by
    apply List.eq_nil_iff_forall_not_mem.mpr
    intro e he
    obtain ⟨v, -, hk, -⟩ := hn.entry e he
    simp at hk
  have hnone : d.get s.names filename = none := by
    by_contra hne
    obtain ⟨j, hj⟩ := Option.ne_none_iff_exists'.mp hne
    obtain ⟨k, he, -⟩ := hn.valid.get_eq_some.mp hj
    simp [hempty] at he
  have hfree : getFreeInode s = ({ s with freeInodeSlab := l }, i) := by
    simp [getFreeInode, h.slab]
  have hp := getFreeInode_spec h.tree
  rw [hfree] at hp
  have hne : rootId ≠ i := (h.tree.spare_ne_root hp.spare).symm
  have hnames : Names (Function.update s.names i filename) [] d := hn.congr (by simp)
  have hvalid := hnames.valid
  obtain ⟨d', hput, hv', hstored⟩ := HashMap.put_isSome hvalid i (some i)
    (by rw [hvalid.size_eq, hempty]; decide)
  have hnew : newFile s rootId filename =
      some (created { s with freeInodeSlab := l } rootId i false filename d') := by
    have heq := newNode_eq h.tree false hd filename
    simp only [hfree, Bool.false_eq_true, if_false] at heq
    rw [heq, if_neg (by rw [h.sonNums]; decide), hput]
    rfl
  have hlen := length_ne_one_of_deal hdeal
  have hrun : dhmpMknod s path =
      some (created { s with freeInodeSlab := l } rootId i false filename d', 1) := by
    simp [dhmpMknod, hlen, hdeal, searchDHash, hd, hnone, hnew]
  have hroot := created_father filename d' hp false hne
  refine ⟨_, ⟨trivial, 0, by simp [FsOp.run, hrun]⟩, owned_created h.owned hp false,
    tree_created h.tree hp hd hput, rfl, by rw [hroot, h.sonNums]; rfl, fun j => ?_,
    by rw [created_now filename d' hp false hne], d', by rw [hroot], ?_⟩
  · by_cases hj : j = i
    · subst hj
      rw [created_now filename d' hp false hne]
      exact hp.context
    · by_cases hr : j = rootId
      · rw [hr, hroot]
        exact h.context rootId
      · rw [created_other filename d' hp false hj hr]
        exact h.context j
  · rw [created_names filename d' hp false hne, hv'.get_eq_some]
    refine ⟨i, ?_, by simp⟩
    cases hstored with
    | new _ hperm => exact hperm.mem_iff.mpr (by simp)
    | old hl => simp [hempty] at hl

/-- The inode of a file that is deleted goes to the end of the slab. -/
theorem OneFile.unlink (h : OneFile s filename i l)
    (hdeal : deal path = some ([slash], filename)) :
    ∃ s', FsStep s (.unlink path) s' ∧ Vacant s' (l ++ [i]) := by
  obtain ⟨d, hd, hg⟩ := h.named
  have hi : i ∈ Function.update (fun _ => []) rootId [i] rootId := by simp
  have hne : i ≠ rootId := by
    rintro rfl
    exact h.tree.root_kids _ hi
  have hname := ((h.tree.hash rootId d hd).get hg).2
  obtain ⟨s', del, hrem, w⟩ := removeSon_spec h.tree h.owned hd hg
  have hlen := length_ne_one_of_deal hdeal
  have hrun : dhmpDelete s path = some (s', 1) := by
    simp [dhmpDelete, dhmpDelFromInode, hlen, hdeal, searchDHash, hd, hg, hrem, h.tree.root_dir]
  have hleaf : ∀ j, ¬ Below (Function.update (fun _ => []) rootId [i]) i j := by
    intro j hb
    obtain ⟨e, he, -⟩ := Relation.TransGen.head'_iff.mp hb
    simp [hne] at he
  have hdel : del = [i] := by
    apply List.perm_singleton.mp
    refine (List.perm_ext_iff_of_nodup w.nodup (List.nodup_singleton i)).mpr fun j => ?_
    simp [w.mem_iff, hleaf]
  subst hdel
  have ht := tree_deleted h.tree hi hname w
  have hkids : remaining (Function.update (fun _ => []) rootId [i]) rootId i [i] =
      fun _ => [] := by
    funext e
    by_cases he : e = rootId <;> simp [remaining, he]
  rw [hkids] at ht
  obtain ⟨_, _, -, -, -, hroot⟩ := w.inodes_father
  refine ⟨s', ⟨trivial, 0, by simp [FsOp.run, hrun]⟩, w.owned, ht, by rw [w.slab, h.slab],
    by rw [hroot, h.sonNums]; rfl, fun j => ?_⟩
  by_cases hj : j = i
  · subst hj
    obtain ⟨index, heq⟩ := w.inodes j (by simp)
    rw [heq]
    rfl
  · by_cases hr : j = rootId
    · rw [hr, hroot]
      exact h.context rootId
    · rw [w.inodes_ne j (by simpa using hj) hr]
      exact h.context j

end

/-! ## An inode that is handed out again -/

theorem exists_recorded (h : Handles) (s' : Fs) : ∃ h', h'.fs = s' ∧ Recorded h h' := by
  classical
  refine ⟨⟨s', h.opened, h.clock + 1, fun i => if InTree h.fs i then h.born i else h.clock,
    fun n => if h.died n = none ∧ ∃ i, h.opened[n]? = some i ∧ ¬ InTree s' i then some h.clock
      else h.died n⟩, rfl, rfl, rfl, fun i _ hi => if_neg hi, fun i hi => if_pos hi, ?_, ?_⟩
  · intro n hn
    simp [hn]
  · intro n i hi hn
    simp [hn, hi]

/-- The steps at which the use of handles is as it should be. -/
abbrev AllowedStep : Handles → HandleOp → Handles → Prop :=
  guarded (fun h a => a.Allowed h) HandleStep

theorem exists_namesStep {h : Handles} {op : FsOp} {s' : Fs} (hop : op.OnNames)
    (hs : FsStep h.fs op s') :
    ∃ h', AllowedStep h (.names op) h' ∧ h'.fs = s' ∧ Recorded h h' := by
  obtain ⟨h', rfl, record⟩ := exists_recorded h s'
  exact ⟨h', ⟨trivial, .names hop hs record⟩, rfl, record⟩

/-- The file `/b` is created. -/
def createB : HandleOp := .names (.mknod [slash, 98])

def deleteB : HandleOp := .names (.unlink [slash, 98])

theorem deal_b : deal [slash, 98] = some ([slash], [98]) := rfl

section

variable {h : Handles} {i : InodeId} {l l' : List InodeId}

theorem Vacant.createB (hv : Vacant h.fs (i :: l)) :
    ∃ h', AllowedStep h createB h' ∧ OneFile h'.fs [98] i l ∧ Recorded h h' := by
  obtain ⟨s', hs, hone⟩ := hv.mknod deal_b
  have hop : (FsOp.mknod [slash, 98]).OnNames := trivial
  obtain ⟨h', step, rfl, record⟩ := exists_namesStep hop hs
  exact ⟨h', step, hone, record⟩

theorem OneFile.deleteB (hone : OneFile h.fs [98] i l) :
    ∃ h', AllowedStep h deleteB h' ∧ Vacant h'.fs (l ++ [i]) ∧ Recorded h h' := by
  obtain ⟨s', hs, hv⟩ := hone.unlink deal_b
  have hop : (FsOp.unlink [slash, 98]).OnNames := trivial
  obtain ⟨h', step, rfl, record⟩ := exists_namesStep hop hs
  exact ⟨h', step, hv, record⟩

theorem OneFile.inTree (hone : OneFile h.fs [98] i l) : InTree h.fs i :=
  hone.tree.inTree_iff.mpr (.inr ⟨rootId, by simp⟩)

theorem Vacant.not_inTree (hv : Vacant h.fs l) (hi : i ≠ rootId) : ¬ InTree h.fs i := by
  rw [hv.tree.inTree_iff]
  rintro (hr | ⟨d, hd⟩)
  · exact hi hr
  · simp at hd

/-- `/b` comes and goes until the inodes of `l` are at the end of the slab. -/
theorem cycles_run (l l' : List InodeId) {h : Handles} (hv : Vacant h.fs (l ++ l')) :
    ∃ h', Run AllowedStep h (List.replicate l.length [createB, deleteB]).flatten h' ∧
      Vacant h'.fs (l' ++ l) ∧ h'.opened = h.opened ∧ h.clock ≤ h'.clock ∧
      ∀ n, h.died n ≠ none → h'.died n = h.died n := by
  induction l generalizing h l' with
  | nil => exact ⟨h, .refl h, by simpa using hv, rfl, Nat.le_refl _, fun _ _ => rfl⟩
  | cons i l ih =>
    obtain ⟨h1, step1, hone, record1⟩ := hv.createB
    obtain ⟨h2, step2, hv2, record2⟩ := hone.deleteB
    obtain ⟨h', run, hv', hopened, hclock, hdied⟩ := ih (l' ++ [i]) (by simpa using hv2)
    refine ⟨h', .cons step1 (.cons step2 run), by simpa using hv', ?_, ?_, fun n hn => ?_⟩
    · rw [hopened, record2.opened, record1.opened]
    · have := record1.clock
      have := record2.clock
      omega
    · have hdied1 := record1.died_old n hn
      have hdied2 := (record2.died_old n (hdied1 ▸ hn)).trans hdied1
      rw [hdied n (hdied2 ▸ hn), hdied2]

end

/-- `/b` is opened and deleted, and other files come and go until its inode is handed out. -/
def reuseOps : List HandleOp :=
  createB :: .fsOpen [slash, 98] :: deleteB ::
    ((List.replicate 999 [createB, deleteB]).flatten ++ [createB])

theorem reuse_run (bank : Banks) : ∃ h, Run AllowedStep (.start bank) reuseOps h ∧
    h.opened = [1] ∧ CreatedAfter h 0 1 ∧ ∃ l, OneFile h.fs [98] 1 l := by
  have hv : Vacant (Handles.start bank).fs (1 :: List.range' 2 999) := vacant_dhmpInit bank
  obtain ⟨h1, step1, hone, record1⟩ := hv.createB
  have found : dhmpFsOpen h1.fs [slash, 98] = some (some 1) := by
    obtain ⟨d, hd, hg⟩ := hone.named
    simp [dhmpFsOpen, searchDHash, searchLoop, hd, hg, fileNameLen, slash]
  obtain ⟨h2, step2⟩ : ∃ h2, h2 = { h1 with
    opened := h1.opened ++ [1]
    died := Function.update h1.died h1.opened.length none } := ⟨_, rfl⟩
  have hopened : h2.opened = [1] := by
    rw [step2]
    simp [record1.opened, Handles.start]
  have hlive : h2.died 0 = none := by
    rw [step2]
    simp [record1.opened, Handles.start]
  have hone2 : OneFile h2.fs [98] 1 (List.range' 2 999) := step2 ▸ hone
  obtain ⟨h3, step3, hv3, record3⟩ := hone2.deleteB
  have hdied := (record3.died_new 0 1 (by rw [hopened]; rfl) hlive).2
    (hv3.not_inTree (by decide))
  obtain ⟨h4, run, hv4, hopened4, hclock, hdied4⟩ := cycles_run (List.range' 2 999) [1] hv3
  obtain ⟨h5, step5, hone5, record5⟩ := hv4.createB
  rw [List.length_range'] at run
  refine ⟨h5, .cons step1 (.cons ⟨trivial, step2 ▸ .opened found⟩ (.cons step3 (.snoc run step5))),
    ?_, ⟨hone5.inTree, h2.clock, ?_, ?_⟩, _, hone5⟩
  · rw [record5.opened, hopened4, record3.opened, hopened]
  · have hsame := hdied4 0 (by simp [hdied])
    rw [record5.died_old 0 (by simp [hsame, hdied]), hsame, hdied]
  · rw [record5.born_new 1 hone5.inTree (hv4.not_inTree (by decide))]
    have := record3.clock
    omega

/-! ## Isolation in a run -/

/-- In every run in which a handle whose file was deleted is not used on data, every step leaves
newer files alone, and new files are empty. -/
theorem isolated_run {bank : Banks} {as : List HandleOp} {h h' : Handles} {a : HandleOp}
    (run : Run AllowedStep (.start bank) as h)
    (ok : a.Allowed h) (hs : HandleStep h a h') : Isolated h a h' := by
  have hinv : HandleInv h :=
    run.invariant HandleInv (fun h a h' hinv hstep => hinv.step hstep.1 hstep.2)
      ⟨⟨owned_dhmpInit bank, _, tree_dhmpInit bank⟩, by simp [Handles.start]⟩
  exact hinv.isolated ok hs

/-- A read through the old handle while the new file is empty. -/
theorem isolated_run_reuse : ∃ h, Run AllowedStep (.start fun _ _ => 0) reuseOps h ∧
    CreatedAfter h 0 1 ∧ Isolated h (.read 0 1 0) h := by
  obtain ⟨h, run, hopened, hafter, l, hone⟩ := reuse_run fun _ _ => 0
  have handle : h.opened[0]? = some 1 := by
    rw [hopened]
    rfl
  have hget := hone.owned.get_none (hone.context 1)
  have hread : dhmpFsRead h.fs 1 1 0 = some ([], 0) := by
    rw [dhmpFsRead, hone.file, readLoop_succ (by decide) (by decide), hget]
    rfl
  have hquiet : NoData h.fs 1 1 0 := .inr (.inr (by simp [hget]))
  refine ⟨h, run, hafter, isolated_run run (.inr fun i hi => .inr ?_) (.read handle hread)⟩
  obtain rfl : 1 = i := Option.some.inj (handle.symm.trans hi)
  exact hquiet

/-- A write through the old handle lands in the new file. -/
theorem not_isolated_reuse : ∃ h h', Run HandleStep (.start fun _ _ => 0) reuseOps h ∧
    HandleStep h (.write 0 [7] 0) h' ∧ ¬ Isolated h (.write 0 [7] 0) h' := by
  obtain ⟨h, run, hopened, hafter, l, hone⟩ := reuse_run fun _ _ => 0
  have handle : h.opened[0]? = some 1 := by
    rw [hopened]
    rfl
  have o := hone.owned
  have hfree : freeChunks h.fs = Finset.range chunkNum := by
    refine Finset.filter_true_of_mem fun c _ => ?_
    by_contra hused
    obtain ⟨⟨i, slot⟩, hwhich⟩ := Option.ne_none_iff_exists'.mp
      ((o.bitmap_iff c).mp (by simpa using hused))
    have hget := (o.which_iff i slot c).mpr hwhich
    simp [o.get_none (hone.context i)] at hget
  have hmap : ¬ Unmappable h.fs 1 0 1 := by
    rintro (⟨-, hend⟩ | hcard)
    · exact absurd hend (by decide)
    · have hfew : (missingChunks h.fs 1 0 1).card ≤ 1 :=
        (Finset.card_filter_le _ _).trans Finset.card_image_le
      rw [hfree, Finset.card_range] at hcard
      exact absurd (hcard.trans_le hfew) (by decide)
  cases hwrite : dhmpFsWrite h.fs 1 [7] 0 with
  | none => exact absurd ((dhmpFsWrite_eq_none_iff o).mp hwrite).2 hmap
  | some res =>
    obtain ⟨s', res⟩ := res
    refine ⟨h, _, run.mono fun _ _ _ hs => hs.2, .write handle hwrite, fun hiso => ?_⟩
    have hsize := (hiso 1 hafter).size
    have hholds := (Holds.empty o (hone.context 1)).write o hone.file hwrite
    have hfull : Full (patch (fun _ => none) 0 [7]) 1 := by
      intro p
      simp [patch]
    rw [if_pos rfl] at hholds
    have hnew := hholds.inode_size_full (dhmpFsWrite_spec o hwrite).1 hfull
    rw [o.size_eq, hone.context 1] at hsize
    exact absurd (hnew.symm.trans hsize) (by simp [sizes])

end DhmpFs
