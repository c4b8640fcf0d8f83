import DhmpFs.Fs.DirOps
import DhmpFs.Fs.Owned
import DhmpFs.HashMap.Operations
import DhmpFs.Library.SonBro
import Mathlib.Algebra.Order.BigOperators.Group.List
import Mathlib.Data.List.Perm.Subperm

/-!
# The directory tree

`kids` is the chain of every directory as a list. An inode is in the tree, on the slab, or not
allocated yet.

## Main definitions

* `Tree`: the invariant of the directory operations.
* `Created`: what a successful `dhmpMknod` or `dhmpCreateDirectory` does.
-/

namespace DhmpFs

open Library

namespace Fs

def son (s : Fs) (i : InodeId) : Option InodeId := (s.inodes i).son
def bro (s : Fs) (i : InodeId) : Option InodeId := (s.inodes i).bro

/-- The inode is free: it waits on the slab, or it was never allocated. -/
def Spare (s : Fs) (i : InodeId) : Prop := i ∈ s.freeInodeSlab ∨ s.mallocTimes < i

end Fs

/-- Every entry of a hash map names a son of the directory. Its key is the buffer of a son, of
the same name, which need not be the son it stands for. -/
structure Names (names : InodeId → Str) (sons : List InodeId) (m : HashMap InodeId InodeId) :
    Prop where
  valid : m.Valid names
  entry : ∀ e ∈ m.entries, ∃ v, e.2 = some v ∧ e.1 ∈ sons ∧ v ∈ sons ∧ names e.1 = names v

namespace Names

variable {names names' : InodeId → Str} {sons sons' : List InodeId}
  {m m' : HashMap InodeId InodeId} {i : InodeId} {key : Str}

theorem congr (h : Names names sons m) (hn : ∀ i ∈ sons, names' i = names i) :
    Names names' sons m := by
  refine ⟨h.valid.congr fun e he => ?_, fun e he => ?_⟩
  · obtain ⟨_, _, hk, _⟩ := h.entry e he
    exact hn _ hk
  · obtain ⟨v, hv, hk, hvs, hname⟩ := h.entry e he
    exact ⟨v, hv, hk, hvs, by rw [hn _ hk, hn _ hvs, hname]⟩

theorem mono (h : Names names sons m) (hs : sons ⊆ sons') : Names names sons' m := by
  refine ⟨h.valid, fun e he => ?_⟩
  obtain ⟨v, hv, hk, hvs, hname⟩ := h.entry e he
  exact ⟨v, hv, hs hk, hs hvs, hname⟩

/-- What `get` finds is a son of that name. -/
theorem get (h : Names names sons m) (hg : m.get names key = some i) :
    i ∈ sons ∧ names i = key := by
  obtain ⟨k, he, hk⟩ := h.valid.get_eq_some.mp hg
  obtain ⟨v, hv, -, hvs, hname⟩ := h.entry _ he
  obtain rfl : i = v := Option.some.inj hv
  exact ⟨hvs, hname.symm.trans hk⟩

theorem put (h : Names names sons m) (hi : i ∈ sons) (hput : m.put names i (some i) = some m') :
    Names names sons m' := by
  obtain ⟨hv, hs⟩ := HashMap.put_some h.valid hput
  refine ⟨hv, fun e he => ?_⟩
  rcases hs.mem he with he | ⟨hw, hk, hold⟩
  · exact h.entry e he
  · refine ⟨i, hw, ?_, hi, hk⟩
    rcases hold with rfl | ⟨v, hv⟩
    · exact hi
    · exact (h.entry _ hv).choose_spec.2.1

/-- Without the entry of one name, the buffers and the sons of that name may change. -/
theorem removed (h : Names names sons m) (hv : m'.Valid names)
    (hr : Assoc.Removed names m.entries key m'.entries)
    (hn : ∀ i ∈ sons, names i ≠ key → i ∈ sons' ∧ names' i = names i) :
    Names names' sons' m' := by
  have hentry : ∀ e ∈ m'.entries, ∃ v, e.2 = some v ∧ e.1 ∈ sons ∧ v ∈ sons ∧
      names e.1 = names v ∧ names e.1 ≠ key := by
    intro e he
    obtain ⟨v, hev, hk, hvs, hname⟩ := h.entry e (hr.subset he)
    exact ⟨v, hev, hk, hvs, hname, hr.ne h.valid.distinct he⟩
  refine ⟨hv.congr fun e he => ?_, fun e he => ?_⟩
  · obtain ⟨v, -, hk, -, -, hne⟩ := hentry e he
    exact (hn _ hk hne).2
  · obtain ⟨v, hev, hk, hvs, hname, hne⟩ := hentry e he
    obtain ⟨hk', hnk⟩ := hn _ hk hne
    obtain ⟨hv', hnv⟩ := hn v hvs (hname ▸ hne)
    exact ⟨v, hev, hk', hv', by rw [hnk, hnv, hname]⟩

theorem empty (names : InodeId → Str) (sons : List InodeId) :
    Names names sons createHashMap :=
  ⟨HashMap.valid_createHashMap _, by simp⟩

end Names

/-- The son/bro chains form a tree below the root, apart from the spare inodes. -/
structure Tree (s : Fs) (kids : InodeId → List InodeId) : Prop where
  forest : Forest s.son s.bro kids
  root_kids : ∀ d, rootId ∉ kids d
  placed : ∀ i, i ≠ rootId ∧ i ≤ s.mallocTimes ↔ i ∈ s.freeInodeSlab ∨ ∃ d, i ∈ kids d
  slab_kids : ∀ i ∈ s.freeInodeSlab, ∀ d, i ∉ kids d
  slab_nodup : s.freeInodeSlab.Nodup
  spare : ∀ i, s.Spare i → (s.inodes i).isDirectories = false ∧ (s.inodes i).context = []
  dHash_iff : ∀ d, (s.inodes d).dHash ≠ none ↔ (s.inodes d).isDirectories = true
  kids_dir : ∀ d, kids d ≠ [] → (s.inodes d).isDirectories = true
  hash : ∀ d m, (s.inodes d).dHash = some m → Names s.names (kids d) m
  sonNums : ∀ d, ((kids d).length : Int) ≤ (s.inodes d).sonNums
  root_dir : (s.inodes rootId).isDirectories = true

namespace Tree

variable {s s' : Fs} {kids : InodeId → List InodeId} {i d : InodeId}

/-- An inode below the root, the root included. -/
def In (kids : InodeId → List InodeId) (i : InodeId) : Prop := i = rootId ∨ ∃ d, i ∈ kids d

theorem spare_kids (h : Tree s kids) (hi : s.Spare i) (d : InodeId) : i ∉ kids d := by
  rcases hi with hi | hi
  · exact h.slab_kids i hi d
  · intro hk
    exact Nat.not_le.mpr hi ((h.placed i).mpr (.inr ⟨d, hk⟩)).2

theorem spare_ne_root (h : Tree s kids) (hi : s.Spare i) : i ≠ rootId := by
  rintro rfl
  have := (h.spare _ hi).1
  simp [h.root_dir] at this

theorem kids_spare (h : Tree s kids) (hi : s.Spare i) : kids i = [] := by
  by_contra hne
  have := h.kids_dir i hne
  simp [(h.spare i hi).1] at this

/-- The inodes are the tree and the spare ones. -/
theorem in_or_spare (h : Tree s kids) (i : InodeId) : In kids i ∨ s.Spare i := by
  by_cases hroot : i = rootId
  · exact .inl (.inl hroot)
  by_cases hle : i ≤ s.mallocTimes
  · rcases (h.placed i).mp ⟨hroot, hle⟩ with hs | hk
    · exact .inr (.inl hs)
    · exact .inl (.inr hk)
  · exact .inr (.inr (Nat.lt_of_not_le hle))

theorem in_of_dir (h : Tree s kids) (hd : (s.inodes d).isDirectories = true) : In kids d := by
  rcases h.in_or_spare d with hi | hs
  · exact hi
  · simp [(h.spare d hs).1] at hd

theorem not_spare (h : Tree s kids) (hi : In kids i) : ¬ s.Spare i := by
  intro hs
  rcases hi with rfl | ⟨d, hd⟩
  · exact h.spare_ne_root hs rfl
  · exact h.spare_kids hs d hd

theorem in_kids_le (h : Tree s kids) (hi : i ∈ kids d) : i ≤ s.mallocTimes :=
  ((h.placed i).mpr (.inr ⟨d, hi⟩)).2

/-- Everything in the tree hangs below the root. -/
theorem reachable (h : Tree s kids) (hi : In kids i) :
    Relation.ReflTransGen (fun d i => i ∈ kids d) rootId i := by
  obtain ⟨depth, hd⟩ := h.forest.ranked
  induction hn : depth i using Nat.strongRecOn generalizing i with
  | _ n ih =>
    rcases hi with rfl | ⟨d, hk⟩
    · exact .refl
    · have hdir := h.kids_dir d (List.ne_nil_of_mem hk)
      have := hd d i hk
      exact (ih (depth d) (by omega) (h.in_of_dir hdir) rfl).tail hk

theorem dHash_none (h : Tree s kids) (hi : (s.inodes i).isDirectories = false) :
    (s.inodes i).dHash = none := by
  by_contra hne
  simp [(h.dHash_iff i).mp hne] at hi

theorem son_none (h : Tree s kids) (hi : kids i = []) : (s.inodes i).son = none := by
  have := h.forest.chain i
  rwa [hi] at this

/-- Different inodes of the tree are at most as many as were allocated. -/
theorem length_le (h : Tree s kids) {l : List InodeId} (hn : l.Nodup)
    (hk : ∀ i ∈ l, ∃ d, i ∈ kids d) : l.length ≤ s.mallocTimes + 1 := by
  have hsub : l ⊆ List.range (s.mallocTimes + 1) := by
    intro i hi
    obtain ⟨d, hd⟩ := hk i hi
    exact List.mem_range.mpr (Nat.lt_succ_of_le (h.in_kids_le hd))
  simpa using (hn.subperm hsub).length_le

theorem sons_length_le (h : Tree s kids) (d : InodeId) : (kids d).length ≤ s.mallocTimes + 1 :=
  h.length_le (h.forest.nodup d) fun _ hi => ⟨d, hi⟩

/-- The depths of the inodes in the tree are bounded. -/
theorem depth_le (h : Tree s kids) (depth : InodeId → Nat) :
    ∃ D, ∀ d, ∀ i ∈ kids d, depth i ≤ D := by
  refine ⟨((List.range (s.mallocTimes + 1)).map depth).sum, fun d i hi => ?_⟩
  apply List.single_le_sum (fun _ _ => Nat.zero_le _)
  exact List.mem_map_of_mem (List.mem_range.mpr (Nat.lt_succ_of_le (h.in_kids_le hi)))

/-- A state that agrees on everything the tree is made of. -/
theorem congr (h : Tree s kids)
    (hn : ∀ i, (s'.inodes i).filename = (s.inodes i).filename ∧
      (s'.inodes i).isDirectories = (s.inodes i).isDirectories ∧
      (s'.inodes i).sonNums = (s.inodes i).sonNums ∧ (s'.inodes i).dHash = (s.inodes i).dHash ∧
      (s'.inodes i).son = (s.inodes i).son ∧ (s'.inodes i).bro = (s.inodes i).bro)
    (hc : ∀ i, s.Spare i → (s'.inodes i).context = []) (hm : s'.mallocTimes = s.mallocTimes)
    (hl : s'.freeInodeSlab = s.freeInodeSlab) : Tree s' kids := by
  have hson : s'.son = s.son := funext fun i => (hn i).2.2.2.2.1
  have hbro : s'.bro = s.bro := funext fun i => (hn i).2.2.2.2.2
  have hnames : s'.names = s.names := funext fun i => (hn i).1
  have hspare : s'.Spare = s.Spare := by
    funext i
    simp [Fs.Spare, hm, hl]
  constructor
  case forest => simpa only [hson, hbro] using h.forest
  case root_kids => exact h.root_kids
  case placed => simpa only [hm, hl] using h.placed
  case slab_kids => simpa only [hl] using h.slab_kids
  case slab_nodup => simpa only [hl] using h.slab_nodup
  case spare =>
    intro i hi
    rw [hspare] at hi
    exact ⟨(hn i).2.1.trans (h.spare i hi).1, hc i hi⟩
  case dHash_iff => intro d; rw [(hn d).2.2.2.1, (hn d).2.1]; exact h.dHash_iff d
  case kids_dir => intro d hd; rw [(hn d).2.1]; exact h.kids_dir d hd
  case hash =>
    intro d m hd
    rw [(hn d).2.2.2.1] at hd
    simpa only [hnames] using h.hash d m hd
  case sonNums => intro d; rw [(hn d).2.2.1]; exact h.sonNums d
  case root_dir => rw [(hn _).2.1]; exact h.root_dir

end Tree

theorem tree_dhmpInit (bank : Nat → Nat → UInt8) : Tree (dhmpInit bank) fun _ => [] := by
  have hroot : (dhmpInit bank).inodes rootId = { Inode.fresh with
    filename := [slash], isDirectories := true, dHash := some createHashMap } := rfl
  have hne : ∀ i, i ≠ rootId → (dhmpInit bank).inodes i = .fresh := by
    intro i hi
    simp [dhmpInit, hi]
  have hson : ∀ i, (dhmpInit bank).son i = none := by
    intro i
    by_cases hi : i = rootId
    · subst hi; rfl
    · simp [Fs.son, hne i hi, Inode.fresh]
  have hslab : ∀ i, i ∈ (dhmpInit bank).freeInodeSlab ↔ i ≠ rootId ∧ i ≤ slabNums := by
    intro i
    have : i ≠ rootId ↔ 1 ≤ i := Nat.one_le_iff_ne_zero.symm
    rw [this, dhmpInit, List.mem_range'_1, Nat.add_comm 1, Nat.lt_succ_iff]
  constructor
  case forest =>
    exact ⟨fun d => by simp [hson], by simp, by simp, fun _ => 0, by simp⟩
  case root_kids => simp
  case placed =>
    intro i
    rw [hslab]
    simp [dhmpInit]
  case slab_kids => simp
  case slab_nodup => exact List.nodup_range'
  case spare =>
    intro i hi
    have hr : i ≠ rootId := by
      rcases hi with hi | hi
      · exact ((hslab i).mp hi).1
      · exact Nat.ne_of_gt (Nat.zero_lt_of_lt hi)
    rw [hne i hr]
    exact ⟨rfl, rfl⟩
  case dHash_iff =>
    intro d
    by_cases hd : d = rootId
    · simp [hd, hroot]
    · simp [hne d hd, Inode.fresh]
  case kids_dir => simp
  case hash =>
    intro d m hm
    by_cases hd : d = rootId
    · simp only [hd, hroot, Option.some.injEq] at hm
      subst hm
      exact .empty _ _
    · simp [hne d hd, Inode.fresh] at hm
  case sonNums =>
    intro d
    by_cases hd : d = rootId
    · simp [hd, hroot, Inode.fresh]
    · simp [hne d hd, Inode.fresh]
  case root_dir => rfl

end DhmpFs
