import DhmpFs.Fs.Tree

/-!
# Creating files and directories

`dhmpMknod` and `dhmpCreateDirectory` take a spare inode and hang it at the head of the
father's chain. They store and link in different orders, with the same effect.
-/

namespace DhmpFs

open Library

/-! ## Taking an inode -/

/-- What `get_free_inode` does. -/
structure Picked (s s1 : Fs) (now : InodeId) : Prop where
  spare : s.Spare now
  inodes_ne : ∀ i, i ≠ now → s1.inodes i = s.inodes i
  isDirectories : (s1.inodes now).isDirectories = false
  dHash : (s1.inodes now).dHash = none
  context : (s1.inodes now).context = []
  son : (s1.inodes now).son = none
  sonNums : 0 ≤ (s1.inodes now).sonNums
  slab : ∀ i, i ∈ s1.freeInodeSlab ↔ i ∈ s.freeInodeSlab ∧ i ≠ now
  slab_nodup : s1.freeInodeSlab.Nodup
  le_iff : ∀ i, i ≤ s1.mallocTimes ↔ i ≤ s.mallocTimes ∨ i = now
  owned : Owned s → Owned s1

theorem getFreeInode_spec {s : Fs} {kids : InodeId → List InodeId} (h : Tree s kids) :
    Picked s (getFreeInode s).1 (getFreeInode s).2 := by
  unfold getFreeInode
  cases hl : s.freeInodeSlab with
  | nil =>
    have spare : s.Spare (s.mallocTimes + 1) := .inr (Nat.lt_succ_self _)
    refine ⟨spare, fun i hi => by simp [hi], by simp [Inode.fresh], by simp [Inode.fresh],
      by simp [Inode.fresh], by simp [Inode.fresh], by simp [Inode.fresh], by simp [hl],
      by simp, fun i => Nat.le_succ_iff, fun o => ?_⟩
    refine o.congr (fun i => ?_) rfl rfl rfl
    by_cases hi : i = s.mallocTimes + 1
    · have hc := (h.spare _ spare).2
      have hget := o.get_none hc
      have hsize := o.size_eq (s.mallocTimes + 1)
      rw [hc] at hsize
      subst hi
      have hfresh : Inode.fresh.cntId.Complete := ⟨rfl, rfl⟩
      have hnone : ∀ slot, Inode.fresh.cntId.get slot = none := FileIndex.get_initial
      simp only [Function.update_self, hget, hnone, hc, hsize, sizes]
      exact ⟨hfresh, fun _ => trivial, rfl, rfl⟩
    · simp [hi, o.complete i]
  | cons now rest =>
    have spare : s.Spare now := .inl (by simp [hl])
    have hn := h.slab_nodup
    rw [hl, List.nodup_cons] at hn
    have hdir := (h.spare now spare).1
    have hle : now ≤ s.mallocTimes := ((h.placed now).mpr (.inl (by simp [hl]))).2
    have hnums := h.sonNums now
    refine ⟨spare, fun _ _ => rfl, hdir, h.dHash_none hdir, (h.spare now spare).2,
      h.son_none (h.kids_spare spare), Int.le_trans (Int.natCast_nonneg _) hnums, fun i => ?_,
      hn.2, fun i => ?_,
      fun o => o.congr (fun i => ⟨o.complete i, fun _ => rfl, rfl, rfl⟩) rfl rfl rfl⟩
    · simp only [hl, List.mem_cons]
      grind
    · constructor
      · exact .inl
      · rintro (hi | rfl)
        · exact hi
        · exact hle

/-! ## Hanging it in the tree -/

/-- The state after `now`, taken in `s1`, became the first son of `father`. -/
def created (s1 : Fs) (father now : InodeId) (isDir : Bool) (filename : Str)
    (dHash : HashMap InodeId InodeId) : Fs :=
  { s1 with
    inodes := Function.update
      (Function.update s1.inodes now
        { s1.inodes now with
          filename := filename
          isDirectories := isDir
          dHash := if isDir then some createHashMap else none
          bro := (s1.inodes father).son })
      father
      { s1.inodes father with
        son := some now
        sonNums := (s1.inodes father).sonNums + 1
        dHash := some dHash } }

section created

variable {s s1 : Fs} {kids : InodeId → List InodeId} {father now : InodeId} {filename : Str}
  {d d' : HashMap InodeId InodeId}

theorem addToFather_eq (s : Fs) (hne : father ≠ now) :
    addToFather s father now =
      if intMax ≤ (s.inodes father).sonNums then none
      else some { s with
        inodes := Function.update
          (Function.update s.inodes now { s.inodes now with bro := (s.inodes father).son }) father
          { s.inodes father with
            son := some now
            sonNums := (s.inodes father).sonNums + 1 } } := by
  unfold addToFather
  split
  · rfl
  · simp only [Fs.modify, Function.update_self, Function.update_of_ne hne,
      Function.update_of_ne hne.symm]
    rw [Function.update_comm hne, Function.update_idem]

/-- Only the buffer of `now` is written. -/
theorem names_eq (s : Fs) (filename : Str) {t : Fs} (hn : (t.inodes now).filename = filename)
    (ht : ∀ i, i ≠ now → (t.inodes i).filename = (s.inodes i).filename) :
    t.names = Function.update s.names now filename := by
  funext i
  by_cases hi : i = now
  · subst hi
    simpa [Fs.names] using hn
  · simpa [Fs.names, hi] using ht i hi

theorem newFile_eq (hp : Picked s s1 now) (hs : getFreeInode s = (s1, now))
    (hne : father ≠ now) (hd : (s.inodes father).dHash = some d) :
    newFile s father filename =
      if intMax ≤ (s.inodes father).sonNums then none
      else (d.put (Function.update s.names now filename) now (some now)).map
        (created s1 father now false filename) := by
  have hfather := hp.inodes_ne father hne
  have hnames : (s1.modify now fun n => { n with filename := filename }).names =
      Function.update s.names now filename :=
    names_eq s filename (by simp) fun i hi => by simp [Fs.modify, hi, hp.inodes_ne i hi]
  unfold newFile putSon
  simp only [hs, Fs.modify_inodes_ne _ hne, hfather, hd, hnames]
  cases hput : d.put (Function.update s.names now filename) now (some now) with
  | none => simp
  | some d' =>
    simp only [Option.map_some, Option.bind_eq_bind, Option.bind_some, addToFather_eq _ hne,
      Fs.modify_inodes_self, Fs.modify_inodes_ne _ hne, hfather]
    split
    · rfl
    · simp only [created, Fs.modify, Function.update_self, Function.update_of_ne hne,
        Function.update_of_ne hne.symm, hfather, hp.isDirectories, hp.dHash, Bool.false_eq_true,
        if_false]
      rw [Function.update_comm hne, Function.update_idem, Function.update_idem]

theorem newDirectory_eq (hp : Picked s s1 now) (hs : getFreeInode s = (s1, now))
    (hne : father ≠ now) (hd : (s.inodes father).dHash = some d) :
    newDirectory s father filename =
      if intMax ≤ (s.inodes father).sonNums then none
      else (d.put (Function.update s.names now filename) now (some now)).map
        (created s1 father now true filename) := by
  have hfather := hp.inodes_ne father hne
  unfold newDirectory
  simp only [hs, addToFather_eq _ hne, Fs.modify_inodes_ne _ hne, Fs.modify_inodes_self, hfather,
    Option.bind_eq_bind]
  split
  · rfl
  simp only [Option.bind_some, putSon, Function.update_self, hd, Fs.modify_inodes,
    Function.update_idem]
  rw [names_eq s filename]
  · congr 1
    funext d'
    simp only [created, Fs.modify, Function.update_self, Function.update_idem, hfather, if_true]
  · simp [hne.symm]
  · intro i hi
    by_cases hf : i = father
    · simp [hf]
    · simp [hf, hi, hp.inodes_ne i hi]

section inodes

variable (hp : Picked s s1 now) (isDir : Bool) (filename d')

include hp

theorem created_father (hne : father ≠ now) :
    (created s1 father now isDir filename d').inodes father =
      { s.inodes father with
        son := some now
        sonNums := (s.inodes father).sonNums + 1
        dHash := some d' } := by
  simp [created, hp.inodes_ne father hne]

theorem created_now (hne : father ≠ now) :
    (created s1 father now isDir filename d').inodes now =
      { s1.inodes now with
        filename := filename
        isDirectories := isDir
        dHash := if isDir then some createHashMap else none
        bro := s.son father } := by
  simp [created, hne.symm, hp.inodes_ne father hne, Fs.son]

theorem created_other {i : InodeId} (hi : i ≠ now) (hf : i ≠ father) :
    (created s1 father now isDir filename d').inodes i = s.inodes i := by
  simp [created, hi, hf, hp.inodes_ne i hi]

theorem created_names (hne : father ≠ now) :
    (created s1 father now isDir filename d').names = Function.update s.names now filename := by
  refine names_eq s filename (by rw [created_now filename d' hp isDir hne]) fun i hi => ?_
  by_cases hf : i = father
  · rw [hf, created_father filename d' hp isDir hne]
  · rw [created_other filename d' hp isDir hi hf]

end inodes

theorem owned_created (o : Owned s) (hp : Picked s s1 now) (isDir : Bool) :
    Owned (created s1 father now isDir filename d') := by
  have o1 := hp.owned o
  refine o1.congr (fun i => ?_) rfl rfl rfl
  have hi : ((created s1 father now isDir filename d').inodes i).cntId = (s1.inodes i).cntId ∧
      ((created s1 father now isDir filename d').inodes i).context = (s1.inodes i).context ∧
      ((created s1 father now isDir filename d').inodes i).size = (s1.inodes i).size := by
    by_cases hf : i = father <;> by_cases hn : i = now <;>
      simp [created, Function.update_apply, hf, hn]
    split <;> simp_all
  rw [hi.1, hi.2.1, hi.2.2]
  exact ⟨o1.complete i, fun _ => rfl, rfl, rfl⟩

/-- The sons after the creation are those before it and the new one. -/
theorem mem_insert_son {i : InodeId} :
    (∃ e, i ∈ Function.update kids father (now :: kids father) e) ↔
      i = now ∨ ∃ e, i ∈ kids e := by
  constructor
  · rintro ⟨e, he⟩
    by_cases hef : e = father
    · subst hef
      rw [Function.update_self, List.mem_cons] at he
      exact he.imp_right (⟨e, ·⟩)
    · exact .inr ⟨e, by simpa [hef] using he⟩
  · rintro (rfl | ⟨e, he⟩)
    · exact ⟨father, by simp⟩
    · refine ⟨e, ?_⟩
      by_cases hef : e = father
      · subst hef
        simp [he]
      · simpa [hef] using he

theorem Picked.spare_of (hp : Picked s s1 now) {i : InodeId} (hi : s1.Spare i) :
    s.Spare i ∧ i ≠ now := by
  rcases hi with hi | hi
  · have := (hp.slab i).mp hi
    exact ⟨.inl this.1, this.2⟩
  · have := mt (hp.le_iff i).mpr (Nat.not_le.mpr hi)
    simp only [not_or, Nat.not_le] at this
    exact ⟨.inr this.1, this.2⟩

/-- A father is no spare inode. -/
theorem Picked.father_ne (hp : Picked s s1 now) (h : Tree s kids)
    (hdir : (s.inodes father).isDirectories = true) : father ≠ now := by
  rintro rfl
  exact h.not_spare (h.in_of_dir hdir) hp.spare

/-- The new son stands at the head of the chain. -/
theorem forest_created (h : Tree s kids) (hp : Picked s s1 now) (hne : father ≠ now)
    (isDir : Bool) (filename : Str) (d' : HashMap InodeId InodeId) :
    Forest (created s1 father now isDir filename d').son
      (created s1 father now isDir filename d').bro
      (Function.update kids father (now :: kids father)) := by
  have hk := h.kids_spare hp.spare
  have inFather := created_father filename d' hp isDir hne
  have inNow := created_now filename d' hp isDir hne
  have inOther : ∀ {i}, i ≠ now → i ≠ father →
      (created s1 father now isDir filename d').inodes i = s.inodes i :=
    created_other filename d' hp isDir
  have hsonnow : s.son now = none := h.son_none hk
  have hson : (created s1 father now isDir filename d').son =
      Function.update s.son father (some now) := by
    funext i
    by_cases hf : i = father
    · subst hf
      simp [Fs.son, inFather]
    · by_cases hi : i = now
      · subst hi
        simp [Fs.son, inNow, hf, hp.son] at hsonnow ⊢
        exact hsonnow.symm
      · simp [Fs.son, inOther hi hf, hf]
  have hbro : (created s1 father now isDir filename d').bro =
      Function.update s.bro now (s.son father) := by
    funext i
    by_cases hi : i = now
    · subst hi
      simp [Fs.bro, inNow]
    · by_cases hf : i = father
      · subst hf
        simp [Fs.bro, inFather, hi]
      · simp [Fs.bro, inOther hi hf, hi]
  rw [hson, hbro]
  exact h.forest.insert hk (h.spare_kids hp.spare) hne.symm

/-- The maps name the sons, the new one included. -/
theorem hash_created (h : Tree s kids) (hp : Picked s s1 now) (hne : father ≠ now)
    (hd : (s.inodes father).dHash = some d) {isDir : Bool}
    (hput : d.put (Function.update s.names now filename) now (some now) = some d')
    {e : InodeId} {m : HashMap InodeId InodeId}
    (hm : ((created s1 father now isDir filename d').inodes e).dHash = some m) :
    Names (created s1 father now isDir filename d').names
      (Function.update kids father (now :: kids father) e) m := by
  have hcongr : ∀ e m, Names s.names (kids e) m →
      Names (Function.update s.names now filename) (kids e) m := by
    intro e m hn
    refine hn.congr fun i hi => Function.update_of_ne ?_ _ _
    rintro rfl
    exact h.spare_kids hp.spare e hi
  rw [created_names filename d' hp isDir hne]
  by_cases hf : e = father
  · subst hf
    rw [created_father filename d' hp isDir hne] at hm
    obtain rfl : d' = m := Option.some.inj hm
    rw [Function.update_self]
    exact ((hcongr e d (h.hash e d hd)).mono (List.subset_cons_self _ _)).put
      List.mem_cons_self hput
  · rw [Function.update_of_ne hf]
    by_cases hi : e = now
    · subst hi
      rw [created_now filename d' hp isDir hne] at hm
      cases isDir with
      | true =>
        obtain rfl := Option.some.inj hm
        exact .empty _ _
      | false => simp at hm
    · rw [created_other filename d' hp isDir hi hf] at hm
      exact hcongr e m (h.hash e m hm)

theorem tree_created (h : Tree s kids) (hp : Picked s s1 now)
    (hd : (s.inodes father).dHash = some d) {isDir : Bool}
    (hput : d.put (Function.update s.names now filename) now (some now) = some d') :
    Tree (created s1 father now isDir filename d')
      (Function.update kids father (now :: kids father)) := by
  have hdir : (s.inodes father).isDirectories = true := (h.dHash_iff father).mp (by simp [hd])
  have hne := hp.father_ne h hdir
  have hk := h.kids_spare hp.spare
  have inFather := created_father filename d' hp isDir hne
  have inNow := created_now filename d' hp isDir hne
  have inOther : ∀ {i}, i ≠ now → i ≠ father →
      (created s1 father now isDir filename d').inodes i = s.inodes i :=
    created_other filename d' hp isDir
  constructor
  case forest => exact forest_created h hp hne isDir filename d'
  case root_kids =>
    intro e he
    rcases mem_insert_son.mp ⟨e, he⟩ with hr | ⟨e', he'⟩
    · exact h.spare_ne_root hp.spare hr.symm
    · exact h.root_kids e' he'
  case placed =>
    intro i
    have hle : i ≤ (created s1 father now isDir filename d').mallocTimes ↔
        i ≤ s.mallocTimes ∨ i = now := hp.le_iff i
    have hslab : i ∈ (created s1 father now isDir filename d').freeInodeSlab ↔
        i ∈ s.freeInodeSlab ∧ i ≠ now := hp.slab i
    have hroot := h.spare_ne_root hp.spare
    rw [mem_insert_son, hle, hslab]
    by_cases hi : i = now
    · simp [hi, hroot]
    · simpa [hi] using h.placed i
  case slab_kids =>
    intro i hi e he
    have hs := (hp.slab i).mp hi
    rcases mem_insert_son.mp ⟨e, he⟩ with hr | ⟨e', he'⟩
    · exact hs.2 hr
    · exact h.slab_kids i hs.1 e' he'
  case slab_nodup => exact hp.slab_nodup
  case spare =>
    intro i hi
    obtain ⟨hs, hne'⟩ := hp.spare_of hi
    have hf : i ≠ father := by
      rintro rfl
      exact h.not_spare (h.in_of_dir hdir) hs
    rw [inOther hne' hf]
    exact h.spare i hs
  case dHash_iff =>
    intro e
    by_cases hi : e = now
    · subst hi
      rw [inNow]
      cases isDir <;> simp
    · by_cases hf : e = father
      · subst hf
        rw [inFather]
        simp [hdir]
      · rw [inOther hi hf]
        exact h.dHash_iff e
  case kids_dir =>
    intro e he
    by_cases hf : e = father
    · subst hf
      rw [inFather]
      exact hdir
    · rw [Function.update_of_ne hf] at he
      have hi : e ≠ now := by
        rintro rfl
        exact he hk
      rw [inOther hi hf]
      exact h.kids_dir e he
  case hash => exact fun e m hm => hash_created h hp hne hd hput hm
  case sonNums =>
    intro e
    by_cases hf : e = father
    · subst hf
      rw [inFather]
      have := h.sonNums e
      simp only [Function.update_self, List.length_cons, Nat.cast_add, Nat.cast_one]
      omega
    · rw [Function.update_of_ne hf]
      by_cases hi : e = now
      · subst hi
        rw [inNow, hk]
        exact hp.sonNums
      · rw [inOther hi hf]
        exact h.sonNums e
  case root_dir =>
    have hi := (h.spare_ne_root hp.spare).symm
    by_cases hf : rootId = father
    · rw [hf, inFather]
      exact hdir
    · rw [inOther hi hf]
      exact h.root_dir

end created

end DhmpFs
