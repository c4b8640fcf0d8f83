import DhmpFs.Fs.Owned

/-!
# Recycling an inode

`reset_indoe` gives every chunk of an inode back through the back pointers in the contexts.
Since the back pointers are right, only the slots of that inode are cleared.
-/

namespace DhmpFs

/-- The chunks in `cs`, all owned by the inode `now`, have been given back. -/
structure Released (s : Fs) (now : InodeId) (cs : List Chunk) (s' : Fs) (index : FileIndex) :
    Prop where
  complete : (s.inodes now).cntId.Complete → index.Complete
  get : ∀ slot, index.get slot =
    if ∃ c ∈ cs, (s.inodes now).cntId.get slot = some c then none
    else (s.inodes now).cntId.get slot
  eq : s' = { s with
    inodes := Function.update s.inodes now { s.inodes now with cntId := index }
    contextAddr := fun c => if c ∈ cs then ⟨0, none⟩ else s.contextAddr c
    bitmap := fun c => if c ∈ cs then false else s.bitmap c }

theorem FileIndex.Complete.set {f : FileIndex} (h : f.Complete) (slot : Slot)
    (c : Option Chunk) : (f.set slot c).Complete := by
  obtain ⟨h1, h2⟩ := h
  cases slot <;> simp_all [FileIndex.set, FileIndex.Complete]

/-- Giving back chunks whose back pointers are right. -/
theorem foldlM_releaseContext {now : InodeId} {cs : List Chunk} (hn : cs.Nodup) {s : Fs}
    (hcs : ∀ c ∈ cs, ∃ slot, (s.contextAddr c).whichInodeItIs = some (now, slot) ∧
      (s.inodes now).cntId.get slot = some c)
    (hget : ∀ c ∈ cs, ∀ slot slot', (s.inodes now).cntId.get slot = some c →
      (s.inodes now).cntId.get slot' = some c → slot = slot') :
    ∃ s' index, cs.foldlM releaseContext s = some s' ∧ Released s now cs s' index := by
  induction cs generalizing s with
  | nil => exact ⟨s, (s.inodes now).cntId, rfl, id, by simp, by simp⟩
  | cons c cs ih =>
    obtain ⟨hc, hn⟩ := List.nodup_cons.mp hn
    obtain ⟨slot, hwhich, hslot⟩ := hcs c (by simp)
    obtain ⟨s1, h1⟩ : ∃ s1, releaseContext s c = some s1 ∧ s1 = { s with
        inodes := Function.update s.inodes now
          { s.inodes now with cntId := (s.inodes now).cntId.set slot none }
        contextAddr := Function.update s.contextAddr c ⟨0, none⟩
        bitmap := Function.update s.bitmap c false } := by
      refine ⟨_, ?_, rfl⟩
      simp [releaseContext, hwhich, Fs.modify, Fs.modifyContext]
    have hget1 : ∀ slot', (s1.inodes now).cntId.get slot' =
        if slot' = slot then none else (s.inodes now).cntId.get slot' := by
      intro slot'
      simp [h1.2, FileIndex.get_set (FileIndex.hasBlock_of_get hslot)]
    have hne : ∀ d ∈ cs, ∀ slot', (s.inodes now).cntId.get slot' = some d → slot' ≠ slot := by
      rintro d hd slot' hs rfl
      obtain rfl : d = c := by simpa [hslot] using hs.symm
      exact hc hd
    obtain ⟨s', index, hfold, complete, get, eq⟩ := ih hn (s := s1)
      (by
        intro d hd
        obtain ⟨slot', hw, hs⟩ := hcs d (by simp [hd])
        have hdc : d ≠ c := by
          rintro rfl
          exact hc hd
        exact ⟨slot', by simpa [h1.2, hdc] using hw, by simp [hget1, hne d hd slot' hs, hs]⟩)
      (by
        intro d hd slot₁ slot₂ h₁ h₂
        rw [hget1] at h₁ h₂
        split at h₁ <;> split at h₂ <;> try contradiction
        exact hget d (by simp [hd]) slot₁ slot₂ h₁ h₂)
    refine ⟨s', index, by simp [h1.1, hfold], ?_, ?_, ?_⟩
    · intro hcomp
      apply complete
      simpa [h1.2] using hcomp.set slot none
    · intro slot'
      rw [get]
      by_cases hs : slot' = slot
      · subst hs
        simp [hget1, hslot]
      · have hcs' : (s.inodes now).cntId.get slot' ≠ some c :=
          fun h => hs (hget c (by simp) slot' slot h hslot)
        simp [hget1, hs, hcs']
    · rw [eq, h1.2]
      simp only [Function.update_self, Function.update_idem, List.mem_cons]
      congr 1
      · funext d
        by_cases hd : d = c <;> by_cases hm : d ∈ cs <;> simp [hd, hm]
      · funext d
        by_cases hd : d = c <;> by_cases hm : d ∈ cs <;> simp [hd, hm]

/-- What `reset_indoe` leaves of an inode. -/
def Inode.wiped (n : Inode) (index : FileIndex) : Inode where
  filename := []
  size := 0
  isDirectories := false
  sonNums := n.sonNums
  cntId := index
  dHash := if n.isDirectories then none else n.dHash
  context := []
  son := none
  bro := none

/-- What `reset_indoe` does: the inode is blank, its chunks are free and it ends the slab. -/
structure Wiped (s : Fs) (now : InodeId) (s' : Fs) (index : FileIndex) : Prop where
  complete : index.Complete
  get : ∀ slot, index.get slot = none
  eq : s' = { s with
    inodes := Function.update s.inodes now ((s.inodes now).wiped index)
    contextAddr := fun c => if c ∈ (s.inodes now).context then ⟨0, none⟩ else s.contextAddr c
    bitmap := fun c => if c ∈ (s.inodes now).context then false else s.bitmap c
    freeInodeSlab := s.freeInodeSlab ++ [now] }

theorem resetIndoe_spec {s : Fs} (o : Owned s) (now : InodeId)
    (hd : (s.inodes now).isDirectories → (s.inodes now).dHash ≠ none) :
    ∃ s', resetIndoe s now = some s' ∧ ∃ index, Wiped s now s' index := by
  unfold resetIndoe
  rw [if_neg (fun h => hd h.1 h.2)]
  obtain ⟨t, index, hfold, complete, get, eq⟩ := foldlM_releaseContext
    (o.context_nodup now) (s := s.modify now fun n =>
      { n with
        dHash := if n.isDirectories then none else n.dHash
        isDirectories := false
        son := none
        bro := none
        size := 0
        context := [] })
    (by
      intro c hc
      obtain ⟨slot, hs⟩ := (o.context_iff now c).mp hc
      exact ⟨slot, (o.which_iff now slot c).mp hs, by simpa using hs⟩)
    (by
      intro c _ slot slot' h h'
      simp only [Fs.modify_inodes_self] at h h'
      exact (o.eq_of_get h h').2)
  simp only [Fs.modify_inodes_self] at complete get
  simp only [hfold, Option.some.injEq, exists_eq_left']
  refine ⟨index, complete (o.complete now), fun slot => ?_, ?_⟩
  · rw [get]
    split
    · rfl
    · rename_i hno
      cases hs : (s.inodes now).cntId.get slot with
      | none => rfl
      | some c => exact absurd (o.mem_of_get hs) (by simpa [hs] using hno)
  · simp [eq, Fs.modify, Inode.wiped]

namespace Wiped

variable {s s' : Fs} {now i : InodeId} {index : FileIndex}

theorem inodes_self (w : Wiped s now s' index) : s'.inodes now = (s.inodes now).wiped index := by
  simp [w.eq]

theorem inodes_ne (w : Wiped s now s' index) (hi : i ≠ now) : s'.inodes i = s.inodes i := by
  simp [w.eq, hi]

theorem owned (o : Owned s) (w : Wiped s now s' index) : Owned s' := by
  have hwhich : ∀ c, c ∈ (s.inodes now).context ↔
      ∃ slot, (s.contextAddr c).whichInodeItIs = some (now, slot) := by
    intro c
    rw [o.context_iff]
    simp only [o.which_iff]
  have hne : ∀ i slot c, i ≠ now → (s.inodes i).cntId.get slot = some c →
      c ∉ (s.inodes now).context := by
    intro i slot c hi hget hc
    obtain ⟨slot', hs⟩ := (o.context_iff now c).mp hc
    exact hi (o.eq_of_get hget hs).1
  have hsizes : ∀ i, i ≠ now → sizes s' (s.inodes i).context = sizes s (s.inodes i).context := by
    intro i hi
    refine sizes_congr fun c hc => ?_
    obtain ⟨slot, hs⟩ := (o.context_iff i c).mp hc
    simp [w.eq, hne i slot c hi hs]
  obtain ⟨complete, get, eq⟩ := w
  constructor
  case which_iff =>
    intro i slot c
    by_cases hi : i = now
    · subst hi
      by_cases hc : c ∈ (s.inodes i).context
      · simp [eq, Inode.wiped, get, hc]
      · have := mt (hwhich c).mpr hc
        simp only [not_exists] at this
        simp [eq, Inode.wiped, get, hc, this slot]
    · by_cases hc : c ∈ (s.inodes now).context
      · simpa [eq, hi, hc] using fun h => hne i slot c hi h hc
      · simpa [eq, hi, hc] using o.which_iff i slot c
  case bitmap_iff =>
    intro c
    by_cases hc : c ∈ (s.inodes now).context
    · simp [eq, hc]
    · simpa [eq, hc] using o.bitmap_iff c
  case context_iff =>
    intro i c
    by_cases hi : i = now
    · simp [eq, hi, Inode.wiped, get]
    · simpa [eq, hi] using o.context_iff i c
  case context_nodup =>
    intro i
    by_cases hi : i = now
    · simp [eq, hi, Inode.wiped]
    · simpa [eq, hi] using o.context_nodup i
  case complete =>
    intro i
    by_cases hi : i = now
    · simpa [eq, hi, Inode.wiped] using complete
    · simpa [eq, hi] using o.complete i
  case size_eq =>
    intro i
    by_cases hi : i = now
    · simp [eq, hi, Inode.wiped, sizes]
    · have := hsizes i hi
      rw [show (s'.inodes i) = s.inodes i by simp [eq, hi], this]
      exact o.size_eq i
  case size_free =>
    intro c hb
    by_cases hc : c ∈ (s.inodes now).context
    · simp [eq, hc]
    · simpa [eq, hc] using o.size_free c (by simpa [eq, hc] using hb)
  case size_le =>
    intro c
    by_cases hc : c ∈ (s.inodes now).context
    · simp [eq, hc]
    · simpa [eq, hc] using o.size_le c
  case cursor_lt => simpa [eq] using o.cursor_lt
  case chunk_lt =>
    intro c hb
    by_cases hc : c ∈ (s.inodes now).context
    · simp [eq, hc] at hb
    · exact o.chunk_lt c (by simpa [eq, hc] using hb)

end Wiped

end DhmpFs
