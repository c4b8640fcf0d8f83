import DhmpFs.Fs.Tree
import DhmpFs.Fs.Reset

/-!
# Deleting files and directories

A deletion unlinks one son, removes its name, recycles everything below it in the order of the
recursive walk, and recycles the son itself.
-/

namespace DhmpFs

open Library

/-! ## Unlinking -/

/-- What `del_from_father` does: the chain of the father loses `del`. -/
structure Unlinked (s : Fs) (kids : InodeId → List InodeId) (father del : InodeId) (s' : Fs) :
    Prop where
  chain : ∀ d, Chain s'.bro (s'.son d)
    (Function.update kids father ((kids father).erase del) d)
  inodes : ∀ i, s'.inodes i = { s.inodes i with
    son := s'.son i
    bro := s'.bro i
    sonNums := if i = father then (s.inodes i).sonNums - 1 else (s.inodes i).sonNums }
  son_ne : ∀ i, i ≠ father → s'.son i = s.son i
  bro_ne : ∀ i, i ∉ kids father → s'.bro i = s.bro i
  eq : s' = { s with inodes := s'.inodes }

theorem delLoop_eq {s : Fs} (father : InodeId) {del : InodeId} (rounds : Nat) {bef : InodeId}
    {rest : List InodeId} (hc : Chain s.bro (s.bro bef) rest) (hdel : del ∈ rest)
    (hr : rest.length ≤ rounds) :
    ∃ pre last post, bef :: rest = pre ++ last :: del :: post ∧
      delLoop father del rounds s bef (s.bro bef) =
        some ((s.modify last fun n => { n with bro := s.bro del }).modify father fun n =>
          { n with sonNums := n.sonNums - 1 }) := by
  induction rounds generalizing bef rest with
  | zero =>
    obtain rfl : rest = [] := by simpa using hr
    simp at hdel
  | succ rounds ih =>
    cases rest with
    | nil => simp at hdel
    | cons now rest =>
      obtain ⟨hbro, hc⟩ := hc
      rw [hbro, delLoop]
      by_cases hnow : now = del
      · subst hnow
        exact ⟨[], bef, rest, rfl, by simp [Fs.bro]⟩
      · have hmem : del ∈ rest := by
          rcases List.mem_cons.mp hdel with h | h
          · exact absurd h.symm hnow
          · exact h
        obtain ⟨pre, last, post, hsplit, heq⟩ := ih hc hmem (by simpa using hr)
        refine ⟨bef :: pre, last, post, by rw [hsplit]; rfl, ?_⟩
        rw [if_neg hnow]
        exact heq

/-- The first son is unlinked at its father. -/
theorem unlinked_first {s : Fs} {kids : InodeId → List InodeId} (h : Tree s kids)
    {father del : InodeId} {rest : List InodeId} (hk : kids father = del :: rest) :
    Unlinked s kids father del (s.modify father fun n =>
      { n with son := (s.inodes del).bro, sonNums := n.sonNums - 1 }) := by
  have hf := h.forest.chain father
  rw [hk] at hf
  obtain ⟨-, hrest⟩ := hf
  have hbros : (s.modify father fun n =>
      { n with son := (s.inodes del).bro, sonNums := n.sonNums - 1 }).bro = s.bro := by
    funext i
    by_cases hi : i = father <;> simp_all [Fs.bro, Fs.modify]
  refine ⟨fun d => ?_, fun i => ?_, fun i hi => ?_, fun i _ => by rw [hbros],
    by simp [Fs.modify]⟩
  · by_cases hd : d = father
    · subst hd
      have hfirst : Chain s.bro (s.inodes del).bro rest := hrest
      simpa [hbros, Fs.son, hk] using hfirst
    · simpa [hbros, Fs.son, Fs.modify_inodes_ne _ hd, hd] using h.forest.chain d
  · by_cases hi : i = father
    · simp [Fs.son, Fs.bro, hi]
    · simp [Fs.son, Fs.bro, Fs.modify_inodes_ne _ hi, hi]
  · simp [Fs.son, Fs.modify_inodes_ne _ hi]

/-- Any other son is unlinked at the brother before it. -/
theorem unlinked_later {s : Fs} {kids : InodeId → List InodeId} (h : Tree s kids)
    {father del last : InodeId} {pre post : List InodeId}
    (hk : kids father = pre ++ last :: del :: post) :
    Unlinked s kids father del ((s.modify last fun n => { n with bro := s.bro del }).modify father
      fun n => { n with sonNums := n.sonNums - 1 }) := by
  have hchain := h.forest.chain
  have hn := h.forest.nodup father
  have hmem : last ∈ kids father := by simp [hk]
  have hlast : last ≠ father := h.forest.son_ne hmem
  rw [hk] at hn
  have herase : (kids father).erase del = pre ++ last :: post := by
    have hpre : del ∉ pre := fun hm => (List.nodup_append'.mp hn).2.2 hm (by simp)
    have hld : last ≠ del := by
      rintro rfl
      simp [List.nodup_append] at hn
    rw [hk, List.erase_append_right _ hpre, List.erase_cons_tail (by simpa using hld),
      List.erase_cons_head]
  have hbros : ((s.modify last fun n => { n with bro := s.bro del }).modify father fun n =>
      { n with sonNums := n.sonNums - 1 }).bro = Function.update s.bro last (s.bro del) := by
    funext i
    by_cases hi : i = father <;> by_cases hl : i = last <;> simp_all [Fs.bro, Fs.modify]
  have hsons : ((s.modify last fun n => { n with bro := s.bro del }).modify father fun n =>
      { n with sonNums := n.sonNums - 1 }).son = s.son := by
    funext i
    by_cases hi : i = father <;> by_cases hl : i = last <;> simp_all [Fs.son, Fs.modify]
  refine ⟨fun d => ?_, fun i => ?_, fun i _ => by rw [hsons], fun i hi => ?_,
    by simp [Fs.modify]⟩
  · rw [hbros, hsons]
    by_cases hd : d = father
    · subst hd
      rw [Function.update_self, herase]
      have hc := hchain d
      rw [hk] at hc
      exact hc.unlink hn
    · rw [Function.update_of_ne hd]
      refine (hchain d).congr fun i hi => Function.update_of_ne ?_ _ _
      rintro rfl
      exact hd (h.forest.father _ _ i hi hmem)
  · rw [hbros, hsons]
    by_cases hi : i = father <;> by_cases hl : i = last <;>
      simp_all [Fs.son, Fs.bro, Fs.modify]
  · rw [hbros]
    refine Function.update_of_ne ?_ _ _
    rintro rfl
    exact hi hmem

theorem delFromFather_spec {s : Fs} {kids : InodeId → List InodeId} (h : Tree s kids)
    {father del : InodeId} (hdel : del ∈ kids father) :
    ∃ s', delFromFather s father del = some s' ∧ Unlinked s kids father del s' := by
  have hf := h.forest.chain father
  have hlen := h.sons_length_le father
  cases hk : kids father with
  | nil => simp [hk] at hdel
  | cons son rest =>
    rw [hk] at hf hdel hlen
    obtain ⟨hson, hrest⟩ := hf
    have hson' : (s.inodes father).son = some son := hson
    unfold delFromFather
    rw [hson']
    by_cases hs : son = del
    · subst hs
      exact ⟨_, if_pos rfl, unlinked_first h hk⟩
    · have hmem : del ∈ rest := by
        rcases List.mem_cons.mp hdel with hd | hd
        · exact absurd hd.symm hs
        · exact hd
      simp only [List.length_cons] at hlen
      obtain ⟨pre, last, post, hsplit, heq⟩ :=
        delLoop_eq father (s.mallocTimes + 1) hrest hmem (by omega)
      exact ⟨_, (if_neg hs).trans heq, unlinked_later h (hk.trans hsplit)⟩

/-! ## Recycling a subtree -/

/-- Every inode of `l` has been recycled, in this order. -/
structure WipedAll (s : Fs) (l : List InodeId) (s' : Fs) : Prop where
  owned : Owned s'
  inodes_ne : ∀ i, i ∉ l → s'.inodes i = s.inodes i
  inodes : ∀ i ∈ l, ∃ index, s'.inodes i = (s.inodes i).wiped index
  slab : s'.freeInodeSlab = s.freeInodeSlab ++ l
  mallocTimes : s'.mallocTimes = s.mallocTimes

theorem foldlM_resetIndoe {s : Fs} (o : Owned s) {l : List InodeId} (hn : l.Nodup)
    (hd : ∀ i ∈ l, (s.inodes i).isDirectories → (s.inodes i).dHash ≠ none) :
    ∃ s', l.foldlM resetIndoe s = some s' ∧ WipedAll s l s' := by
  induction l generalizing s with
  | nil => exact ⟨s, rfl, o, fun _ _ => rfl, by simp, by simp, rfl⟩
  | cons i l ih =>
    obtain ⟨hi, hn⟩ := List.nodup_cons.mp hn
    obtain ⟨s1, h1, index, w⟩ := resetIndoe_spec o i (hd i (by simp))
    have hne : ∀ j, j ≠ i → s1.inodes j = s.inodes j := fun j hj => w.inodes_ne hj
    have hl : ∀ j ∈ l, j ≠ i := by
      rintro j hj rfl
      exact hi hj
    obtain ⟨s', hfold, wl⟩ := ih (w.owned o) hn (by
      intro j hj
      rw [hne j (hl j hj)]
      exact hd j (by simp [hj]))
    refine ⟨s', by simp [h1, hfold], wl.owned, fun j hj => ?_, fun j hj => ?_, ?_, ?_⟩
    · simp only [List.mem_cons, not_or] at hj
      rw [wl.inodes_ne j hj.2, hne j hj.1]
    · rcases List.mem_cons.mp hj with rfl | hj
      · exact ⟨index, by rw [wl.inodes_ne j hi, w.inodes_self]⟩
      · rw [← hne j (hl j hj)]
        exact wl.inodes j hj
    · rw [wl.slab, w.eq]
      simp
    · rw [wl.mallocTimes, w.eq]

/-- The recursive deletion resets the inodes of a listing one after the other. -/
theorem deleteSons_eq {son bro : InodeId → Option InodeId} {p : Option InodeId}
    {l : List InodeId} (hl : Listing son bro p l) {s : Fs} (o : Owned s) (hn : l.Nodup)
    (hs : ∀ i ∈ l, s.son i = son i ∧ s.bro i = bro i)
    (hd : ∀ i ∈ l, (s.inodes i).isDirectories → (s.inodes i).dHash ≠ none)
    (hnums : ∀ i ∈ l, son i ≠ none → (s.inodes i).isDirectories ∧ (s.inodes i).sonNums ≠ 0)
    {rounds : Nat} (hr : l.length ≤ rounds) :
    deleteSons rounds s p = l.foldlM resetIndoe s := by
  induction hl generalizing s rounds with
  | nil => cases rounds <;> rfl
  | @node i l l' hl hl' ih ih' =>
    obtain ⟨hnl, hni, hdisj⟩ := List.nodup_append'.mp hn
    obtain ⟨hil', hnl'⟩ := List.nodup_cons.mp hni
    have hil : i ∉ l := fun hi => hdisj hi (by simp)
    simp only [List.length_append, List.length_cons] at hr
    obtain ⟨rounds, rfl⟩ : ∃ r, rounds = r + 1 := ⟨rounds - 1, by omega⟩
    have hsi := hs i (by simp)
    -- the sons, if there are any
    have hsons : (if (s.inodes i).isDirectories ∧ (s.inodes i).sonNums ≠ 0 then
        deleteSons rounds s (s.inodes i).son else some s) = l.foldlM resetIndoe s := by
      split
      · rw [show (s.inodes i).son = son i from hsi.1]
        exact ih o hnl (fun j hj => hs j (by simp [hj])) (fun j hj => hd j (by simp [hj]))
          (fun j hj => hnums j (by simp [hj])) (by omega)
      · rename_i hno
        have hnone : son i = none := by
          by_contra hne
          exact hno (hnums i (by simp) hne)
        rw [hnone] at hl
        cases hl
        rfl
    rw [deleteSons]
    simp only [hsons, List.foldlM_append, List.foldlM_cons]
    obtain ⟨t, ht, w⟩ := foldlM_resetIndoe o hnl fun j hj => hd j (by simp [hj])
    have hti : t.inodes i = s.inodes i := w.inodes_ne i hil
    obtain ⟨u, hu, index, wu⟩ := resetIndoe_spec w.owned i (by
      rw [hti]
      exact hd i (by simp))
    have hbro : (t.inodes i).bro = bro i := by
      rw [hti]
      exact hsi.2
    have hrest : ∀ j ∈ l', u.inodes j = s.inodes j := by
      intro j hj
      have hji : j ≠ i := by
        rintro rfl
        exact hil' hj
      rw [wu.inodes_ne hji, w.inodes_ne j fun hjl => hdisj hjl (by simp [hj])]
    simp only [ht, Option.bind_eq_bind, Option.bind_some, hu, hbro]
    refine ih' (wu.owned w.owned) hnl' (fun j hj => ?_) (fun j hj => ?_) (fun j hj => ?_)
      (by omega)
    · have := hs j (by simp [hj])
      simpa only [Fs.son, Fs.bro, hrest j hj] using this
    · rw [hrest j hj]
      exact hd j (by simp [hj])
    · rw [hrest j hj]
      exact hnums j (by simp [hj])

/-! ## Deletion -/

/-- What the deletion of the son `toDel` of `father` does; `l` lists what it recycles. -/
structure Deleted (s : Fs) (kids : InodeId → List InodeId) (father toDel : InodeId)
    (filename : Str) (l : List InodeId) (s' : Fs) : Prop where
  nodup : l.Nodup
  mem_iff : ∀ i, i ∈ l ↔ i = toDel ∨ Below kids toDel i
  owned : Owned s'
  chain : ∀ d, d ∉ l → Chain s'.bro (s'.son d)
    (Function.update kids father ((kids father).erase toDel) d)
  inodes_ne : ∀ i, i ∉ l → i ≠ father →
    s'.inodes i = { s.inodes i with son := s'.son i, bro := s'.bro i }
  inodes_father : ∃ d d', (s.inodes father).dHash = some d ∧ d'.Valid s.names ∧
    Assoc.Removed s.names d.entries filename d'.entries ∧
    s'.inodes father = { s.inodes father with
      son := s'.son father
      bro := s'.bro father
      sonNums := (s.inodes father).sonNums - 1
      dHash := some d' }
  inodes : ∀ i ∈ l, ∃ index, s'.inodes i = (s.inodes i).wiped index
  slab : s'.freeInodeSlab = s.freeInodeSlab ++ l
  mallocTimes : s'.mallocTimes = s.mallocTimes

/-- The son `del` is off the chain of `father`, and its name is out of the map. -/
structure Detached (s : Fs) (kids : InodeId → List InodeId) (father del : InodeId)
    (d' : HashMap InodeId InodeId) (s' : Fs) : Prop where
  chain : ∀ d, Chain s'.bro (s'.son d)
    (Function.update kids father ((kids father).erase del) d)
  inodes : ∀ i, s'.inodes i = { s.inodes i with
    son := s'.son i
    bro := s'.bro i
    sonNums := if i = father then (s.inodes i).sonNums - 1 else (s.inodes i).sonNums
    dHash := if i = father then some d' else (s.inodes i).dHash }
  son_ne : ∀ i, i ≠ father → s'.son i = s.son i
  bro_ne : ∀ i, i ∉ kids father → s'.bro i = s.bro i
  eq : s' = { s with inodes := s'.inodes }

section Detached

variable {s s₁ s₂ s' : Fs} {kids : InodeId → List InodeId} {father toDel : InodeId}
  {d' : HashMap InodeId InodeId} {l : List InodeId}

theorem Unlinked.detached (u : Unlinked s kids father toDel s₁) (d' : HashMap InodeId InodeId) :
    Detached s kids father toDel d' (s₁.modify father fun n => { n with dHash := some d' }) := by
  have hson : (s₁.modify father fun n => { n with dHash := some d' }).son = s₁.son := by
    funext i
    by_cases hi : i = father <;> simp [Fs.son, Fs.modify, hi]
  have hbro : (s₁.modify father fun n => { n with dHash := some d' }).bro = s₁.bro := by
    funext i
    by_cases hi : i = father <;> simp [Fs.bro, Fs.modify, hi]
  constructor
  case inodes =>
    intro i
    rw [hson, hbro]
    by_cases hi : i = father
    · subst hi
      simp [u.inodes i]
    · simp [Fs.modify_inodes_ne _ hi, u.inodes i, hi]
  case chain => simpa only [hson, hbro] using u.chain
  case son_ne => simpa only [hson] using u.son_ne
  case bro_ne => simpa only [hbro] using u.bro_ne
  case eq => rw [u.eq]; rfl

namespace Detached

theorem owned (u : Detached s kids father toDel d' s₂) (o : Owned s) : Owned s₂ := by
  refine o.congr (fun i => ?_) ?_ ?_ ?_
  · rw [u.inodes]
    exact ⟨o.complete i, fun _ => rfl, rfl, rfl⟩
  all_goals rw [u.eq]

theorem mallocTimes (u : Detached s kids father toDel d' s₂) :
    s₂.mallocTimes = s.mallocTimes := by
  rw [u.eq]

theorem dHash_ne (u : Detached s kids father toDel d' s₂) (h : Tree s kids) (i : InodeId) :
    (s₂.inodes i).isDirectories → (s₂.inodes i).dHash ≠ none := by
  rw [u.inodes]
  split
  · simp
  · exact (h.dHash_iff i).mpr

/-- The walk below the son recycles what is below it: nothing there has been touched. -/
theorem deleteBelow (u : Detached s kids father toDel d' s₂) (h : Tree s kids) (o : Owned s)
    (hdel : toDel ∈ kids father) (hl : Listing s.son s.bro (s.son toDel) l) (hn : l.Nodup)
    (hm : ∀ i, i ∈ l ↔ Below kids toDel i) :
    (if (s₂.inodes toDel).isDirectories then dhmpDeleteALL s₂ toDel else some s₂) =
      l.foldlM resetIndoe s₂ := by
  split
  · have hson : (s₂.inodes toDel).son = s.son toDel := u.son_ne toDel (h.forest.son_ne hdel)
    rw [dhmpDeleteALL, hson]
    refine deleteSons_eq hl (u.owned o) hn (fun i hi => ?_) (fun i _ => u.dHash_ne h i)
      (fun i hi hs => ?_) ?_
    · have hb := h.forest.below_son hdel ((hm i).mp hi)
      exact ⟨u.son_ne i hb.1, u.bro_ne i hb.2⟩
    · have hb := h.forest.below_son hdel ((hm i).mp hi)
      have hk : kids i ≠ [] := fun hk => hs (h.son_none hk)
      have := h.sonNums i
      have := List.length_pos_iff.mpr hk
      rw [u.inodes]
      simp only [hb.1, if_false]
      exact ⟨h.kids_dir i hk, by omega⟩
    · rw [u.mallocTimes]
      refine h.length_le hn fun i hi => ?_
      obtain ⟨e, -, hk⟩ := Relation.TransGen.tail'_iff.mp ((hm i).mp hi)
      exact ⟨e, hk⟩
  · next hnd =>
    have hk : kids toDel = [] := by
      by_contra hk
      rw [u.inodes] at hnd
      exact hnd (h.kids_dir toDel hk)
    have hs : s.son toDel = none := h.son_none hk
    rw [hs] at hl
    cases hl
    rfl

/-- Recycling the son and all below it completes the deletion. -/
theorem deleted (u : Detached s kids father toDel d' s₂) (h : Tree s kids)
    (hdel : toDel ∈ kids father) {filename : Str} {d : HashMap InodeId InodeId}
    (hd : (s.inodes father).dHash = some d) (hv : d'.Valid s.names)
    (hr : Assoc.Removed s.names d.entries filename d'.entries) (hn : l.Nodup)
    (hm : ∀ i, i ∈ l ↔ i = toDel ∨ Below kids toDel i) (w : WipedAll s₂ l s') :
    Deleted s kids father toDel filename l s' := by
  have hfather : father ∉ l := by
    rw [hm]
    rintro (hf | hf)
    · exact h.forest.son_ne hdel hf.symm
    · exact (h.forest.below_son hdel hf).1 rfl
  have hpointers : ∀ i, i ∉ l → s'.son i = s₂.son i ∧ s'.bro i = s₂.bro i := by
    intro i hi
    rw [Fs.son, Fs.bro, w.inodes_ne i hi]
    exact ⟨rfl, rfl⟩
  constructor
  case nodup => exact hn
  case mem_iff => exact hm
  case owned => exact w.owned
  case chain =>
    intro e he
    rw [(hpointers e he).1]
    refine (u.chain e).congr fun i hi => (hpointers i ?_).2
    rw [hm] at he ⊢
    by_cases hef : e = father
    · subst hef
      rw [Function.update_self] at hi
      rintro (rfl | hb)
      · exact (h.forest.nodup e).not_mem_erase hi
      · exact (h.forest.below_son hdel hb).2 (List.mem_of_mem_erase hi)
    · rw [Function.update_of_ne hef] at hi
      rintro (rfl | hb)
      · exact hef (h.forest.father _ _ _ hi hdel)
      · exact he ((h.forest.below_or_eq hb hi).imp Eq.symm id)
  case inodes_ne =>
    intro i hi hf
    rw [(hpointers i hi).1, (hpointers i hi).2, w.inodes_ne i hi, u.inodes]
    simp [hf]
  case inodes_father =>
    refine ⟨d, d', hd, hv, hr, ?_⟩
    rw [(hpointers father hfather).1, (hpointers father hfather).2, w.inodes_ne father hfather,
      u.inodes]
    simp
  case inodes =>
    intro i hi
    obtain ⟨index, hw⟩ := w.inodes i hi
    have hif : i ≠ father := by
      rintro rfl
      exact hfather hi
    refine ⟨index, ?_⟩
    rw [hw, u.inodes]
    simp [Inode.wiped, hif]
  case slab => rw [w.slab, u.eq]
  case mallocTimes => rw [w.mallocTimes, u.mallocTimes]

end Detached

end Detached

/-- The son is taken out of its directory, and everything below it and the son are recycled. -/
theorem removeSon_wiped {s : Fs} {kids : InodeId → List InodeId} (h : Tree s kids) (o : Owned s)
    {father toDel : InodeId} {filename : Str} {d : HashMap InodeId InodeId}
    (hd : (s.inodes father).dHash = some d) (hg : d.get s.names filename = some toDel) :
    ∃ s₂ s' l d', removeSon s father toDel filename = some (s', 1) ∧
      Detached s kids father toDel d' s₂ ∧ d'.Valid s.names ∧
      Assoc.Removed s.names d.entries filename d'.entries ∧ l.Nodup ∧
      (∀ i, i ∈ l ↔ i = toDel ∨ Below kids toDel i) ∧ WipedAll s₂ l s' := by
  have hnames := h.hash father d hd
  obtain ⟨hdel, -⟩ := hnames.get hg
  obtain ⟨s₁, h1, u₁⟩ := delFromFather_spec h hdel
  have hd1 : (s₁.inodes father).dHash = some d := by
    rw [u₁.inodes]
    exact hd
  have hn1 : s₁.names = s.names := by
    funext i
    simp only [Fs.names, u₁.inodes i]
  obtain ⟨d', hrem, hv', hr'⟩ := HashMap.remove_spec hnames.valid filename
  have hkey : (d.bucket filename).key ≠ none := by
    obtain ⟨k, he, hk⟩ := hnames.valid.get_eq_some.mp hg
    have hb := hnames.valid.mem_bucket he
    rw [hk] at hb
    intro hnone
    simp [Entry.toList, hnone] at hb
  have u := u₁.detached d'
  obtain ⟨l, hl, hn, hm⟩ := h.forest.exists_listing h.depth_le toDel
  have hbelow := u.deleteBelow h o hdel hl hn hm
  have hself : toDel ∉ l := fun hi => h.forest.irrefl ((hm toDel).mp hi)
  have hnodup : (l ++ [toDel]).Nodup := by
    rw [List.nodup_append']
    exact ⟨hn, by simp, fun i hi ht => hself (by simp_all)⟩
  obtain ⟨s', hs', w⟩ := foldlM_resetIndoe (u.owned o) hnodup fun i _ => u.dHash_ne h i
  have hmem : ∀ i, i ∈ l ++ [toDel] ↔ i = toDel ∨ Below kids toDel i := by
    intro i
    simp [hm, or_comm]
  refine ⟨_, s', l ++ [toDel], d', ?_, u, hv', hr', hnodup, hmem, w⟩
  unfold removeSon
  simp only [h1, hd1, hn1, hrem, hkey, hbelow, Option.bind_eq_bind, Option.bind_some, if_false]
  rw [List.foldlM_append] at hs'
  simp only [Option.bind_eq_bind, List.foldlM_cons, List.foldlM_nil] at hs'
  cases hfold : l.foldlM resetIndoe (s₁.modify father fun n => { n with dHash := some d' }) with
  | none => simp [hfold] at hs'
  | some t =>
    simp only [hfold, Option.bind_some, Option.pure_def, Option.bind_fun_some] at hs' ⊢
    simp [hs']

theorem removeSon_spec {s : Fs} {kids : InodeId → List InodeId} (h : Tree s kids) (o : Owned s)
    {father toDel : InodeId} {filename : Str} {d : HashMap InodeId InodeId}
    (hd : (s.inodes father).dHash = some d) (hg : d.get s.names filename = some toDel) :
    ∃ s' l, removeSon s father toDel filename = some (s', 1) ∧
      Deleted s kids father toDel filename l s' := by
  have hdel := ((h.hash father d hd).get hg).1
  obtain ⟨s₂, s', l, d', hs', u, hv, hr, hnodup, hmem, w⟩ := removeSon_wiped h o hd hg
  exact ⟨s', l, hs', u.deleted h hdel hd hv hr hnodup hmem w⟩

/-- The chains that are left after a deletion. -/
def remaining (kids : InodeId → List InodeId) (father toDel : InodeId) (l : List InodeId)
    (d : InodeId) : List InodeId :=
  if d ∈ l then [] else Function.update kids father ((kids father).erase toDel) d

section Deleted

variable {s s' : Fs} {kids : InodeId → List InodeId} {father toDel i d : InodeId}
  {filename : Str} {l : List InodeId}

theorem remaining_sublist (d : InodeId) : (remaining kids father toDel l d).Sublist (kids d) := by
  unfold remaining
  split
  · exact List.nil_sublist _
  · by_cases hd : d = father
    · subst hd
      simpa using List.erase_sublist
    · simp [hd]

theorem mem_remaining (h : Tree s kids) (hdel : toDel ∈ kids father)
    (w : Deleted s kids father toDel filename l s') :
    i ∈ remaining kids father toDel l d ↔ i ∈ kids d ∧ i ∉ l := by
  constructor
  · intro hi
    have hk := (remaining_sublist d).subset hi
    refine ⟨hk, fun hl => ?_⟩
    unfold remaining at hi
    split at hi
    · simp at hi
    · rename_i hd
      rcases (w.mem_iff i).mp hl with rfl | hb
      · obtain rfl := h.forest.father _ _ _ hk hdel
        rw [Function.update_self] at hi
        exact (h.forest.nodup d).not_mem_erase hi
      · exact hd ((w.mem_iff d).mpr ((h.forest.below_or_eq hb hk).imp Eq.symm id))
  · rintro ⟨hk, hl⟩
    have hd : d ∉ l := by
      intro hd
      refine hl ((w.mem_iff i).mpr (.inr ?_))
      rcases (w.mem_iff d).mp hd with rfl | hb
      · exact .single hk
      · exact hb.tail hk
    have hne : i ≠ toDel := by
      rintro rfl
      exact hl ((w.mem_iff i).mpr (.inl rfl))
    unfold remaining
    rw [if_neg hd]
    by_cases hf : d = father
    · subst hf
      rw [Function.update_self]
      exact (List.mem_erase_of_ne hne).mpr hk
    · rwa [Function.update_of_ne hf]

theorem Deleted.in_kids (hdel : toDel ∈ kids father)
    (w : Deleted s kids father toDel filename l s') (hi : i ∈ l) : ∃ d, i ∈ kids d := by
  rcases (w.mem_iff i).mp hi with rfl | hb
  · exact ⟨father, hdel⟩
  · obtain ⟨d, -, hk⟩ := Relation.TransGen.tail'_iff.mp hb
    exact ⟨d, hk⟩

theorem Deleted.wiped (h : Tree s kids) (w : Deleted s kids father toDel filename l s')
    (hi : i ∈ l) : (s'.inodes i).isDirectories = false ∧ (s'.inodes i).dHash = none := by
  obtain ⟨index, heq⟩ := w.inodes i hi
  rw [heq]
  refine ⟨rfl, ?_⟩
  cases hd : (s.inodes i).isDirectories with
  | true => simp [Inode.wiped, hd]
  | false => simp [Inode.wiped, hd, h.dHash_none hd]

/-- The strings that are left have not changed. -/
theorem Deleted.names (w : Deleted s kids father toDel filename l s') (hi : i ∉ l) :
    s'.names i = s.names i := by
  by_cases hf : i = father
  · subst hf
    obtain ⟨_, _, _, _, _, heq⟩ := w.inodes_father
    simp only [Fs.names, heq]
  · simp only [Fs.names, w.inodes_ne i hi hf]

theorem Deleted.isDirectories (w : Deleted s kids father toDel filename l s') (hi : i ∉ l) :
    (s'.inodes i).isDirectories = (s.inodes i).isDirectories := by
  by_cases hf : i = father
  · subst hf
    obtain ⟨_, _, _, _, _, heq⟩ := w.inodes_father
    rw [heq]
  · rw [w.inodes_ne i hi hf]

/-- The only son among the recycled inodes is the one that was named. -/
theorem Deleted.eq_of_son (h : Tree s kids) (hdel : toDel ∈ kids father)
    (w : Deleted s kids father toDel filename l s') (hi : i ∈ kids father) (hl : i ∈ l) :
    i = toDel := by
  rcases (w.mem_iff i).mp hl with rfl | hb
  · rfl
  · exact absurd hi (h.forest.below_son hdel hb).2

theorem Deleted.spare_or (w : Deleted s kids father toDel filename l s') (hi : s'.Spare i) :
    i ∈ l ∨ s.Spare i := by
  rcases hi with hi | hi
  · rw [w.slab, List.mem_append] at hi
    exact hi.symm.imp id .inl
  · rw [w.mallocTimes] at hi
    exact .inr (.inr hi)

/-- The maps that are left name the sons that are left. -/
theorem Deleted.hash (h : Tree s kids) (hdel : toDel ∈ kids father)
    (hname : s.names toDel = filename) (w : Deleted s kids father toDel filename l s')
    {m : HashMap InodeId InodeId} (hm : (s'.inodes d).dHash = some m) :
    Names s'.names (remaining kids father toDel l d) m := by
  have hl : d ∉ l := by
    intro hl
    simp [w.wiped h hl] at hm
  by_cases hf : d = father
  · subst hf
    obtain ⟨m₀, d', hm₀, hv, hr, heq⟩ := w.inodes_father
    rw [heq] at hm
    obtain rfl : d' = m := Option.some.inj hm
    refine (h.hash d m₀ hm₀).removed hv hr fun i hi hni => ?_
    have hout : i ∉ l := by
      intro hil
      rw [w.eq_of_son h hdel hi hil] at hni
      exact hni hname
    exact ⟨(mem_remaining h hdel w).mpr ⟨hi, hout⟩, w.names hout⟩
  · rw [w.inodes_ne d hl hf] at hm
    have hsame : remaining kids father toDel l d = kids d := by simp [remaining, hl, hf]
    have hn := h.hash d m hm
    rw [← hsame] at hn
    exact hn.congr fun i hi => w.names ((mem_remaining h hdel w).mp hi).2

/-- After a deletion the recycled inodes have no sons and are spare. -/
theorem tree_deleted (h : Tree s kids) (hdel : toDel ∈ kids father)
    (hname : s.names toDel = filename) (w : Deleted s kids father toDel filename l s') :
    Tree s' (remaining kids father toDel l) := by
  have hmem := fun {i d} => mem_remaining (i := i) (d := d) h hdel w
  have hfather := h.kids_dir father (List.ne_nil_of_mem hdel)
  have hroot : rootId ∉ l := by
    intro hr
    obtain ⟨d, hk⟩ := w.in_kids hdel hr
    exact h.root_kids d hk
  constructor
  case forest =>
    refine h.forest.sub (fun d => ?_) remaining_sublist
    by_cases hd : d ∈ l
    · obtain ⟨index, heq⟩ := w.inodes d hd
      have hson : s'.son d = none := by
        rw [Fs.son, heq]
        rfl
      simp [remaining, hd, hson]
    · simpa [remaining, hd] using w.chain d hd
  case root_kids => exact fun d hd => h.root_kids d (hmem.mp hd).1
  case placed =>
    intro i
    rw [w.mallocTimes, w.slab, List.mem_append]
    simp only [hmem, exists_and_right]
    have := h.placed i
    by_cases hi : i ∈ l
    · have hk := w.in_kids hdel hi
      simp only [hk, or_true, iff_true] at this
      simp [hi, this]
    · simpa [hi] using this
  case slab_kids =>
    intro i hi d hd
    rw [w.slab, List.mem_append] at hi
    rcases hi with hi | hi
    · exact h.slab_kids i hi d (hmem.mp hd).1
    · exact (hmem.mp hd).2 hi
  case slab_nodup =>
    rw [w.slab, List.nodup_append']
    refine ⟨h.slab_nodup, w.nodup, fun i hi hl => ?_⟩
    obtain ⟨d, hk⟩ := w.in_kids hdel hl
    exact h.slab_kids i hi d hk
  case spare =>
    intro i hi
    by_cases hl : i ∈ l
    · obtain ⟨index, heq⟩ := w.inodes i hl
      rw [heq]
      exact ⟨rfl, rfl⟩
    · have hs := (w.spare_or hi).resolve_left hl
      have hf : i ≠ father := by
        rintro rfl
        exact h.not_spare (h.in_of_dir hfather) hs
      rw [w.inodes_ne i hl hf]
      exact h.spare i hs
  case dHash_iff =>
    intro d
    by_cases hl : d ∈ l
    · simp [w.wiped h hl]
    · rw [w.isDirectories hl]
      by_cases hf : d = father
      · subst hf
        obtain ⟨_, _, _, _, _, heq⟩ := w.inodes_father
        rw [heq]
        simp [hfather]
      · rw [w.inodes_ne d hl hf]
        exact h.dHash_iff d
  case kids_dir =>
    intro d hd
    have hl : d ∉ l := fun hl => hd (by simp [remaining, hl])
    rw [w.isDirectories hl]
    exact h.kids_dir d fun hk => hd (List.sublist_nil.mp (hk ▸ remaining_sublist d))
  case hash => exact fun d m hm => w.hash h hdel hname hm
  case sonNums =>
    intro d
    by_cases hl : d ∈ l
    · obtain ⟨index, heq⟩ := w.inodes d hl
      have := h.sonNums d
      have hnums : (s'.inodes d).sonNums = (s.inodes d).sonNums := by
        rw [heq]
        rfl
      simp only [remaining, hl, if_true, hnums, List.length_nil]
      omega
    · by_cases hf : d = father
      · subst hf
        obtain ⟨_, _, _, _, _, heq⟩ := w.inodes_father
        have hlen := List.length_erase_of_mem hdel
        have hpos := List.length_pos_of_mem hdel
        have := h.sonNums d
        rw [heq]
        simp only [remaining, hl, if_false, Function.update_self]
        omega
      · rw [w.inodes_ne d hl hf]
        simpa [remaining, hl, hf] using h.sonNums d
  case root_dir =>
    rw [w.isDirectories hroot]
    exact h.root_dir

end Deleted

end DhmpFs
