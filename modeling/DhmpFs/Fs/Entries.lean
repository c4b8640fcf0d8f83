import DhmpFs.Fs.Reachable

/-!
# The hash maps of directories

Unless a rename hits the name of another son, the hash map of a directory holds every son under
its own name and nothing else.

## Main definitions

* `sonEntries`: the entries of a hash map for some sons.
* `Exact`: every directory keeps exactly its sons in its hash map.
-/

namespace DhmpFs

open Library

/-- The entries of a hash map for some sons. -/
def sonEntries (sons : List InodeId) : List (InodeId × Option InodeId) :=
  sons.map fun i => (i, some i)

/-- The hash map of every directory holds its sons. -/
def Exact (s : Fs) (kids : InodeId → List InodeId) : Prop :=
  ∀ d m, (s.inodes d).dHash = some m → m.entries.Perm (sonEntries (kids d))

/-! ## One hash map -/

section hash

variable {names names' : InodeId → Str} {sons : List InodeId} {m m' : HashMap InodeId InodeId}
  {i : InodeId} {key : Str}

theorem mem_sonEntries {e : InodeId × Option InodeId} :
    e ∈ sonEntries sons ↔ e.1 ∈ sons ∧ e.2 = some e.1 := by
  obtain ⟨j, v⟩ := e
  simp only [sonEntries, List.mem_map, Prod.mk.injEq]
  grind

theorem get_eq_some_iff (hv : m.Valid names) (hp : m.entries.Perm (sonEntries sons)) :
    m.get names key = some i ↔ i ∈ sons ∧ names i = key := by
  rw [hv.get_eq_some]
  constructor
  · rintro ⟨k, he, hk⟩
    have he := mem_sonEntries.mp (hp.mem_iff.mp he)
    obtain rfl : i = k := Option.some.inj he.2
    exact ⟨he.1, hk⟩
  · rintro ⟨hi, hk⟩
    exact ⟨i, hp.mem_iff.mpr (mem_sonEntries.mpr ⟨hi, rfl⟩), hk⟩

theorem names_nodup (hv : m.Valid names) (hp : m.entries.Perm (sonEntries sons)) :
    (sons.map names).Nodup := by
  have hd := hv.distinct.perm hp
  unfold Assoc.Distinct at hd
  rwa [sonEntries, List.map_map] at hd

/-- Storing a son under a name no other son has. -/
theorem put_sonEntries (hv : m.Valid names) (hp : m.entries.Perm (sonEntries sons))
    (hnew : ∀ j ∈ sons, names j ≠ names i) (hput : m.put names i (some i) = some m') :
    m'.entries.Perm (sonEntries (i :: sons)) := by
  obtain ⟨-, hs⟩ := HashMap.put_some hv hput
  cases hs with
  | new _ hp' => exact hp'.trans (hp.cons _)
  | old hl hk _ =>
    have he := mem_sonEntries.mp (hp.mem_iff.mp (hl.mem_iff.mpr List.mem_cons_self))
    exact absurd hk (hnew _ he.1)

/-- Removing the name of a son. -/
theorem removed_sonEntries (hv : m.Valid names) (hp : m.entries.Perm (sonEntries sons))
    (hi : i ∈ sons) (hr : Assoc.Removed names m.entries (names i) m'.entries) :
    m'.entries.Perm (sonEntries (sons.erase i)) := by
  cases hr with
  | absent hs _ =>
    exact absurd rfl (hs (i, some i) (hp.mem_iff.mpr (mem_sonEntries.mpr ⟨hi, rfl⟩)))
  | @present k w hl hk =>
    have he := mem_sonEntries.mp (hp.mem_iff.mp (hl.mem_iff.mpr List.mem_cons_self))
    obtain rfl : k = i := List.inj_on_of_nodup_map (names_nodup hv hp) he.1 hi hk
    obtain rfl : w = some k := he.2
    have hsplit : (sonEntries sons).Perm ((k, some k) :: sonEntries (sons.erase k)) :=
      (List.perm_cons_erase hi).map _
    exact ((hl.symm.trans hp).trans hsplit).cons_inv

end hash

/-! ## All of them -/

section exact

variable {s s' : Fs} {kids : InodeId → List InodeId} {father i : InodeId} {filename : Str}
  {d d' : HashMap InodeId InodeId}

theorem exact_dhmpInit (bank : Nat → Nat → UInt8) : Exact (dhmpInit bank) fun _ => [] := by
  intro d m hm
  by_cases hd : d = rootId
  · simp only [dhmpInit, hd, if_true, Option.some.injEq] at hm
    simp [← hm, sonEntries]
  · simp [dhmpInit, hd, Inode.fresh] at hm

/-- Brothers have distinct names. -/
theorem Exact.names_nodup (hx : Exact s kids) (h : Tree s kids) (father : InodeId) :
    ((kids father).map s.names).Nodup := by
  cases hd : (s.inodes father).dHash with
  | none =>
    have hk : kids father = [] := by
      by_contra hne
      exact (h.dHash_iff father).mpr (h.kids_dir father hne) hd
    simp [hk]
  | some d => exact DhmpFs.names_nodup (h.hash father d hd).valid (hx father d hd)

/-- What a directory finds under a name is the son of that name. -/
theorem Exact.get_eq_some (hx : Exact s kids) (h : Tree s kids)
    (hd : (s.inodes father).dHash = some d) :
    d.get s.names filename = some i ↔ i ∈ kids father ∧ s.names i = filename :=
  get_eq_some_iff (h.hash father d hd).valid (hx father d hd)

theorem exact_created (hx : Exact s kids) (h : Tree s kids) {s1 : Fs} {now : InodeId}
    {isDir : Bool} (hp : Picked s s1 now) (hd : (s.inodes father).dHash = some d)
    (free : d.get s.names filename = none)
    (hput : d.put (Function.update s.names now filename) now (some now) = some d') :
    Exact (created s1 father now isDir filename d')
      (Function.update kids father (now :: kids father)) := by
  have hdir : (s.inodes father).isDirectories = true := (h.dHash_iff father).mp (by simp [hd])
  have hne := hp.father_ne h hdir
  have hold : ∀ j ∈ kids father, Function.update s.names now filename j = s.names j := by
    intro j hj
    refine Function.update_of_ne ?_ _ _
    rintro rfl
    exact h.spare_kids hp.spare father hj
  have hv' := ((h.hash father d hd).congr hold).valid
  have hnew : ∀ j ∈ kids father,
      Function.update s.names now filename j ≠ Function.update s.names now filename now := by
    intro j hj heq
    rw [hold j hj, Function.update_self] at heq
    simp [(hx.get_eq_some h hd).mpr ⟨hj, heq⟩] at free
  intro e m hem
  by_cases hf : e = father
  · subst hf
    rw [created_father filename d' hp isDir hne] at hem
    obtain rfl : d' = m := Option.some.inj hem
    rw [Function.update_self]
    exact put_sonEntries hv' (hx e d hd) hnew hput
  · rw [Function.update_of_ne hf]
    by_cases hi : e = now
    · subst hi
      rw [created_now filename d' hp isDir hne] at hem
      cases isDir with
      | true =>
        obtain rfl := Option.some.inj hem
        simp [h.kids_spare hp.spare, sonEntries]
      | false => simp at hem
    · rw [created_other filename d' hp isDir hi hf] at hem
      exact hx e m hem

theorem exact_deleted (hx : Exact s kids) (h : Tree s kids) {toDel : InodeId}
    {l : List InodeId} (hdel : toDel ∈ kids father) (hname : s.names toDel = filename)
    (w : Deleted s kids father toDel filename l s') :
    Exact s' (remaining kids father toDel l) := by
  intro d m hdm
  have hl : d ∉ l := by
    intro hl
    simp [(w.wiped h hl).2] at hdm
  rw [remaining, if_neg hl]
  by_cases hf : d = father
  · subst hf
    obtain ⟨m₀, d', hm₀, -, hr, heq⟩ := w.inodes_father
    rw [heq] at hdm
    obtain rfl : d' = m := Option.some.inj hdm
    rw [Function.update_self]
    exact removed_sonEntries (h.hash d m₀ hm₀).valid (hx d m₀ hm₀) hdel (hname ▸ hr)
  · rw [w.inodes_ne d hl hf] at hdm
    rw [Function.update_of_ne hf]
    exact hx d m hdm

theorem exact_renamed (hx : Exact s kids) (h : Tree s kids) {head : InodeId} {toname : Str}
    {d₁ d₂ : HashMap InodeId InodeId} (hd : (s.inodes father).dHash = some d)
    (hg : d.get s.names filename = some head) (hv₁ : d₁.Valid s.names)
    (hr : Assoc.Removed s.names d.entries filename d₁.entries)
    (hput : d₁.put (Function.update s.names head toname) head (some head) = some d₂)
    (hfree : toname = filename ∨ d.get s.names toname = none) :
    Exact (renamed s father head toname d₂) kids := by
  have hn := h.hash father d hd
  have hperm := hx father d hd
  obtain ⟨hhead, hname⟩ := hn.get hg
  subst hname
  have hne : father ≠ head := (h.forest.son_ne hhead).symm
  have hperm₁ := removed_sonEntries hn.valid hperm hhead hr
  have hold : ∀ j ∈ (kids father).erase head,
      Function.update s.names head toname j = s.names j ∧ s.names j ≠ s.names head := by
    intro j hj
    have hjh : j ≠ head := by
      rintro rfl
      exact (h.forest.nodup father).not_mem_erase hj
    refine ⟨Function.update_of_ne hjh _ _, fun heq => hjh ?_⟩
    exact List.inj_on_of_nodup_map (hx.names_nodup h father) (List.mem_of_mem_erase hj) hhead heq
  have hv' : d₁.Valid (Function.update s.names head toname) := by
    refine hv₁.congr fun e he => (hold _ ?_).1
    exact (mem_sonEntries.mp (hperm₁.mem_iff.mp he)).1
  have hnew : ∀ j ∈ (kids father).erase head, Function.update s.names head toname j ≠
      Function.update s.names head toname head := by
    intro j hj heq
    rw [(hold j hj).1, Function.update_self] at heq
    rcases hfree with hsame | hnone
    · exact (hold j hj).2 (heq.trans hsame)
    · simp [(hx.get_eq_some h hd).mpr ⟨List.mem_of_mem_erase hj, heq⟩] at hnone
  intro e m hem
  rw [renamed_inodes hne] at hem
  by_cases hf : e = father
  · subst hf
    simp only [if_true, Option.some.injEq] at hem
    subst hem
    have hentries := put_sonEntries hv' hperm₁ hnew hput
    exact hentries.trans ((List.perm_cons_erase hhead).symm.map _)
  · simp only [hf, if_false] at hem
    exact hx e m hem

end exact

end DhmpFs
