import Mathlib.Data.List.Perm.Basic
import Mathlib.Data.List.Nodup
import Mathlib.Tactic.Common

/-!
# Association lists keyed through a content function

The keys of an entry are handles; two handles are equal keys when they have the same content
under `f`. A list whose contents are pairwise distinct is a finite map from contents to
values, independently of its order.

## Main definitions

* `Assoc.find` — the value of the first entry with a given content.
* `Assoc.Stored`, `Assoc.Removed` — the effect of storing under and of removing a content.
-/

namespace Library.Assoc

variable {K S W : Type*} [DecidableEq S] (f : K → S)

/-- The value of the first entry whose key has content `s`. -/
def find (l : List (K × W)) (s : S) : Option W :=
  (l.find? fun e => f e.1 = s).map (·.2)

/-- The contents of the keys are pairwise distinct. -/
def Distinct (l : List (K × W)) : Prop := (l.map fun e => f e.1).Nodup

variable {f} {l l' : List (K × W)} {s : S} {w : W} {k : K}

@[simp] theorem find_nil : find f ([] : List (K × W)) s = none := rfl

theorem find_cons (e : K × W) :
    find f (e :: l) s = if f e.1 = s then some e.2 else find f l s := by
  unfold find
  by_cases h : f e.1 = s <;> simp [h]

theorem find_eq_none : find f l s = none ↔ ∀ e ∈ l, f e.1 ≠ s := by
  simp [find]

theorem find_append : find f (l ++ l') s = (find f l s).or (find f l' s) := by
  induction l with
  | nil => simp
  | cons e l ih => simp only [List.cons_append, find_cons, ih]; split <;> simp

theorem mem_of_find (h : find f l s = some w) : ∃ k, (k, w) ∈ l ∧ f k = s := by
  simp only [find, Option.map_eq_some_iff] at h
  obtain ⟨⟨k, v⟩, hf, rfl⟩ := h
  exact ⟨k, List.mem_of_find?_eq_some hf, by simpa using List.find?_some hf⟩

theorem find_of_mem (hd : Distinct f l) (h : (k, w) ∈ l) : find f l (f k) = some w := by
  induction l with
  | nil => simp at h
  | cons e l ih =>
    rw [Distinct, List.map_cons, List.nodup_cons] at hd
    rcases List.mem_cons.mp h with rfl | h
    · simp [find_cons]
    · have hne : f e.1 ≠ f k := fun he =>
        hd.1 (he ▸ List.mem_map_of_mem (f := fun e : K × W => f e.1) h)
      rw [find_cons, if_neg hne, ih hd.2 h]

theorem find_eq_some (hd : Distinct f l) :
    find f l s = some w ↔ ∃ k, (k, w) ∈ l ∧ f k = s :=
  ⟨mem_of_find, fun ⟨_, h, hs⟩ => hs ▸ find_of_mem hd h⟩

omit [DecidableEq S] in
theorem Distinct.perm (hd : Distinct f l) (hp : l.Perm l') : Distinct f l' :=
  (hp.map _).nodup_iff.mp hd

theorem find_perm (hd : Distinct f l) (hp : l.Perm l') : find f l s = find f l' s := by
  cases h : find f l s with
  | none =>
    exact (find_eq_none.mpr fun e he => find_eq_none.mp h e (hp.mem_iff.mpr he)).symm
  | some w =>
    obtain ⟨k, hk, hs⟩ := mem_of_find h
    exact ((find_eq_some (hd.perm hp)).mpr ⟨k, hp.mem_iff.mp hk, hs⟩).symm

omit [DecidableEq S] in
/-- A list that reads the same contents is distinct in both readings. -/
theorem Distinct.congr {g : K → S} (hd : Distinct f l) (hg : ∀ e ∈ l, g e.1 = f e.1) :
    Distinct g l := by
  rwa [Distinct, List.map_congr_left hg]

theorem find_congr {g : K → S} (hg : ∀ e ∈ l, g e.1 = f e.1) : find g l s = find f l s := by
  induction l with
  | nil => rfl
  | cons e l ih =>
    rw [find_cons, find_cons, hg e (by simp), ih fun e he => hg e (by simp [he])]

variable (f) in
/-- `l'` is `l` after storing `w` under the handle `k`: an entry with an equal key keeps its
handle and takes the new value, else a new entry appears. -/
inductive Stored (l : List (K × W)) (k : K) (w : W) (l' : List (K × W)) : Prop where
  | new (hk : ∀ e ∈ l, f e.1 ≠ f k) (hp : l'.Perm ((k, w) :: l))
  | old {k' : K} {w' : W} {rest : List (K × W)} (hl : l.Perm ((k', w') :: rest))
      (hk : f k' = f k) (hp : l'.Perm ((k', w) :: rest))

variable (f) in
/-- `l'` is `l` after removing the entry with content `s`, if there is one. -/
inductive Removed (l : List (K × W)) (s : S) (l' : List (K × W)) : Prop where
  | absent (hs : ∀ e ∈ l, f e.1 ≠ s) (hp : l'.Perm l)
  | present {k : K} {w : W} (hl : l.Perm ((k, w) :: l')) (hs : f k = s)

omit [DecidableEq S] in
theorem Stored.distinct (h : Stored f l k w l') (hd : Distinct f l) : Distinct f l' := by
  cases h with
  | new hk hp =>
    refine Distinct.perm (l := (k, w) :: l) ?_ hp.symm
    refine List.nodup_cons.mpr ⟨fun hm => ?_, hd⟩
    obtain ⟨e, he, hf⟩ := List.mem_map.mp hm
    exact hk e he hf
  | old hl hk hp =>
    have := hd.perm hl
    exact Distinct.perm (by simpa [Distinct] using this) hp.symm

theorem Stored.find (h : Stored f l k w l') (hd : Distinct f l) (s : S) :
    find f l' s = if f k = s then some w else Assoc.find f l s := by
  have hd' := h.distinct hd
  cases h with
  | new hk hp => rw [find_perm hd' hp, find_cons]
  | old hl hk hp =>
    rw [find_perm hd' hp, find_perm hd hl, find_cons, find_cons, hk]
    split <;> rfl

omit [DecidableEq S] in
/-- Every handle of the new list is an old one or the one just stored. -/
theorem Stored.mem (h : Stored f l k w l') {e : K × W} (he : e ∈ l') :
    e ∈ l ∨ (e.2 = w ∧ f e.1 = f k ∧ (e.1 = k ∨ ∃ v, (e.1, v) ∈ l)) := by
  cases h with
  | new _ hp =>
    rcases List.mem_cons.mp (hp.mem_iff.mp he) with rfl | he
    · exact .inr ⟨rfl, rfl, .inl rfl⟩
    · exact .inl he
  | @old k' w' _ hl hk hp =>
    rcases List.mem_cons.mp (hp.mem_iff.mp he) with rfl | he
    · exact .inr ⟨rfl, hk, .inr ⟨w', hl.mem_iff.mpr (by simp)⟩⟩
    · exact .inl (hl.mem_iff.mpr (by simp [he]))

omit [DecidableEq S] in
theorem Removed.distinct (h : Removed f l s l') (hd : Distinct f l) : Distinct f l' := by
  cases h with
  | absent _ hp => exact hd.perm hp.symm
  | present hl _ => exact (List.nodup_cons.mp (hd.perm hl)).2

theorem Removed.find (h : Removed f l s l') (hd : Distinct f l) (t : S) :
    find f l' t = if s = t then none else Assoc.find f l t := by
  cases h with
  | absent hs hp =>
    rw [find_perm (hd.perm hp.symm) hp]
    split_ifs with ht
    · exact find_eq_none.mpr (ht ▸ hs)
    · rfl
  | present hl hs =>
    have hd' := List.nodup_cons.mp (hd.perm hl)
    rw [find_perm hd hl, find_cons]
    subst hs
    split_ifs with ht
    · refine find_eq_none.mpr fun e he hf => hd'.1 ?_
      exact List.mem_map.mpr ⟨e, he, hf.trans ht.symm⟩
    · rfl

omit [DecidableEq S] in
theorem Removed.subset (h : Removed f l s l') {e : K × W} (he : e ∈ l') : e ∈ l := by
  cases h with
  | absent _ hp => exact hp.mem_iff.mp he
  | present hl _ => exact hl.mem_iff.mpr (by simp [he])

/-- What was removed is gone. -/
theorem Removed.ne (h : Removed f l s l') (hd : Distinct f l) {e : K × W} (he : e ∈ l') :
    f e.1 ≠ s := by
  have := h.find hd s
  rw [if_pos rfl, find_eq_none] at this
  exact this e he

end Library.Assoc
