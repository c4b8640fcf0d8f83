import Mathlib.Logic.Function.Basic
import Mathlib.Data.Set.Insert

/-!
# Write-back caches over a replicated store

A direct-mapped cache: every key has one slot, a slot carries the label of the key it holds, and
a dirty slot is newer than the store. The store is kept on several replicas. A slot changes by a
write into it, by a flush to all replicas, and by a refill from one of them.

## Main definitions

* `WriteBack`: the cache and its store.
* `Writes`, `Flushes`, `Refills`: the three steps.
* `Coherent`: what was written last is in the slot, or else in the store.
* `CleanSound`: clean slots are backed by the store.
-/

namespace Library

variable {ι κ ρ α β : Type*}

structure WriteBack (ι κ ρ α β : Type*) where
  label : ι → κ
  data : ι → α → β
  dirty : Set ι
  store : ρ → κ → α → β

namespace WriteBack

/-- Some cells of a slot are written. -/
structure Writes (w w' : WriteBack ι κ ρ α β) (i : ι) (cells : α → Option β) : Prop where
  label : w'.label = w.label
  written : ∀ a, w'.data i a = (cells a).getD (w.data i a)
  frame : ∀ j ≠ i, w'.data j = w.data j
  dirty : w'.dirty = insert i w.dirty
  store : w'.store = w.store

/-- A slot is written to every replica. -/
structure Flushes (w w' : WriteBack ι κ ρ α β) (i : ι) : Prop where
  label : w'.label = w.label
  data : w'.data = w.data
  dirty : w'.dirty = w.dirty \ {i}
  stored : ∀ r, w'.store r (w.label i) = w.data i
  frame : ∀ r, ∀ k ≠ w.label i, w'.store r k = w.store r k

/-- The slot of a key is filled from a replica. -/
structure Refills (slot : κ → ι) (w w' : WriteBack ι κ ρ α β) (k : κ) : Prop where
  label : w'.label (slot k) = k
  data : ∃ r, w'.data (slot k) = w.store r k
  frame : ∀ j ≠ slot k, w'.label j = w.label j ∧ w'.data j = w.data j
  dirty : w'.dirty = w.dirty \ {slot k}
  store : w'.store = w.store

/-- A slot holds a key of its own. -/
def Mapped (slot : κ → ι) (w : WriteBack ι κ ρ α β) : Prop := ∀ i, slot (w.label i) = i

variable {slot : κ → ι} {w w' : WriteBack ι κ ρ α β} {i j : ι} {k : κ}

theorem Mapped.label_ne (h : Mapped slot w) (hne : j ≠ i) : w.label j ≠ w.label i :=
  fun he => hne (by rw [← h j, he, h i])

theorem Mapped.refills (h : Mapped slot w) (hr : Refills slot w w' k) : Mapped slot w' := by
  intro j
  by_cases hj : j = slot k
  · rw [hj, hr.label]
  · rw [(hr.frame j hj).1]
    exact h j

/-! ## What was written last -/

/-- `last` is what was written last to each cell of each key. A slot holds it, and so does every
replica unless the key is in a dirty slot. -/
structure Coherent (slot : κ → ι) (w : WriteBack ι κ ρ α β) (last : κ → α → Option β) : Prop where
  mapped : Mapped slot w
  resident : ∀ i a v, last (w.label i) a = some v → w.data i a = v
  stored : ∀ k a v, last k a = some v → ¬(w.label (slot k) = k ∧ slot k ∈ w.dirty) →
    ∀ r, w.store r k a = v

variable {last last' : κ → α → Option β} {cells : α → Option β}

/-- A write to a key that is in its slot. -/
theorem Coherent.writes (h : Coherent slot w last) (hw : Writes w w' (slot k) cells)
    (hit : w.label (slot k) = k) (hlast : ∀ a, last' k a = (cells a).or (last k a))
    (hframe : ∀ k' ≠ k, last' k' = last k') : Coherent slot w' last' where
  mapped i := by rw [hw.label]; exact h.mapped i
  resident i a v hv := by
    rw [hw.label] at hv
    by_cases hi : i = slot k
    · subst hi
      rw [hit, hlast] at hv
      rw [hw.written]
      have old := h.resident (slot k) a v
      rw [hit] at old
      cases hc : cells a <;> simp_all
    · have hne : w.label i ≠ k := hit ▸ h.mapped.label_ne hi
      rw [hframe _ hne] at hv
      rw [hw.frame i hi]
      exact h.resident i a v hv
  stored k' a v hv hclean r := by
    rw [hw.label, hw.dirty] at hclean
    have hne : k' ≠ k := by
      rintro rfl
      exact hclean ⟨hit, Set.mem_insert _ _⟩
    rw [hframe _ hne] at hv
    rw [hw.store]
    exact h.stored k' a v hv (fun hd => hclean ⟨hd.1, Set.mem_insert_of_mem _ hd.2⟩) r

theorem Coherent.flushes (h : Coherent slot w last) (hf : Flushes w w' i) :
    Coherent slot w' last where
  mapped j := by rw [hf.label]; exact h.mapped j
  resident j a v hv := by
    rw [hf.label] at hv
    rw [hf.data]
    exact h.resident j a v hv
  stored k a v hv hclean r := by
    by_cases hk : k = w.label i
    · subst hk
      rw [hf.stored]
      exact h.resident i a v hv
    · rw [hf.frame r k hk]
      refine h.stored k a v hv (fun hd => hclean ⟨hf.label ▸ hd.1, ?_⟩) r
      have hne : slot k ≠ i := fun he => hk (by rw [← hd.1, he])
      rw [hf.dirty]
      exact ⟨hd.2, hne⟩

/-- A clean slot may be given to another key. -/
theorem Coherent.refills (h : Coherent slot w last) (hr : Refills slot w w' k)
    (hclean : slot k ∉ w.dirty) : Coherent slot w' last where
  mapped := h.mapped.refills hr
  resident i a v hv := by
    by_cases hi : i = slot k
    · subst hi
      rw [hr.label] at hv
      obtain ⟨r, hdata⟩ := hr.data
      rw [hdata]
      exact h.stored k a v hv (fun hd => hclean hd.2) r
    · rw [(hr.frame i hi).1] at hv
      rw [(hr.frame i hi).2]
      exact h.resident i a v hv
  stored k' a v hv hd r := by
    rw [hr.store]
    refine h.stored k' a v hv (fun hd' => hd ?_) r
    have hne : slot k' ≠ slot k := fun he => hclean (he ▸ hd'.2)
    rw [(hr.frame _ hne).1, hr.dirty]
    exact ⟨hd'.1, hd'.2, hne⟩

/-! ## Clean slots -/

/-- A clean slot that was flushed or refilled holds what some replica holds of its key; for a
key of `agreed`, what all of them hold. -/
structure CleanSound (slot : κ → ι) (w : WriteBack ι κ ρ α β) (touched : Set ι)
    (agreed : Set κ) : Prop where
  mapped : Mapped slot w
  agree : ∀ k ∈ agreed, ∀ r r', w.store r k = w.store r' k
  clean : ∀ i ∈ touched, i ∉ w.dirty → ∃ r, w.data i = w.store r (w.label i)

variable {touched : Set ι} {agreed : Set κ}

/-- Where the replicas agree on its key, a clean slot holds what each of them holds. -/
theorem CleanSound.all (h : CleanSound slot w touched agreed) (hi : i ∈ touched)
    (hclean : i ∉ w.dirty) (hk : w.label i ∈ agreed) (r : ρ) :
    w.data i = w.store r (w.label i) := by
  obtain ⟨r', hr'⟩ := h.clean i hi hclean
  exact hr'.trans (h.agree _ hk r' r)

theorem CleanSound.writes (h : CleanSound slot w touched agreed) (hw : Writes w w' i cells) :
    CleanSound slot w' touched agreed where
  mapped j := by rw [hw.label]; exact h.mapped j
  agree k hk r r' := by rw [hw.store]; exact h.agree k hk r r'
  clean j hj hclean := by
    rw [hw.dirty] at hclean
    have hne : j ≠ i := fun he => hclean (he ▸ Set.mem_insert _ _)
    rw [hw.label, hw.store, hw.frame j hne]
    exact h.clean j hj fun hd => hclean (Set.mem_insert_of_mem _ hd)

theorem CleanSound.flushes [Nonempty ρ] (h : CleanSound slot w touched agreed)
    (hf : Flushes w w' i) : CleanSound slot w' (insert i touched) (insert (w.label i) agreed) where
  mapped j := by rw [hf.label]; exact h.mapped j
  agree k hk r r' := by
    by_cases he : k = w.label i
    · rw [he, hf.stored, hf.stored]
    · rw [hf.frame r k he, hf.frame r' k he]
      exact h.agree k (hk.resolve_left he) r r'
  clean j hj hclean := by
    rw [hf.dirty] at hclean
    rw [hf.label, hf.data]
    by_cases hne : j = i
    · subst hne
      exact (‹Nonempty ρ›).elim fun r => ⟨r, (hf.stored r).symm⟩
    · obtain ⟨r, hr⟩ := h.clean j (hj.resolve_left hne) fun hd => hclean ⟨hd, hne⟩
      exact ⟨r, hr.trans (hf.frame r _ (h.mapped.label_ne hne)).symm⟩

theorem CleanSound.refills (h : CleanSound slot w touched agreed) (hr : Refills slot w w' k) :
    CleanSound slot w' (insert (slot k) touched) agreed where
  mapped := h.mapped.refills hr
  agree k' hk r r' := by rw [hr.store]; exact h.agree k' hk r r'
  clean j hj hclean := by
    rw [hr.dirty] at hclean
    rw [hr.store]
    by_cases hne : j = slot k
    · obtain ⟨r, hdata⟩ := hr.data
      exact ⟨r, by rw [hne, hr.label, hdata]⟩
    · rw [(hr.frame j hne).1, (hr.frame j hne).2]
      exact h.clean j (hj.resolve_left hne) fun hd => hclean ⟨hd, hne⟩

end WriteBack

end Library
