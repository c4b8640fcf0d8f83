import Mathlib.Data.Set.Insert

/-!
# Replicated memories

A family of replicas, each with a value for every key; some of them are up. What counts is
agreement: the replicas that are up hold the same value for every key of interest. A write goes
to all replicas that are up and those that miss it go down; a replica comes back with values
from elsewhere.

## Main definitions

* `Replicas`: which replicas are up, and what each of them holds.
* `Replicas.AgreeOn`: agreement on a set of keys.
* `Replicas.Shrinks`, `Replicas.Broadcasts`, `Replicas.Admits`: the three kinds of change.
-/

namespace Library

variable {ι κ β : Type*}

structure Replicas (ι κ β : Type*) where
  up : Set ι
  val : ι → κ → β

namespace Replicas

/-- The replicas that are up hold the same value for each key of `keys`. -/
def AgreeOn (r : Replicas ι κ β) (keys : Set κ) : Prop :=
  ∀ i ∈ r.up, ∀ j ∈ r.up, ∀ k ∈ keys, r.val i k = r.val j k

/-- Replicas go down and nothing is written. -/
structure Shrinks (r r' : Replicas ι κ β) : Prop where
  up : r'.up ⊆ r.up
  val : ∀ i ∈ r'.up, r'.val i = r.val i

/-- `v` is written at `keys` to every replica; those that miss the write go down. -/
structure Broadcasts (r r' : Replicas ι κ β) (keys : Set κ) (v : κ → β) : Prop where
  up : r'.up ⊆ r.up
  written : ∀ i ∈ r'.up, ∀ k ∈ keys, r'.val i k = v k
  frame : ∀ i ∈ r'.up, ∀ k ∉ keys, r'.val i k = r.val i k

/-- The replica `i` comes up. -/
structure Admits (r r' : Replicas ι κ β) (i : ι) : Prop where
  up : r'.up = insert i r.up
  val : ∀ j ∈ r.up, r'.val j = r.val j

variable {r r' : Replicas ι κ β} {keys keys' : Set κ} {v : κ → β} {i j : ι}

theorem AgreeOn.shrinks (ha : r.AgreeOn keys) (h : Shrinks r r') : r'.AgreeOn keys := by
  intro i hi j hj k hk
  rw [h.val i hi, h.val j hj]
  exact ha i (h.up hi) j (h.up hj) k hk

/-- After a broadcast the replicas also agree on the keys that were written. -/
theorem AgreeOn.broadcasts (ha : r.AgreeOn keys) (h : Broadcasts r r' keys' v) :
    r'.AgreeOn (keys ∪ keys') := by
  intro i hi j hj k hk
  by_cases hk' : k ∈ keys'
  · rw [h.written i hi k hk', h.written j hj k hk']
  · rw [h.frame i hi k hk', h.frame j hj k hk']
    exact ha i (h.up hi) j (h.up hj) k (hk.resolve_right hk')

/-- A replica that comes up beside one that is up keeps the agreement exactly when it holds the
same values. -/
theorem Admits.agreeOn_iff (h : Admits r r' i) (ha : r.AgreeOn keys) (hj : j ∈ r.up) :
    r'.AgreeOn keys ↔ ∀ k ∈ keys, r'.val i k = r.val j k := by
  have hup : ∀ n, n ∈ r'.up ↔ n = i ∨ n ∈ r.up := by simp [h.up]
  constructor
  · intro ha' k hk
    rw [← h.val j hj]
    exact ha' i ((hup i).mpr (.inl rfl)) j ((hup j).mpr (.inr hj)) k hk
  · intro hi
    have key : ∀ n ∈ r'.up, ∀ k ∈ keys, r'.val n k = r.val j k := by
      intro n hn k hk
      rcases (hup n).mp hn with rfl | hn
      · exact hi k hk
      · rw [h.val n hn]
        exact ha n hn j hj k hk
    intro n hn m hm k hk
    exact (key n hn k hk).trans (key m hm k hk).symm

end Replicas

end Library
