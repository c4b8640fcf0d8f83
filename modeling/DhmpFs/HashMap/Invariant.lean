import DhmpFs.HashMap.Basic
import DhmpFs.Library.Assoc

/-!
# The table invariant and the effect of each operation

`HashMap.Valid` says what a table made by `createHashMap` keeps: a size `50 * 2 ^ k`, fewer
entries than cells, every entry in the bucket of its key and keys pairwise distinct. The
effect of `put` and `remove` is stated on the list of all entries, whose order no operation
depends on; a resize permutes it.
-/

namespace DhmpFs

open Library

variable {K V : Type}

namespace HashMap

/-- The shape of a table, under the current content `mem` of the keys. -/
structure Table (mem : K → Str) (m : HashMap K V) : Prop where
  listSize_eq : ∃ k, m.listSize = defaultMapSize * 2 ^ k
  changeSize : m.changeSize = true
  head_none : ∀ i, (m.hashList i).key = none → (m.hashList i).next = []
  index : ∀ i < m.listSize, ∀ e ∈ (m.hashList i).toList, defaultHashCode m (mem e.1) = i
  distinct : Assoc.Distinct mem m.entries
  size_eq : m.size = m.entries.length

/-- What every operation keeps: there are fewer entries than cells, and an `int` counts the
cells. -/
structure Valid (mem : K → Str) (m : HashMap K V) : Prop extends Table mem m where
  size_lt : m.size < m.listSize
  listSize_le : m.listSize ≤ intMax

variable {mem : K → Str} {m : HashMap K V}

theorem Table.listSize_pos (h : m.Table mem) : 0 < m.listSize := by
  obtain ⟨k, hk⟩ := h.listSize_eq
  exact hk ▸ Nat.mul_pos (by decide) (Nat.two_pow_pos k)

theorem hashCode_lt (h : 0 < m.listSize) (key : Str) : defaultHashCode m key < m.listSize :=
  Nat.mod_lt _ h

/-- A table is a bucket and the rest, whatever the bucket holds. -/
theorem entries_split (h : 0 < m.listSize) (key : Str) :
    ∃ rest, m.entries.Perm ((m.bucket key).toList ++ rest) ∧
      (∀ b n, ({ m.setBucket key b with size := n }).entries.Perm (b.toList ++ rest)) ∧
      ∀ e ∈ rest, ∃ i < m.listSize, i ≠ defaultHashCode m key ∧ e ∈ (m.hashList i).toList := by
  have hmem : defaultHashCode m key ∈ List.range m.listSize :=
    List.mem_range.mpr (hashCode_lt h key)
  obtain ⟨l₁, l₂, hl⟩ := List.append_of_mem hmem
  have hnd : (l₁ ++ defaultHashCode m key :: l₂).Nodup := hl ▸ List.nodup_range
  have hne : ∀ i ∈ l₁ ++ l₂, i ≠ defaultHashCode m key := by
    have := List.nodup_middle.mp hnd
    rw [List.nodup_cons] at this
    exact fun i hi he => this.1 (he ▸ hi)
  refine ⟨(l₁ ++ l₂).flatMap fun i => (m.hashList i).toList, ?_, ?_, ?_⟩
  · simp only [entries, hl, List.flatMap_append, List.flatMap_cons, bucket]
    exact List.perm_append_comm_assoc _ _ _
  · intro b n
    have hcongr : ∀ l : List Nat, (∀ i ∈ l, i ≠ defaultHashCode m key) →
        l.flatMap (fun i => (Function.update m.hashList (defaultHashCode m key) b i).toList) =
          l.flatMap fun i => (m.hashList i).toList := by
      intro l hl
      exact List.flatMap_congr fun i hi => by rw [Function.update_of_ne (hl i hi)]
    simp only [entries, setBucket, hl, List.flatMap_append, List.flatMap_cons,
      Function.update_self]
    rw [hcongr l₁ fun i hi => hne i (by simp [hi]), hcongr l₂ fun i hi => hne i (by simp [hi])]
    exact List.perm_append_comm_assoc _ _ _
  · intro e he
    obtain ⟨i, hi, he⟩ := List.mem_flatMap.mp he
    refine ⟨i, ?_, hne i hi, he⟩
    have : i ∈ List.range m.listSize := by rw [hl]; simp at hi ⊢; tauto
    simpa using this

theorem Valid.size_le (h : m.Valid mem) : m.size ≤ intMax :=
  Nat.le_trans (Nat.le_of_lt h.size_lt) h.listSize_le

theorem mem_entries {e : K × Option V} :
    e ∈ m.entries ↔ ∃ i < m.listSize, e ∈ (m.hashList i).toList := by
  simp [entries]

/-- An entry with the probed content can only be in the probed bucket. -/
theorem Table.mem_bucket (h : m.Table mem) {e : K × Option V} (he : e ∈ m.entries) :
    e ∈ (m.bucket (mem e.1)).toList := by
  obtain ⟨i, hi, he⟩ := mem_entries.mp he
  rwa [bucket, h.index i hi e he]

/-- Searching the bucket is searching the table. -/
theorem Table.find_bucket (h : m.Table mem) (key : Str) :
    Assoc.find mem (m.bucket key).toList key = Assoc.find mem m.entries key := by
  obtain ⟨rest, hp, -, hrest⟩ := entries_split h.listSize_pos key
  have hnone : Assoc.find mem rest key = none := by
    refine Assoc.find_eq_none.mpr fun e he hk => ?_
    obtain ⟨i, hi, hne, he⟩ := hrest e he
    exact hne (by rw [← hk, h.index i hi e he])
  rw [Assoc.find_perm h.distinct hp, Assoc.find_append, hnone, Option.or_none]

theorem Table.exists_eq (h : m.Table mem) (key : Str) :
    defaultExists mem m key = (Assoc.find mem m.entries key).isSome := by
  rw [← h.find_bucket, Bool.eq_iff_iff]
  simp [defaultExists, Assoc.find]

/-- `get` is the lookup in the list of all entries. -/
theorem Table.get_eq (h : m.Table mem) (key : Str) :
    m.get mem key = (Assoc.find mem m.entries key).join := by
  have hx := h.exists_eq key
  rw [← h.find_bucket] at hx ⊢
  simp only [get, defaultGet, defaultEqual_eq_decide, Assoc.find] at hx ⊢
  cases hf : List.find? (fun e => decide (mem e.1 = key)) (m.bucket key).toList with
  | none => simp [hx, hf]
  | some e => simp [hx, hf]

theorem Table.get_eq_some (h : m.Table mem) {key : Str} {v : V} :
    m.get mem key = some v ↔ ∃ k, (k, some v) ∈ m.entries ∧ mem k = key := by
  rw [h.get_eq, Option.join_eq_some_iff, Assoc.find_eq_some h.distinct]

/-- The table does not depend on memory outside the keys it stores. -/
theorem Table.congr {mem' : K → Str} (h : m.Table mem)
    (hmem : ∀ e ∈ m.entries, mem' e.1 = mem e.1) : m.Table mem' where
  listSize_eq := h.listSize_eq
  changeSize := h.changeSize
  head_none := h.head_none
  index i hi e he := by
    rw [hmem e (mem_entries.mpr ⟨i, hi, he⟩)]
    exact h.index i hi e he
  distinct := h.distinct.congr hmem
  size_eq := h.size_eq

theorem Valid.congr {mem' : K → Str} (h : m.Valid mem)
    (hmem : ∀ e ∈ m.entries, mem' e.1 = mem e.1) : m.Valid mem' where
  toTable := h.toTable.congr hmem
  size_lt := h.size_lt
  listSize_le := h.listSize_le

@[simp] theorem entries_createHashMap : (createHashMap : HashMap K V).entries = [] := by
  simp [entries, createHashMap, Entry.empty, Entry.toList]

theorem valid_createHashMap (mem : K → Str) : (createHashMap : HashMap K V).Valid mem where
  listSize_eq := ⟨0, rfl⟩
  changeSize := rfl
  head_none _ _ := rfl
  index i _ e he := by simp [createHashMap, Entry.empty, Entry.toList] at he
  distinct := by simp [Assoc.Distinct]
  size_eq := by rw [entries_createHashMap]; rfl
  size_lt := by simp [createHashMap]
  listSize_le := (by decide : defaultMapSize ≤ intMax)

end HashMap

end DhmpFs
