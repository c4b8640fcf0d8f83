import DhmpFs.HashMap.Invariant
import Mathlib.Tactic.Ring
import Mathlib.Tactic.NormNum

/-!
# `put`, `remove` and the resizes they trigger

One inversion lemma says what `put` does to the list of entries before it thinks about
growing; the resize is then a fold of such insertions, none of which grows the table again.
-/

namespace DhmpFs.HashMap

open Library

variable {K V : Type} {mem : K → Str} {m m' : HashMap K V}

/-- Replacing a bucket by one with the same residents keeps the shape of the table. -/
theorem Table.setBucket (h : m.Table mem) (key : Str) (b : Entry K V) (n : Nat)
    (hb : b.key = none → b.next = [])
    (hidx : ∀ e ∈ b.toList, defaultHashCode m (mem e.1) = defaultHashCode m key)
    (hd : Assoc.Distinct mem ({ m.setBucket key b with size := n }).entries)
    (hn : n = ({ m.setBucket key b with size := n }).entries.length) :
    ({ m.setBucket key b with size := n }).Table mem where
  listSize_eq := h.listSize_eq
  changeSize := h.changeSize
  head_none i := by
    by_cases hi : i = defaultHashCode m key
    · subst hi; simpa [HashMap.setBucket] using hb
    · simpa [HashMap.setBucket, hi] using h.head_none i
  index i hi e he := by
    by_cases hk : i = defaultHashCode m key
    · subst hk
      exact hidx e (by simpa [HashMap.setBucket] using he)
    · exact h.index i hi e (by simpa [HashMap.setBucket, hk] using he)
  distinct := hd
  size_eq := hn

theorem overwrite_perm {key : Str} (value : Option V) {l : List (K × Option V)}
    (hx : ∃ e ∈ l, key = mem e.1) :
    ∃ k old rest, l.Perm ((k, old) :: rest) ∧ mem k = key ∧
      (overwrite mem key value l).Perm ((k, value) :: rest) := by
  induction l with
  | nil => simp at hx
  | cons e l ih =>
    by_cases he : key = mem e.1
    · exact ⟨e.1, e.2, l, .refl _, he.symm, by simp [overwrite, he]⟩
    · obtain ⟨k, old, rest, hp, hk, hp'⟩ := ih (by simpa [he] using hx)
      refine ⟨k, old, e :: rest, (hp.cons e).trans (.swap _ _ _), hk, ?_⟩
      rw [overwrite, if_neg (by simpa using he)]
      exact (hp'.cons e).trans (.swap _ _ _)

theorem unlink_perm {key : Str} {l : List (K × Option V)} (hx : ∃ e ∈ l, mem e.1 = key) :
    ∃ k old, l.Perm ((k, old) :: unlink mem key l) ∧ mem k = key := by
  induction l with
  | nil => simp at hx
  | cons e l ih =>
    by_cases he : mem e.1 = key
    · exact ⟨e.1, e.2, by simp [unlink, he], he⟩
    · obtain ⟨k, old, hp, hk⟩ := ih (by simpa [he] using hx)
      refine ⟨k, old, ?_, hk⟩
      rw [unlink, if_neg (by simpa using he)]
      exact (hp.cons e).trans (.swap _ _ _)

/-- The bucket of a key holds entries of that bucket only. -/
theorem Table.bucket_index (h : m.Table mem) {key : Str} {e : K × Option V}
    (he : e ∈ (m.bucket key).toList) : defaultHashCode m (mem e.1) = defaultHashCode m key :=
  h.index _ (hashCode_lt h.listSize_pos key) e he

/-- A new entry goes into its bucket; the table may now be full. -/
theorem Table.insert (h : m.Table mem) (key : K) (value : Option V) (b : Entry K V)
    (hb : b.key ≠ none) (hp : b.toList.Perm ((key, value) :: (m.bucket (mem key)).toList))
    (hnew : ∀ e ∈ m.entries, mem e.1 ≠ mem key) :
    ({ m.setBucket (mem key) b with size := m.size + 1 }).Table mem ∧
      ({ m.setBucket (mem key) b with size := m.size + 1 }).entries.Perm
        ((key, value) :: m.entries) := by
  obtain ⟨rest, hm, hset, -⟩ := entries_split h.listSize_pos (mem key)
  have hperm := (hset b (m.size + 1)).trans
    ((hp.append_right rest).trans (hm.symm.cons (key, value)))
  refine ⟨h.setBucket _ _ _ (fun hn => absurd hn hb) (fun e he => ?_)
    ((Assoc.Stored.new hnew hperm).distinct h.distinct) ?_, hperm⟩
  · rcases List.mem_cons.mp (hp.mem_iff.mp he) with rfl | he
    · rfl
    · exact h.bucket_index he
  · rw [hperm.length_eq, List.length_cons, ← h.size_eq]

/-- An entry of the bucket gets another value and keeps its key pointer. -/
theorem Table.replace (h : m.Table mem) (key : Str) (value : Option V) (b : Entry K V)
    {k : K} {old : Option V} {others : List (K × Option V)} (hb : b.key ≠ none)
    (hold : (m.bucket key).toList.Perm ((k, old) :: others)) (hk : mem k = key)
    (hp : b.toList.Perm ((k, value) :: others)) :
    (m.setBucket key b).Table mem ∧ ∃ rest, m.entries.Perm ((k, old) :: rest) ∧
      (m.setBucket key b).entries.Perm ((k, value) :: rest) := by
  obtain ⟨rest, hm, hset, -⟩ := entries_split h.listSize_pos key
  have hperm := (hset b m.size).trans (hp.append_right rest)
  have hm' := hm.trans (hold.append_right rest)
  have hd : Assoc.Distinct mem ({ m.setBucket key b with size := m.size }).entries :=
    (Assoc.Stored.old hm' (rfl : mem k = mem k) hperm).distinct h.distinct
  refine ⟨h.setBucket key b m.size (fun hn => absurd hn hb) (fun e he => ?_) hd ?_,
    others ++ rest, hm', hperm⟩
  · rcases List.mem_cons.mp (hp.mem_iff.mp he) with rfl | he
    · exact congrArg (defaultHashCode m) hk
    · exact h.bucket_index (hold.mem_iff.mpr (by simp [he]))
  · rw [hperm.length_eq, h.size_eq, hm'.length_eq]
    simp

/-- What `put` does before it thinks about growing: a new entry, or another value for an old
one. -/
theorem putEntry_cases (h : m.Table mem) (key : K) (value : Option V) :
    (∃ m₁, putEntry mem m key value = (m₁, true) ∧ m₁.Table mem ∧ m₁.listSize = m.listSize ∧
      m₁.size = m.size + 1 ∧ (∀ e ∈ m.entries, mem e.1 ≠ mem key) ∧
      m₁.entries.Perm ((key, value) :: m.entries)) ∨
    (∃ m₁ k old rest, putEntry mem m key value = (m₁, false) ∧ m₁.Table mem ∧
      m₁.listSize = m.listSize ∧ m₁.size = m.size ∧ m.entries.Perm ((k, old) :: rest) ∧
      mem k = mem key ∧ m₁.entries.Perm ((k, value) :: rest)) := by
  have hnew : (∀ e ∈ (m.bucket (mem key)).toList, mem e.1 ≠ mem key) →
      ∀ e ∈ m.entries, mem e.1 ≠ mem key := by
    intro hb e he hk
    exact hb e (hk ▸ h.mem_bucket he) hk
  cases hb : (m.bucket (mem key)).key with
  | none =>
    have hnext := h.head_none _ hb
    have hl : (m.bucket (mem key)).toList = [] := by simp [Entry.toList, hb]
    obtain ⟨ht, hp⟩ := h.insert key value
      ({ m.bucket (mem key) with key := some key, value := value }) (by simp)
      (by rw [hl]; simp only [Entry.toList]; rw [show (m.bucket (mem key)).next = [] from hnext])
      (hnew (by simp [hl]))
    exact .inl ⟨_, by simp [putEntry, hb], ht, rfl, rfl, hnew (by simp [hl]), hp⟩
  | some head =>
    have hl : (m.bucket (mem key)).toList =
        (head, (m.bucket (mem key)).value) :: (m.bucket (mem key)).next := by
      simp [Entry.toList, hb]
    by_cases hhead : mem key = mem head
    · -- the inline entry has the key
      obtain ⟨ht, rest, hm, hp⟩ := h.replace (mem key) value
        ({ m.bucket (mem key) with value := value }) (by simp [hb])
        (List.Perm.of_eq hl) hhead.symm (by simp [Entry.toList, hb])
      refine .inr ⟨_, head, _, rest, ?_, ht, rfl, rfl, hm, hhead.symm, hp⟩
      simp only [putEntry, hb]
      rw [if_pos (by simpa using hhead)]
    by_cases hchain : ∃ e ∈ (m.bucket (mem key)).next, mem key = mem e.1
    · -- a chained entry has the key
      obtain ⟨k, old, others, hold, hk, hover⟩ := overwrite_perm value hchain
      obtain ⟨ht, rest, hm, hp⟩ := h.replace (mem key) value
        ({ m.bucket (mem key) with
          next := overwrite mem (mem key) value (m.bucket (mem key)).next }) (by simp [hb])
        ((List.Perm.of_eq hl).trans ((hold.cons _).trans (.swap _ _ _))) hk
        (by simpa [Entry.toList, hb] using (hover.cons _).trans (.swap _ _ _))
      exact .inr ⟨_, k, old, rest, by simp [putEntry, hb, hhead, hchain], ht, rfl, rfl, hm, hk, hp⟩
    · -- the key is new and is chained right after the inline entry
      have habs : ∀ e ∈ (m.bucket (mem key)).toList, mem e.1 ≠ mem key := by
        intro e he hk
        rw [hl] at he
        rcases List.mem_cons.mp he with rfl | he
        · exact hhead hk.symm
        · exact hchain ⟨e, he, hk.symm⟩
      obtain ⟨ht, hp⟩ := h.insert key value
        ({ m.bucket (mem key) with next := (key, value) :: (m.bucket (mem key)).next })
        (by simp [hb]) (by simpa [Entry.toList, hb] using .swap _ _ _) (hnew habs)
      exact .inl ⟨_, by simp [putEntry, hb, hhead, hchain], ht, rfl, rfl, hnew habs, hp⟩

/-! ## Resizing -/

/-- `put` is about to double the table. -/
def Grows (m : HashMap K V) : Prop := m.listSize ≤ m.size ∧ m.changeSize

/-- Entries put back one after the other: each is new to the table, and none is followed by a
resize. -/
inductive Reput (mem : K → Str) : HashMap K V → List (K × Option V) → HashMap K V → Prop where
  | nil (m : HashMap K V) : Reput mem m [] m
  | cons {m m₁ m' : HashMap K V} {e : K × Option V} {l : List (K × Option V)}
      (hput : putEntry mem m e.1 e.2 = (m₁, true)) (hroom : ¬ m₁.Grows)
      (h : Reput mem m₁ l m') : Reput mem m (e :: l) m'

/-- Distinct new entries can be put back into a table with room for all of them. -/
theorem exists_reput (l : List (K × Option V)) {n : Nat} (h : m.Table mem)
    (hd : Assoc.Distinct mem (m.entries ++ l)) (hroom : m.size + l.length < m.listSize)
    (hn : m.listSize = n) :
    ∃ m', Reput mem m l m' ∧ m'.Table mem ∧ m'.listSize = n ∧
      m'.entries.Perm (m.entries ++ l) := by
  induction l generalizing m with
  | nil => exact ⟨m, .nil m, h, hn, by simp⟩
  | cons e l ih =>
    have hd' : Assoc.Distinct mem (e :: (m.entries ++ l)) := hd.perm List.perm_middle
    have hnew : ∀ e' ∈ m.entries, mem e'.1 ≠ mem e.1 := fun e' he' hk =>
      (List.nodup_cons.mp hd').1
        (List.mem_map.mpr ⟨e', List.mem_append_left _ he', hk⟩)
    simp only [List.length_cons] at hroom
    rcases putEntry_cases h e.1 e.2 with
      ⟨m₁, hput, ht, hls, hsz, -, hp⟩ | ⟨_, k, old, rest, -, -, -, -, hp, hk, -⟩
    · obtain ⟨m', hm', ht', hn', hp'⟩ := ih ht
        (hd'.perm (by simpa using (hp.append_right l).symm)) (by omega) (hls.trans hn)
      refine ⟨m', .cons hput (fun hg => ?_) hm', ht', hn', hp'.trans ?_⟩
      · have := hg.1
        omega
      · exact (hp.append_right l).trans List.perm_middle.symm
    · exact absurd hk (hnew (k, old) (hp.mem_iff.mpr (by simp)))

/-- What is put back without a resize does not use up the depth of `put`. -/
theorem Reput.foldlM {l : List (K × Option V)} (hr : Reput mem m l m') (depth : Nat)
    (h : m.Table mem) (hfit : m.size + l.length ≤ intMax) :
    l.foldlM (fun m e => defaultPut mem (depth + 1) m e.1 e.2) m = some m' := by
  induction hr with
  | nil m => rfl
  | @cons m m₁ m' e l hput hroom _ ih =>
    rcases putEntry_cases h e.1 e.2 with ⟨m₂, hput', ht, -, hsz, -⟩ | ⟨m₂, _, _, _, hput', -⟩
    · obtain rfl : m₁ = m₂ := congrArg Prod.fst (hput.symm.trans hput')
      simp only [List.length_cons] at hfit
      have hgrow : growIfFull (defaultPut mem depth) m₁ = some m₁ := by
        rw [growIfFull, if_neg (by omega)]
        exact if_neg hroom
      rw [List.foldlM_cons, defaultPut_eq, hput, if_pos rfl, hgrow]
      exact ih ht (by omega)
    · exact absurd (congrArg Prod.snd (hput.symm.trans hput')) (by simp)

/-- The cells `resetHashMap` starts again with. -/
def cleared (m : HashMap K V) (n : Nat) : HashMap K V :=
  { m with size := 0, listSize := n, hashList := fun _ => .empty }

@[simp] theorem entries_cleared (n : Nat) : (m.cleared n).entries = [] := by
  simp [cleared, entries, Entry.empty, Entry.toList]

theorem Table.cleared (h : m.Table mem) (k : Nat) :
    (m.cleared (defaultMapSize * 2 ^ k)).Table mem where
  listSize_eq := ⟨k, rfl⟩
  changeSize := h.changeSize
  head_none := fun _ _ => rfl
  index := fun i _ e he => by simp [HashMap.cleared, Entry.empty, Entry.toList] at he
  distinct := by simp [Assoc.Distinct]
  size_eq := by rw [entries_cleared]; rfl

/-- A resize to a table with room for all entries puts each of them back, without another
resize, and permutes the entries. -/
theorem resetHashMap_spec (h : m.Table mem) {k : Nat}
    (hroom : m.size < defaultMapSize * 2 ^ k) (hfit : defaultMapSize * 2 ^ k ≤ intMax) :
    ∃ m', Reput mem (m.cleared (defaultMapSize * 2 ^ k)) m.entries m' ∧
      (∀ depth, resetHashMap (defaultPut mem (depth + 1)) m (defaultMapSize * 2 ^ k) = some m') ∧
      m'.Valid mem ∧ m'.listSize = defaultMapSize * 2 ^ k ∧ m'.entries.Perm m.entries := by
  have hlen := h.size_eq
  have hzero : (m.cleared (defaultMapSize * 2 ^ k)).size + m.entries.length = m.size := by
    rw [← hlen]
    exact Nat.zero_add m.size
  obtain ⟨m', hm', ht', hn', hp'⟩ := exists_reput m.entries (h.cleared k)
    (by simpa using h.distinct) (by rw [hzero]; exact hroom) rfl
  rw [entries_cleared, List.nil_append] at hp'
  have hn : m'.listSize = defaultMapSize * 2 ^ k := hn'
  refine ⟨m', hm', fun depth => ?_, ⟨ht', ?_, hn' ▸ hfit⟩, hn', hp'⟩
  · have hbig : ¬ defaultMapSize * 2 ^ k < defaultMapSize :=
      Nat.not_lt.mpr (Nat.le_mul_of_pos_right _ (Nat.two_pow_pos k))
    rw [resetHashMap, if_neg hbig, if_neg (by simp [hlen])]
    exact hm'.foldlM depth (h.cleared k)
      (by rw [hzero]; exact Nat.le_trans (Nat.le_of_lt hroom) hfit)
  · rw [ht'.size_eq, hp'.length_eq, ← hlen, hn]
    exact hroom

/-- The most entries a table holds without overflowing the `int` that counts its cells. -/
abbrev maxEntries : Nat := defaultMapSize * 2 ^ 25

/-- Growth after an insertion either overflows an `int` or permutes the entries. -/
theorem growIfFull_spec (depth : Nat) (h : m.Table mem) (hle : m.size ≤ m.listSize)
    (hint : m.listSize ≤ intMax) :
    (growIfFull (defaultPut mem (depth + 1)) m = none ∧ maxEntries ≤ m.size) ∨
    ∃ m', growIfFull (defaultPut mem (depth + 1)) m = some m' ∧ m'.Valid mem ∧
      m'.entries.Perm m.entries ∧ (m'.listSize = m.listSize ∨ m'.listSize = m.listSize * 2) := by
  obtain ⟨k, hk⟩ := h.listSize_eq
  have hpow : maxEntries = 1677721600 := by norm_num
  rw [growIfFull]
  simp only [intMax, defaultMapSize] at hk ⊢
  simp only [intMax] at hint
  rw [if_neg (by omega)]
  by_cases hfull : m.listSize ≤ m.size ∧ m.changeSize
  · rw [if_pos hfull]
    by_cases hover : 2147483647 < m.listSize * 2
    · refine .inl ⟨if_pos hover, ?_⟩
      -- `50 * 2 ^ k * 2` overflows from `k = 25` on
      have hk25 : 25 ≤ k := by
        by_contra hlt
        have : 2 ^ k ≤ 2 ^ 24 := Nat.pow_le_pow_right (by decide) (by omega)
        omega
      have : 2 ^ 25 ≤ 2 ^ k := Nat.pow_le_pow_right (by decide) hk25
      omega
    · rw [if_neg hover]
      have hk' : m.listSize * 2 = defaultMapSize * 2 ^ (k + 1) := by rw [hk, pow_succ]; ring
      have := h.listSize_pos
      obtain ⟨m', -, hm', hv, hn, hp⟩ := resetHashMap_spec h (k := k + 1)
        (by rw [← hk']; omega) (hk' ▸ Nat.le_of_not_lt hover)
      exact .inr ⟨m', hk' ▸ hm' depth, hv, hp, .inr (hn.trans hk'.symm)⟩
  · rw [if_neg hfull]
    exact .inr ⟨m, rfl, ⟨h, by simp [h.changeSize] at hfull; omega, hint⟩, .refl _, .inl rfl⟩

/-- Shrinking after a removal permutes the entries. -/
theorem shrinkIfSparse_spec (depth : Nat) (h : m.Valid mem) :
    ∃ m', shrinkIfSparse (defaultPut mem (depth + 1)) m = some m' ∧ m'.Valid mem ∧
      m'.entries.Perm m.entries := by
  obtain ⟨k, hk⟩ := h.listSize_eq
  rw [shrinkIfSparse]
  by_cases hsparse : m.size < m.listSize / 2 ∧ m.changeSize
  · rw [if_pos hsparse]
    cases k with
    | zero => exact ⟨m, by rw [resetHashMap, if_pos (by omega)], h, .refl _⟩
    | succ k =>
      have hk' : m.listSize / 2 = defaultMapSize * 2 ^ k := by
        simp only [defaultMapSize, pow_succ] at hk ⊢
        omega
      obtain ⟨m', -, hm', hv, -, hp⟩ := resetHashMap_spec h.toTable (k := k)
        (hk' ▸ hsparse.1) (hk' ▸ Nat.le_trans (Nat.div_le_self _ _) h.listSize_le)
      exact ⟨m', hk' ▸ hm' depth, hv, hp⟩
  · exact ⟨m, if_neg hsparse, h, .refl _⟩

/-! ## The operations on a valid table -/

/-- `put` stores, or overflows an `int` because the table is as large as it can be. -/
theorem put_spec (h : m.Valid mem) (key : K) (value : Option V) :
    (m.put mem key value = none ∧ maxEntries ≤ m.size + 1 ∧
      ∀ e ∈ m.entries, mem e.1 ≠ mem key) ∨
    ∃ m', m.put mem key value = some m' ∧ m'.Valid mem ∧
      Assoc.Stored mem m.entries key value m'.entries := by
  have hlt := h.size_lt
  rw [put, defaultPut_eq]
  rcases putEntry_cases h.toTable key value with
    ⟨m₁, hput, ht, hls, hsz, hnew, hp⟩ | ⟨m₁, k, old, rest, hput, ht, hls, hsz, hm, hk, hp⟩
  · rw [hput, if_pos rfl]
    rcases growIfFull_spec 0 ht (by omega)
      (hls ▸ h.listSize_le) with ⟨hnone, hmax⟩ | ⟨m', hm', hv, hp', -⟩
    · exact .inl ⟨hnone, by omega, hnew⟩
    · exact .inr ⟨m', hm', hv, .new hnew (hp'.trans hp)⟩
  · rw [hput, if_neg Bool.false_ne_true]
    exact .inr ⟨m₁, rfl, ⟨ht, by omega, hls ▸ h.listSize_le⟩, .old hm hk hp⟩

/-- No valid table holds so many entries that counting the cells overflows. -/
theorem Valid.size_lt_max (h : m.Valid mem) : m.size < maxEntries := by
  obtain ⟨k, hk⟩ := h.listSize_eq
  have hlt := h.size_lt
  have hle := h.listSize_le
  have hpow : maxEntries = 1677721600 := by norm_num
  simp only [intMax, defaultMapSize] at hk hle
  have hk25 : k ≤ 25 := by
    by_contra hlt
    have : 2 ^ 26 ≤ 2 ^ k := Nat.pow_le_pow_right (by decide) (by omega)
    omega
  have : 2 ^ k ≤ 2 ^ 25 := Nat.pow_le_pow_right (by decide) hk25
  omega

/-- `put` from a table that is not about to overflow an `int`. -/
theorem put_isSome (h : m.Valid mem) (key : K) (value : Option V)
    (hfit : m.size + 1 < maxEntries) :
    ∃ m', m.put mem key value = some m' ∧ m'.Valid mem ∧
      Assoc.Stored mem m.entries key value m'.entries := by
  rcases put_spec h key value with ⟨-, hmax, -⟩ | h
  · omega
  · exact h

theorem put_some (h : m.Valid mem) {key : K} {value : Option V}
    (hput : m.put mem key value = some m') :
    m'.Valid mem ∧ Assoc.Stored mem m.entries key value m'.entries := by
  rcases put_spec h key value with ⟨hnone, -⟩ | ⟨m'', heq, hv, hs⟩
  · simp [hnone] at hput
  · obtain rfl : m'' = m' := Option.some.inj (heq.symm.trans hput)
    exact ⟨hv, hs⟩

/-- Taking an entry out of its bucket. -/
theorem Table.drop (h : m.Table mem) {key : Str} {b : Entry K V} {k : K} {old : Option V}
    (hb : b.key = none → b.next = []) (hk : mem k = key)
    (hp : (m.bucket key).toList.Perm ((k, old) :: b.toList)) :
    ({ m.setBucket key b with size := m.size - 1 }).Table mem ∧
      m.entries.Perm
        ((k, old) :: ({ m.setBucket key b with size := m.size - 1 }).entries) := by
  obtain ⟨rest, hm, hset, -⟩ := entries_split h.listSize_pos key
  have hperm := (hm.trans (hp.append_right rest)).trans
    ((hset b (m.size - 1)).symm.cons (k, old))
  refine ⟨h.setBucket key b (m.size - 1) hb (fun e he => ?_)
    ((Assoc.Removed.present hperm hk).distinct h.distinct) ?_, hperm⟩
  · exact h.bucket_index (hp.mem_iff.mpr (by simp [he]))
  · have := hperm.length_eq
    rw [List.length_cons, ← h.size_eq] at this
    omega

/-- What `remove` does before it thinks about releasing memory: an entry leaves its bucket, or
there is none with the key. -/
theorem removeEntry_cases (h : m.Table mem) (key : Str) :
    (∃ m₁ k old, removeEntry mem m key = (m₁, true) ∧ m₁.Table mem ∧ m₁.listSize = m.listSize ∧
      m₁.size = m.size - 1 ∧ mem k = key ∧ m.entries.Perm ((k, old) :: m₁.entries)) ∨
    (removeEntry mem m key = (m, false) ∧ ∀ e ∈ m.entries, mem e.1 ≠ key) := by
  cases hb : (m.bucket key).key with
  | none =>
    refine .inr ⟨by simp [removeEntry, hb], fun e he hk => ?_⟩
    have := h.mem_bucket he
    rw [hk] at this
    simp [Entry.toList, hb] at this
  | some head =>
    have hl : (m.bucket key).toList = (head, (m.bucket key).value) :: (m.bucket key).next := by
      simp [Entry.toList, hb]
    by_cases hhead : mem head = key
    · -- the next entry moves into the cell, or the cell becomes empty
      cases hnext : (m.bucket key).next with
      | nil =>
        obtain ⟨ht, hp⟩ := h.drop (b := { m.bucket key with key := none, value := none })
          (fun _ => hnext) hhead (by rw [hl, hnext]; exact List.Perm.refl _)
        simp only [hnext] at ht hp
        exact .inl ⟨_, head, _, by simp [removeEntry, hb, hhead, hnext], ht, rfl, rfl, hhead, hp⟩
      | cons temp rest =>
        obtain ⟨ht, hp⟩ := h.drop (b := ⟨some temp.1, temp.2, rest⟩) (by simp) hhead
          (by rw [hl, hnext]; exact List.Perm.refl _)
        exact .inl ⟨_, head, _, by simp [removeEntry, hb, hhead, hnext], ht, rfl, rfl, hhead, hp⟩
    · by_cases hchain : ∃ e ∈ (m.bucket key).next, mem e.1 = key
      · obtain ⟨k, old, hp, hk⟩ := unlink_perm hchain
        obtain ⟨ht, hp⟩ := h.drop (b := { m.bucket key with
            next := unlink mem key (m.bucket key).next }) (by simp [hb]) hk
          (by rw [hl]; simpa [Entry.toList, hb] using (hp.cons _).trans (.swap _ _ _))
        simp only [hb] at ht hp
        exact .inl ⟨_, k, old, by simp [removeEntry, hb, hhead, hchain], ht, rfl, rfl, hk, hp⟩
      · refine .inr ⟨by simp [removeEntry, hb, hhead, hchain], fun e he hk => ?_⟩
        have := h.mem_bucket he
        rw [hk, hl] at this
        rcases List.mem_cons.mp this with rfl | hm
        · exact hhead hk
        · exact hchain ⟨e, hm, hk⟩

/-- `remove` never fails. Its result is `NULL` only for a bucket without entries. -/
theorem remove_spec (h : m.Valid mem) (key : Str) :
    ∃ m', m.remove mem key = some (m', (m.bucket key).key) ∧ m'.Valid mem ∧
      Assoc.Removed mem m.entries key m'.entries := by
  have hlt := h.size_lt
  rw [remove, defaultRemove_eq]
  rcases removeEntry_cases h.toTable key with
    ⟨m₁, k, old, hrem, ht, hls, hsz, hk, hp⟩ | ⟨hrem, habsent⟩
  · obtain ⟨m', hm', hv, hp'⟩ := shrinkIfSparse_spec 0
      (m := m₁) ⟨ht, by omega, hls ▸ h.listSize_le⟩
    exact ⟨m', by rw [hrem, if_pos rfl, hm']; rfl, hv, .present (hp.trans (hp'.symm.cons _)) hk⟩
  · exact ⟨m, by rw [hrem]; rfl, h, .absent habsent (.refl _)⟩

end DhmpFs.HashMap
