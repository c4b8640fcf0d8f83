import DhmpFs.HashMap.Refinement

/-!
# Every resize is safe

`resetHashMap` sizes its temporary array by the counter `size`, copies the chains into it,
clears the table and puts the entries back. The copy is followed write by write here, and the
calls of `put` one by one.

A resize to fewer than `DEFAULT_MAP_SIZE` cells returns before it copies anything.
-/

namespace DhmpFs.HashMap

open Library

variable {K V : Type} {mem : K → Str} {m m₁ m' : HashMap K V}

/-! ## The temporary array -/

/-- `tempList[count] = *cnt` and `count++`. The array has `room` elements; `none` is a write past
its end. -/
def copyEntry (room : Nat) (tempList : List (K × Option V)) (e : K × Option V) :
    Option (List (K × Option V)) :=
  if tempList.length < room then some (tempList ++ [e]) else none

/-- The copying loop of `resetHashMap`. -/
def copyLoop (m : HashMap K V) : Option (List (K × Option V)) :=
  (List.range m.listSize).foldlM
    (fun tempList i => (m.hashList i).toList.foldlM (copyEntry m.size) tempList) []

/-- What `resetHashMap` copies out of the table. -/
def resetCopy (m : HashMap K V) (newListSize : Nat) : Option (List (K × Option V)) :=
  if newListSize < defaultMapSize then some [] else copyLoop m

theorem foldlM_copyEntry {room : Nat} {l : List (K × Option V)} (tempList : List (K × Option V))
    (h : tempList.length + l.length ≤ room) :
    l.foldlM (copyEntry room) tempList = some (tempList ++ l) := by
  induction l generalizing tempList with
  | nil => simp
  | cons e l ih =>
    rw [List.length_cons] at h
    have hcopy : copyEntry room tempList e = some (tempList ++ [e]) := if_pos (by omega)
    rw [List.foldlM_cons, hcopy]
    simpa using ih (tempList ++ [e]) (by simp; omega)

theorem foldlM_flatMap_copyEntry (f : Nat → List (K × Option V)) {room : Nat} {l : List Nat}
    (tempList : List (K × Option V)) (h : tempList.length + (l.flatMap f).length ≤ room) :
    l.foldlM (fun tempList i => (f i).foldlM (copyEntry room) tempList) tempList =
      some (tempList ++ l.flatMap f) := by
  induction l generalizing tempList with
  | nil => simp
  | cons i l ih =>
    rw [List.flatMap_cons, List.length_append] at h
    rw [List.foldlM_cons, foldlM_copyEntry tempList (by omega)]
    simpa using ih (tempList ++ f i) (by rw [List.length_append]; omega)

/-- The counter is the number of entries, so the loop fills the array exactly. -/
theorem Table.copyLoop_eq (h : m.Table mem) : m.copyLoop = some m.entries := by
  apply foldlM_flatMap_copyEntry (fun i => (m.hashList i).toList) []
  rw [h.size_eq]
  exact Nat.le_of_eq (Nat.zero_add _)

/-! ## The resizes of a call -/

/-- `remove` is about to halve the table. -/
def Sparse (m : HashMap K V) : Prop := m.size < m.listSize / 2 ∧ m.changeSize

/-- The call comes to `resetHashMap m₁ n`. -/
inductive Triggers (mem : K → Str) (m : HashMap K V) : Call K V → HashMap K V → Nat → Prop where
  | put {key : K} {value : Option V} {m₁ : HashMap K V}
      (hput : putEntry mem m key value = (m₁, true)) (hgrows : m₁.Grows) :
      Triggers mem m (.put key value) m₁ (m₁.listSize * 2)
  | remove {key : Str} {m₁ : HashMap K V} (hremove : removeEntry mem m key = (m₁, true))
      (hsparse : m₁.Sparse) : Triggers mem m (.remove key) m₁ (m₁.listSize / 2)

/-- `resetHashMap m n` copies `size` entries, puts each of them back without another resize and
makes a table with the same mapping. -/
structure SafeReset (mem : K → Str) (m : HashMap K V) (n : Nat) (m' : HashMap K V) : Prop where
  reset : ∀ depth, resetHashMap (defaultPut mem (depth + 1)) m n = some m'
  copied : m.resetCopy n = some m.entries
  length : m.entries.length = m.size
  reput : Reput mem (m.cleared n) m.entries m'
  valid : m'.Valid mem
  listSize : m'.listSize = n
  get : ∀ key, m'.get mem key = m.get mem key
  «exists» : ∀ key, m'.exists mem key = m.exists mem key

theorem Table.safeReset (h : m.Table mem) {k : Nat} (hroom : m.size < defaultMapSize * 2 ^ k)
    (hfit : defaultMapSize * 2 ^ k ≤ intMax) :
    ∃ m', SafeReset mem m (defaultMapSize * 2 ^ k) m' := by
  obtain ⟨m', hreput, hreset, hv, hn, hp⟩ := resetHashMap_spec h hroom hfit
  have hbig : ¬ defaultMapSize * 2 ^ k < defaultMapSize :=
    Nat.not_lt.mpr (Nat.le_mul_of_pos_right _ (Nat.two_pow_pos k))
  have hfind : ∀ key, Assoc.find mem m'.entries key = Assoc.find mem m.entries key :=
    fun key => Assoc.find_perm hv.distinct hp
  exact ⟨m',
    { reset := hreset
      copied := (if_neg hbig).trans h.copyLoop_eq
      length := h.size_eq.symm
      reput := hreput
      valid := hv
      listSize := hn
      get := fun key => by rw [hv.get_eq, h.get_eq, hfind]
      «exists» := fun key => by
        rw [HashMap.exists, HashMap.exists, hv.exists_eq, h.exists_eq, hfind] }⟩

/-- What comes to a resize on a valid table: a table that is full, or less than half full. -/
theorem Triggers.table {c : Call K V} {n : Nat} (ht : Triggers mem m c m₁ n) (h : m.Valid mem) :
    m₁.Table mem ∧ m₁.listSize = m.listSize ∧ m₁.size ≤ m.size + 1 ∧
      (n = m.listSize * 2 ∧ m₁.size = m.listSize ∨ n = m.listSize / 2 ∧ m₁.size < n) := by
  have hlt := h.size_lt
  cases ht with
  | put hput hgrows =>
    rcases putEntry_cases h.toTable _ _ with ⟨m₂, hput', ht, hls, hsz, -⟩ | ⟨m₂, _, _, _, hput', -⟩
    · obtain rfl : m₁ = m₂ := congrArg Prod.fst (hput.symm.trans hput')
      have := hgrows.1
      exact ⟨ht, hls, by omega, .inl ⟨by rw [hls], by omega⟩⟩
    · exact absurd (congrArg Prod.snd (hput.symm.trans hput')) (by simp)
  | remove hremove hsparse =>
    rcases removeEntry_cases h.toTable _ with ⟨m₂, _, _, hrem', ht, hls, hsz, -⟩ | ⟨hrem', -⟩
    · obtain rfl : m₁ = m₂ := congrArg Prod.fst (hremove.symm.trans hrem')
      exact ⟨ht, hls, by omega, .inr ⟨by rw [hls], hsparse.1⟩⟩
    · exact absurd (congrArg Prod.snd (hremove.symm.trans hrem')) (by simp)

/-- A call that comes to a resize returns what the resize makes. -/
theorem Triggers.exec {c : Call K V} {n : Nat} (ht : Triggers mem m c m₁ n) (h : m.Valid mem)
    (he : c.exec mem m = some m') :
    n ≤ intMax ∧ resetHashMap (defaultPut mem 1) m₁ n = some m' := by
  cases ht with
  | put hput hgrows =>
    have hgrow : growIfFull (defaultPut mem 1) m₁ = some m' := by
      rwa [Call.exec, HashMap.put, defaultPut_eq, hput, if_pos rfl] at he
    unfold Grows at hgrows
    rw [growIfFull, if_pos hgrows] at hgrow
    split at hgrow
    · simp at hgrow
    · split at hgrow
      · simp at hgrow
      · next hn => exact ⟨Nat.le_of_not_lt hn, hgrow⟩
  | @remove key m₁ hremove hsparse =>
    have hshrink : shrinkIfSparse (defaultPut mem 1) m₁ =
        resetHashMap (defaultPut mem 1) m₁ (m₁.listSize / 2) := if_pos hsparse
    rw [Call.exec, HashMap.remove, defaultRemove_eq, hremove, if_pos rfl, hshrink,
      Option.map_map] at he
    have hls : m₁.listSize = m.listSize := ((Triggers.remove hremove hsparse).table h).2.1
    have := h.listSize_le
    exact ⟨by omega, by simpa using he⟩

/-- Below `DEFAULT_MAP_SIZE` nothing is copied and nothing changes; from there on the reset is
safe. -/
theorem Triggers.reset {c : Call K V} {n : Nat} (ht : Triggers mem m c m₁ n) (h : m.Valid mem)
    (he : c.exec mem m = some m') :
    (n < defaultMapSize → m₁.resetCopy n = some [] ∧ m' = m₁) ∧
      (defaultMapSize ≤ n → SafeReset mem m₁ n m') := by
  obtain ⟨ht₁, hls, -, hn⟩ := ht.table h
  obtain ⟨hfit, hreset⟩ := ht.exec h he
  refine ⟨fun hlt => ⟨if_pos hlt, ?_⟩, fun hge => ?_⟩
  · rw [resetHashMap, if_pos hlt] at hreset
    exact (Option.some.inj hreset).symm
  · obtain ⟨k, hk⟩ : ∃ k, n = defaultMapSize * 2 ^ k := by
      obtain ⟨k, hk⟩ := h.listSize_eq
      rcases hn with ⟨hn, -⟩ | ⟨hn, -⟩
      · exact ⟨k + 1, by rw [hn, hk, pow_succ, Nat.mul_assoc]⟩
      · -- halving `DEFAULT_MAP_SIZE` itself falls below it
        cases k with
        | zero => exact absurd (hk ▸ hn ▸ hge) (by decide)
        | succ k =>
          refine ⟨k, ?_⟩
          rw [hn, hk, pow_succ, ← Nat.mul_assoc, Nat.mul_div_cancel _ two_pos]
    have hpos := h.listSize_pos
    obtain ⟨m'', hsafe⟩ := ht₁.safeReset (k := k) (by rw [← hk]; omega) (hk ▸ hfit)
    rw [← hk] at hsafe
    obtain rfl : m'' = m' := Option.some.inj ((hsafe.reset 0).symm.trans hreset)
    exact hsafe

/-- In every reachable map the table invariant holds, and the next call returns; a resize it
comes to copies and puts back every entry once, or returns before it copies anything because
the new size is below `DEFAULT_MAP_SIZE`. -/
theorem resize_safe {mem : K → Str} {calls : List (TimedCall K V)} {s : Instance K V}
    (h : Run CallStep ⟨mem, createHashMap⟩ calls s) :
    s.map.Valid s.mem ∧
      ∀ c, Stable s c.mem → (present (calls ++ [c])).ncard < 2 ^ 30 →
        ∃ t, CallStep s c t ∧ ∀ m₁ n, Triggers c.mem s.map c.call m₁ n →
          (n < defaultMapSize → m₁.resetCopy n = some [] ∧ t.map = m₁) ∧
            (defaultMapSize ≤ n → SafeReset c.mem m₁ n t.map) := by
  have hr := Run.refines h
  refine ⟨hr.valid, fun c hc hroom => ?_⟩
  obtain ⟨t, ht⟩ := hr.exec_isSome hc (Nat.lt_trans hroom (by norm_num))
  exact ⟨t, ht, fun m₁ n htr => htr.reset (hr.valid.congr hc) ht.exec⟩

/-- `put` with room left does not resize. -/
theorem put_of_room (h : m.Valid mem) (key : K) (value : Option V)
    (hroom : m.size + 1 < m.listSize) :
    ∃ m', m.put mem key value = some m' ∧ m'.listSize = m.listSize := by
  have hle := h.listSize_le
  rw [put, defaultPut_eq]
  rcases putEntry_cases h.toTable key value with
    ⟨m₁, hput, -, hls, hsz, -⟩ | ⟨m₁, k, old, rest, hput, -, hls, -⟩
  · refine ⟨m₁, ?_, hls⟩
    have hgrow : growIfFull (defaultPut mem 1) m₁ = some m₁ := by
      rw [growIfFull, if_neg (by omega), if_neg (by omega)]
    rw [hput, if_pos rfl, hgrow]
  · exact ⟨m₁, by rw [hput]; rfl, hls⟩

/-- Fewer than `DEFAULT_MAP_SIZE` insertions leave the number of cells as it is. -/
theorem puts_small (n : Nat) (hn : n < defaultMapSize) :
    ∃ s : Instance Nat Nat, Run CallStep ⟨nthKey, createHashMap⟩ (puts n) s ∧ s.mem = nthKey ∧
      s.map.listSize = defaultMapSize ∧ s.map.size = n := by
  induction n with
  | zero => exact ⟨_, .refl _, rfl, rfl, rfl⟩
  | succ n ih =>
    obtain ⟨s, hs, hmem, hls, hsz⟩ := ih (Nat.lt_of_succ_lt hn)
    obtain ⟨m', hm', hls'⟩ := put_of_room (Run.refines hs).valid n (some n)
      (by rw [hsz, hls]; exact hn)
    have hstep : CallStep s ⟨nthKey, .put n (some n)⟩ ⟨nthKey, m'⟩ :=
      ⟨fun e _ => by rw [hmem], by rw [← hmem]; exact hm', rfl⟩
    have hrun : Run CallStep ⟨nthKey, createHashMap⟩ (puts (n + 1)) ⟨nthKey, m'⟩ :=
      puts_succ n ▸ .snoc hs hstep
    refine ⟨_, hrun, rfl, hls'.trans hls, ?_⟩
    rw [(Run.refines hrun).size_eq, ncard_present_puts]

/-- The fiftieth key doubles the table. -/
theorem resize_safe_doubles :
    ∃ (s t : Instance Nat Nat) (m₁ : HashMap Nat Nat),
      Run CallStep ⟨nthKey, createHashMap⟩ (puts 49) s ∧
      CallStep s ⟨nthKey, .put 49 (some 49)⟩ t ∧ SafeReset nthKey m₁ 100 t.map := by
  obtain ⟨s, hs, hmem, hls, hsz⟩ := puts_small 49 (by decide)
  obtain ⟨hv, hnext⟩ := resize_safe hs
  rw [hmem] at hv
  obtain ⟨t, ht, hreset⟩ := hnext ⟨nthKey, .put 49 (some 49)⟩ (fun e _ => by rw [hmem])
    (by rw [← puts_succ, ncard_present_puts]; norm_num)
  have hsize := ((Run.refines hs).step ht).size_eq
  rw [← puts_succ, ncard_present_puts] at hsize
  rcases putEntry_cases hv.toTable 49 (some 49) with
    ⟨m₁, hput, ht₁, hls₁, hsz₁, -⟩ | ⟨m₁, k, old, rest, hput, -, -, hsz₁, -⟩
  · have hls : s.map.listSize = 50 := hls
    have htr : Triggers nthKey s.map (.put 49 (some 49)) m₁ (m₁.listSize * 2) :=
      .put hput ⟨by omega, ht₁.changeSize⟩
    have hn : m₁.listSize * 2 = 100 := by omega
    rw [hn] at htr
    exact ⟨s, t, m₁, hs, ht, (hreset m₁ 100 htr).2 (by decide)⟩
  · -- an overwritten value would leave 49 entries
    have : t.map = m₁ := by
      have he := ht.exec
      rw [Call.exec, HashMap.put, defaultPut_eq, hput] at he
      exact (Option.some.inj he).symm
    rw [this] at hsize
    omega

/-- Removing one of two keys comes to `resetHashMap(25)`, which leaves the remaining entry where
it is and copies nothing. -/
theorem resize_returns_at_once :
    ∃ (s : Instance Nat Nat) (c : TimedCall Nat Nat) (m₁ : HashMap Nat Nat) (n : Nat),
      Run CallStep ⟨nthKey, createHashMap⟩ (puts 2) s ∧ Stable s c.mem ∧
      (present (puts 2 ++ [c])).ncard < 2 ^ 30 ∧ Triggers c.mem s.map c.call m₁ n ∧
      m₁.size = 1 ∧ m₁.resetCopy n = some [] := by
  obtain ⟨s, hs, hmem, hls, hsz⟩ := puts_small 2 (by decide)
  have hr := Run.refines hs
  have hls : s.map.listSize = 50 := hls
  rcases removeEntry_cases (hmem ▸ hr.valid).toTable (nthKey 0) with
    ⟨m₁, k, old, hrem, ht₁, hls₁, hsz₁, -⟩ | ⟨-, habsent⟩
  · have hstable : Stable s nthKey := fun e _ => by rw [hmem]
    have htr : Triggers nthKey s.map (.remove (nthKey 0)) m₁ (m₁.listSize / 2) :=
      .remove hrem ⟨by omega, ht₁.changeSize⟩
    obtain ⟨m', hm', -⟩ := remove_spec (hr.valid.congr hstable) (nthKey 0)
    have hexec : (Call.remove (nthKey 0)).exec nthKey s.map = some m' := by
      rw [Call.exec, hm']
      rfl
    obtain ⟨hcopy, rfl⟩ := (htr.reset (hr.valid.congr hstable) hexec).1
      (by simp only [defaultMapSize]; omega)
    have hsize : m'.size = _ := (hr.step (c := ⟨nthKey, .remove (nthKey 0)⟩) (t := ⟨nthKey, m'⟩)
      ⟨hstable, hexec, rfl⟩).size_eq
    exact ⟨s, _, m', _, hs, hstable, by rw [← hsize]; omega, htr, by omega, hcopy⟩
  · have hfind := hr.find (nthKey 0)
    rw [hmem, Assoc.find_eq_none.mpr habsent] at hfind
    have hpres : nthKey 0 ∈ present (puts 2) := by
      rw [present_puts]
      exact ⟨0, by simp, rfl⟩
    exact absurd hfind.symm hpres

end DhmpFs.HashMap
