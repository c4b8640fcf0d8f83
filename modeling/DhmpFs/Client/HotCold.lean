import Mathlib.Algebra.Order.Group.Nat
import Mathlib.Data.Finset.Card
import Mathlib.Data.UInt
import Mathlib.Order.Interval.Finset.Nat
import Mathlib.Tactic.Common

/-!
# Choosing what to cache

The entries of a node are sorted by their accesses. Two cursors move towards each other and pair
an entry in DRAM with one that is accessed more and is not; a scan backwards then picks the other
entries worth caching. The entry the cursors meet at is looked at by neither.

## Main definitions

* `dhmpHandleCacheModel`: the lists of entries to evict and to cache.
* `Selected`: the lists name entries of the array, each once, and are paired by accesses.
* `Met`: the entry that is missed.
-/

namespace DhmpFs

/-! ## The model -/

structure NvmInfo where
  nvmAddr : Nat
  length : UInt64
  deriving DecidableEq

structure SortAddrEntry where
  nvmAddr : Nat
  length : UInt64
  rwcnt : Int
  inDram : Bool
  deriving DecidableEq

/-- What is copied to the lists. -/
def SortAddrEntry.info (e : SortAddrEntry) : NvmInfo := ⟨e.nvmAddr, e.length⟩

/-- The lists of one node, and the size of what is to be cached. -/
structure CacheModel where
  coldNvm : List NvmInfo
  hotNvm : List NvmInfo
  reqDramSize : UInt64
  deriving DecidableEq

def CacheModel.addHot (r : CacheModel) (e : SortAddrEntry) : CacheModel :=
  { r with hotNvm := r.hotNvm ++ [e.info], reqDramSize := r.reqDramSize + e.length }

def CacheModel.addCold (r : CacheModel) (e : SortAddrEntry) : CacheModel :=
  { r with coldNvm := r.coldNvm ++ [e.info] }

section model

variable (saEntries : Nat → SortAddrEntry)

/-- `while(start<end && !in_dram) ++start`, when `n` steps are left to `end`. -/
def skipNvm : Nat → Nat → Nat
  | 0, start => start
  | n + 1, start => if (saEntries start).inDram then start else skipNvm n (start + 1)

/-- `while(end>start && in_dram) --end`. -/
def skipDram : Nat → Nat → Nat
  | 0, stop => stop
  | n + 1, stop => if (saEntries stop).inDram then skipDram n (stop - 1) else stop

/-- The first loop: the lists, and where `start` ends. The first argument bounds the rounds. -/
def pairLoop : Nat → CacheModel → Nat → Nat → Option (CacheModel × Nat)
  | 0, _, _, _ => none
  | rounds + 1, r, start, stop =>
    if start < stop then
      let start := skipNvm saEntries (stop - start) start
      let stop := skipDram saEntries (stop - start) stop
      if start < stop then
        let r := (r.addCold (saEntries start)).addHot (saEntries stop)
        pairLoop rounds r (start + 1) (stop - 1)
      else pairLoop rounds r start stop
    else some (r, start)

/-- The second loop, from the entry before the cursor down. -/
def scanBack (threshold : Int) : Nat → CacheModel → CacheModel
  | 0, r => r
  | i + 1, r =>
    if threshold ≤ (saEntries i).rwcnt then
      scanBack threshold i (if (saEntries i).inDram then r else r.addHot (saEntries i))
    else r

/-- `dhmp_handle_cache_model`, for the entries of one node. Every round of the first loop brings
the cursors closer. -/
def dhmpHandleCacheModel (threshold : Int) (length : Nat) : Option CacheModel := do
  let (r, start) ← pairLoop saEntries (length + 1) ⟨[], [], 0⟩ 0 (length - 1)
  return scanBack saEntries threshold start r

end model

/-! ## What is selected -/

/-- The lists hold the entries with these indices. -/
structure Selected (saEntries : Nat → SortAddrEntry) (length : Nat) (r : CacheModel)
    (hot cold : List Nat) : Prop where
  hotNvm : r.hotNvm = hot.map fun i => (saEntries i).info
  coldNvm : r.coldNvm = cold.map fun i => (saEntries i).info
  hot_nodup : hot.Nodup
  cold_nodup : cold.Nodup
  hot_nvm : ∀ i ∈ hot, i < length ∧ (saEntries i).inDram = false
  cold_dram : ∀ i ∈ cold, i < length ∧ (saEntries i).inDram = true
  paired : ∀ (k i : Nat), cold[k]? = some i →
    ∃ j, hot[k]? = some j ∧ (saEntries i).rwcnt ≤ (saEntries j).rwcnt
  reqDramSize : r.reqDramSize = (r.hotNvm.map NvmInfo.length).sum

/-- Everything outside DRAM is selected. -/
def SelectsAll (saEntries : Nat → SortAddrEntry) (length : Nat) (r : CacheModel) : Prop :=
  ∃ hot cold, Selected saEntries length r hot cold ∧
    ∀ i < length, (saEntries i).inDram = false → i ∈ hot

/-- The entries in DRAM before `p`. -/
def dramBefore (saEntries : Nat → SortAddrEntry) (p : Nat) : Finset Nat :=
  {i ∈ Finset.range p | (saEntries i).inDram = true}

/-- The entries after `p` that are not in DRAM. -/
def nvmAfter (saEntries : Nat → SortAddrEntry) (length p : Nat) : Finset Nat :=
  {i ∈ Finset.Ioo p length | (saEntries i).inDram = false}

/-- `p` is not in DRAM, all entries in DRAM before it can be paired with the entries after it that
are not, and no entry in DRAM follows it: this is where the cursors meet. -/
def Met (saEntries : Nat → SortAddrEntry) (length p : Nat) : Prop :=
  p < length ∧ (saEntries p).inDram = false ∧
    (dramBefore saEntries p).card = (nvmAfter saEntries length p).card ∧
    (p + 1 = length ∨ (saEntries (p + 1)).inDram = false)

section loops

variable {saEntries : Nat → SortAddrEntry} {length start stop n i : Nat}

/-! ## The inner loops -/

theorem skipNvm_spec (saEntries : Nat → SortAddrEntry) (n start : Nat) :
    start ≤ skipNvm saEntries n start ∧ skipNvm saEntries n start ≤ start + n ∧
      (∀ i, start ≤ i → i < skipNvm saEntries n start → (saEntries i).inDram = false) ∧
      (skipNvm saEntries n start < start + n →
        (saEntries (skipNvm saEntries n start)).inDram = true) := by
  induction n generalizing start with
  | zero =>
    exact ⟨Nat.le_refl _, Nat.le_refl _, fun i hi hlt => absurd hlt (Nat.not_lt.mpr hi),
      fun h => absurd h (Nat.lt_irrefl _)⟩
  | succ n ih =>
    rw [skipNvm]
    by_cases hd : (saEntries start).inDram = true
    · rw [if_pos hd]
      exact ⟨Nat.le_refl _, by omega, fun i hi hlt => absurd hlt (Nat.not_lt.mpr hi), fun _ => hd⟩
    · rw [if_neg hd]
      obtain ⟨hle, hge, hskipped, hstop⟩ := ih (start + 1)
      refine ⟨by omega, by omega, fun i hi hlt => ?_, fun h => hstop (by omega)⟩
      rcases Nat.eq_or_lt_of_le hi with rfl | hi
      · simpa using hd
      · exact hskipped i hi hlt

theorem skipDram_spec (saEntries : Nat → SortAddrEntry) {n stop : Nat} (hn : n ≤ stop) :
    skipDram saEntries n stop ≤ stop ∧ stop ≤ skipDram saEntries n stop + n ∧
      (∀ i, skipDram saEntries n stop < i → i ≤ stop → (saEntries i).inDram = true) ∧
      (stop < skipDram saEntries n stop + n →
        (saEntries (skipDram saEntries n stop)).inDram = false) := by
  induction n generalizing stop with
  | zero =>
    exact ⟨Nat.le_refl _, Nat.le_refl _, fun i hlt hi => absurd hlt (Nat.not_lt.mpr hi),
      fun h => absurd h (Nat.lt_irrefl _)⟩
  | succ n ih =>
    rw [skipDram]
    by_cases hd : (saEntries stop).inDram = true
    · rw [if_pos hd]
      have hn : n ≤ stop - 1 := by omega
      obtain ⟨hle, hge, hskipped, hstop⟩ := ih hn
      refine ⟨by omega, by omega, fun i hlt hi => ?_, fun h => hstop (by omega)⟩
      rcases Nat.eq_or_lt_of_le hi with rfl | hi
      · exact hd
      · exact hskipped i hlt (by omega)
    · rw [if_neg hd]
      exact ⟨Nat.le_refl _, by omega, fun i hlt hi => absurd hlt (Nat.not_lt.mpr hi),
        fun _ => by simpa using hd⟩

/-! ## The first loop -/

/-- The entries in DRAM before `start` are paired with the others after `stop`. -/
structure Paired (saEntries : Nat → SortAddrEntry) (length : Nat) (r : CacheModel)
    (start stop : Nat) (pairs : List (Nat × Nat)) : Prop where
  coldNvm : r.coldNvm = pairs.map fun p => (saEntries p.1).info
  hotNvm : r.hotNvm = pairs.map fun p => (saEntries p.2).info
  reqDramSize : r.reqDramSize = (r.hotNvm.map NvmInfo.length).sum
  lt : ∀ p ∈ pairs, p.1 < p.2
  cold_nodup : (pairs.map Prod.fst).Nodup
  hot_nodup : (pairs.map Prod.snd).Nodup
  mem_cold : ∀ i, i ∈ pairs.map Prod.fst ↔ i < start ∧ (saEntries i).inDram = true
  mem_hot : ∀ i, i ∈ pairs.map Prod.snd ↔
    stop < i ∧ i < length ∧ (saEntries i).inDram = false
  start_le : start ≤ stop + 1
  start_le_length : start ≤ length
  stop_le : stop ≤ length - 1

/-- What is known of the entry at `stop` between two rounds. -/
structure AtStop (saEntries : Nat → SortAddrEntry) (length start stop : Nat) : Prop where
  next : (saEntries stop).inDram = false →
    length ≤ stop + 1 ∨ (saEntries (stop + 1)).inDram = false
  crossed : stop < start → (saEntries stop).inDram = true

variable {r : CacheModel} {pairs : List (Nat × Nat)} {start' stop' : Nat}

theorem paired_start (saEntries : Nat → SortAddrEntry) (length : Nat) :
    Paired saEntries length ⟨[], [], 0⟩ 0 (length - 1) [] ∧
      AtStop saEntries length 0 (length - 1) := by
  refine ⟨⟨rfl, rfl, rfl, by simp, by simp, by simp, by simp, fun i => ?_, by omega, by omega,
    by omega⟩, fun _ => .inl (by omega), by omega⟩
  simp only [List.map_nil, List.not_mem_nil, false_iff]
  omega

/-- `start` moves over entries that are not in DRAM. -/
theorem Paired.skipNvm (h : Paired saEntries length r start stop pairs) (hle : start ≤ start')
    (hge : start' ≤ stop + 1) (hlen : start' ≤ length)
    (hskipped : ∀ i, start ≤ i → i < start' → (saEntries i).inDram = false) :
    Paired saEntries length r start' stop pairs := by
  refine { h with mem_cold := fun i => ?_, start_le := hge, start_le_length := hlen }
  rw [h.mem_cold]
  refine and_congr_left fun hd => ⟨fun hi => by omega, fun hi => ?_⟩
  by_contra hnot
  simp [hskipped i (Nat.not_lt.mp hnot) hi] at hd

/-- `stop` moves over entries that are in DRAM. -/
theorem Paired.skipDram (h : Paired saEntries length r start stop pairs) (hle : stop' ≤ stop)
    (hge : start ≤ stop' + 1)
    (hskipped : ∀ i, stop' < i → i ≤ stop → (saEntries i).inDram = true) :
    Paired saEntries length r start stop' pairs := by
  have hstop := h.stop_le
  refine { h with mem_hot := fun i => ?_, start_le := hge, stop_le := by omega }
  rw [h.mem_hot]
  constructor
  · rintro ⟨hi, hlt, hd⟩
    exact ⟨by omega, hlt, hd⟩
  · rintro ⟨hi, hlt, hd⟩
    refine ⟨?_, hlt, hd⟩
    by_contra hnot
    simp [hskipped i hi (Nat.not_lt.mp hnot)] at hd

/-- The entries at the cursors are paired. -/
theorem Paired.pair (h : Paired saEntries length r start stop pairs) (hlt : start < stop)
    (hcold : (saEntries start).inDram = true) (hhot : (saEntries stop).inDram = false) :
    Paired saEntries length ((r.addCold (saEntries start)).addHot (saEntries stop)) (start + 1)
        (stop - 1) (pairs ++ [(start, stop)]) ∧
      AtStop saEntries length (start + 1) (stop - 1) := by
  have hstop := h.stop_le
  have hstart : start ∉ pairs.map Prod.fst := fun hm => by
    have := ((h.mem_cold start).mp hm).1
    omega
  have hend : stop ∉ pairs.map Prod.snd := fun hm => by
    have := ((h.mem_hot stop).mp hm).1
    omega
  refine ⟨⟨?_, ?_, ?_, ?_, ?_, ?_, fun i => ?_, fun i => ?_, by omega, by omega, by omega⟩,
    fun _ => ?_, fun hcross => ?_⟩
  · simp [CacheModel.addHot, CacheModel.addCold, h.coldNvm]
  · simp [CacheModel.addHot, CacheModel.addCold, h.hotNvm]
  · simp [CacheModel.addHot, CacheModel.addCold, h.reqDramSize, SortAddrEntry.info]
  · intro p hp
    rcases List.mem_append.mp hp with hp | hp
    · exact h.lt p hp
    · obtain rfl := List.mem_singleton.mp hp
      exact hlt
  · rw [List.map_append, List.map_singleton, ← List.concat_eq_append]
    exact h.cold_nodup.concat hstart
  · rw [List.map_append, List.map_singleton, ← List.concat_eq_append]
    exact h.hot_nodup.concat hend
  · rw [List.map_append, List.mem_append, h.mem_cold]
    simp only [List.map_cons, List.map_nil, List.mem_singleton]
    constructor
    · rintro (⟨hi, hd⟩ | rfl)
      · exact ⟨by omega, hd⟩
      · exact ⟨by omega, hcold⟩
    · rintro ⟨hi, hd⟩
      rcases Nat.lt_succ_iff_lt_or_eq.mp hi with hi | hi
      · exact .inl ⟨hi, hd⟩
      · exact .inr hi
  · rw [List.map_append, List.mem_append, h.mem_hot]
    simp only [List.map_cons, List.map_nil, List.mem_singleton]
    constructor
    · rintro (⟨hi, hlt, hd⟩ | rfl)
      · exact ⟨by omega, hlt, hd⟩
      · exact ⟨by omega, by omega, hhot⟩
    · rintro ⟨hi, hlt, hd⟩
      by_cases his : i = stop
      · exact .inr his
      · exact .inl ⟨by omega, hlt, hd⟩
  · rw [Nat.sub_add_cancel (by omega)]
    exact .inr hhot
  · -- the cursors were next to each other
    rw [show stop - 1 = start by omega]
    exact hcold

/-- The first loop ends with the cursors at one entry, or next to each other and crossed. -/
theorem pairLoop_spec {rounds : Nat} (h : Paired saEntries length r start stop pairs)
    (hs : AtStop saEntries length start stop) (hrounds : stop - start < rounds) :
    ∃ r' start' stop' pairs', pairLoop saEntries rounds r start stop = some (r', start') ∧
      Paired saEntries length r' start' stop' pairs' ∧ AtStop saEntries length start' stop' ∧
      stop' ≤ start' := by
  induction rounds generalizing r start stop pairs with
  | zero => omega
  | succ rounds ih =>
    rw [pairLoop]
    by_cases hlt : start < stop
    swap
    · rw [if_neg hlt]
      exact ⟨r, start, stop, pairs, rfl, h, hs, by omega⟩
    rw [if_pos hlt]
    dsimp only
    obtain ⟨hle, hge, hskipped, hcold⟩ := skipNvm_spec saEntries (stop - start) start
    generalize DhmpFs.skipNvm saEntries (stop - start) start = start₁ at *
    have hstop := h.stop_le
    have h₁ := h.skipNvm hle (by omega) (by omega) hskipped
    obtain ⟨hle', hge', hskipped', hhot⟩ :=
      skipDram_spec saEntries (by omega : stop - start₁ ≤ stop)
    generalize DhmpFs.skipDram saEntries (stop - start₁) stop = stop₁ at *
    have h₂ := h₁.skipDram hle' (by omega) hskipped'
    by_cases hlt' : start₁ < stop₁
    · obtain ⟨h₃, hs₃⟩ := h₂.pair hlt' (hcold (by omega)) (hhot (by omega))
      obtain ⟨r', start', stop', pairs', heq, hrest⟩ := ih h₃ hs₃ (by omega)
      exact ⟨r', start', stop', pairs', by simpa only [hlt', if_true] using heq, hrest⟩
    · have hmeet : AtStop saEntries length start₁ stop₁ := by
        refine ⟨fun hd => ?_, fun hcross => by omega⟩
        -- if `stop` moved, it stands at an entry where `start` stopped
        by_cases hmoved : stop₁ = stop
        · subst hmoved
          exact hs.next hd
        · obtain rfl : start₁ = stop₁ := by omega
          simp [hcold (by omega)] at hd
      obtain ⟨r', start', stop', pairs', heq, hrest⟩ := ih h₂ hmeet (by omega)
      exact ⟨r', start', stop', pairs', by simpa only [hlt', if_false] using heq, hrest⟩

/-! ## Where the cursors meet -/

theorem mem_dramBefore : i ∈ dramBefore saEntries n ↔ i < n ∧ (saEntries i).inDram = true := by
  simp [dramBefore]

theorem mem_nvmAfter : i ∈ nvmAfter saEntries length n ↔
    n < i ∧ i < length ∧ (saEntries i).inDram = false := by
  simp [nvmAfter, and_assoc]

/-- Every entry in DRAM before `start` has its partner. -/
theorem Paired.card_eq (h : Paired saEntries length r start stop pairs) :
    (dramBefore saEntries start).card = (nvmAfter saEntries length stop).card := by
  have hcold : (pairs.map Prod.fst).toFinset = dramBefore saEntries start := by
    ext i
    rw [List.mem_toFinset, h.mem_cold, mem_dramBefore]
  have hhot : (pairs.map Prod.snd).toFinset = nvmAfter saEntries length stop := by
    ext i
    rw [List.mem_toFinset, h.mem_hot, mem_nvmAfter]
  rw [← hcold, ← hhot, List.toFinset_card_of_nodup h.cold_nodup,
    List.toFinset_card_of_nodup h.hot_nodup, List.length_map, List.length_map]

/-- As a cursor moves on there are more entries in DRAM before it and fewer others after it; while
the two numbers agree it has seen nothing that would change them. -/
theorem balance {a b c d : Nat} (hac : a ≤ c) (hbd : b ≤ d)
    (h : (dramBefore saEntries a).card = (nvmAfter saEntries length b).card)
    (h' : (dramBefore saEntries c).card = (nvmAfter saEntries length d).card) :
    (∀ i, a ≤ i → i < c → (saEntries i).inDram = false) ∧
      ∀ i, b < i → i ≤ d → i < length → (saEntries i).inDram = true := by
  have hdram : dramBefore saEntries a ⊆ dramBefore saEntries c := fun i hi => by
    rw [mem_dramBefore] at hi ⊢
    exact ⟨by omega, hi.2⟩
  have hnvm : nvmAfter saEntries length d ⊆ nvmAfter saEntries length b := fun i hi => by
    rw [mem_nvmAfter] at hi ⊢
    exact ⟨by omega, hi.2⟩
  have hcard := Finset.card_le_card hdram
  have hcard' := Finset.card_le_card hnvm
  constructor
  · intro i hai hic
    by_contra hd
    have hmem : i ∈ dramBefore saEntries a := by
      rw [Finset.eq_of_subset_of_card_le hdram (by omega), mem_dramBefore]
      exact ⟨hic, by simpa using hd⟩
    have := (mem_dramBefore.mp hmem).1
    omega
  · intro i hbi hid hi
    by_contra hd
    have hmem : i ∈ nvmAfter saEntries length d := by
      rw [Finset.eq_of_subset_of_card_le hnvm (by omega), mem_nvmAfter]
      exact ⟨hbi, hi, by simpa using hd⟩
    have := (mem_nvmAfter.mp hmem).1
    omega

/-- The cursors end at the entry that is `Met`, if there is one. -/
theorem Paired.met_iff (h : Paired saEntries length r start stop pairs)
    (hs : AtStop saEntries length start stop) (hend : stop ≤ start) {p : Nat} :
    Met saEntries length p ↔
      p = stop ∧ start = stop ∧ p < length ∧ (saEntries p).inDram = false := by
  have hcard := h.card_eq
  have hle := h.start_le
  have hstop := h.stop_le
  constructor
  · rintro ⟨hp, hd, hmet, hnext⟩
    by_cases hlt : stop < p
    · have := (balance (by omega) (Nat.le_of_lt hlt) hcard hmet).2 p hlt (Nat.le_refl p) hp
      simp [this] at hd
    obtain ⟨hnvm, hdram⟩ := balance (by omega) (Nat.not_lt.mp hlt) hmet hcard
    by_cases hcross : stop < start
    · have hfalse := hnvm stop (by omega) hcross
      simp [hs.crossed hcross] at hfalse
    · refine ⟨?_, by omega, hp, hd⟩
      by_contra hne
      have htrue := hdram (p + 1) (by omega) (by omega) (by omega)
      rcases hnext with hnext | hnext
      · omega
      · simp [hnext] at htrue
  · rintro ⟨rfl, rfl, hp, hd⟩
    refine ⟨hp, hd, hcard, (hs.next hd).imp_left fun h => by omega⟩

/-! ## The second loop -/

/-- The entries before `n` that are not in DRAM, the last one first. -/
def notInDram (saEntries : Nat → SortAddrEntry) (n : Nat) : List Nat :=
  (List.range n).reverse.filter fun i => !(saEntries i).inDram

theorem mem_notInDram : i ∈ notInDram saEntries n ↔ i < n ∧ (saEntries i).inDram = false := by
  simp [notInDram]

theorem notInDram_succ (n : Nat) : notInDram saEntries (n + 1) =
    if (saEntries n).inDram then notInDram saEntries n else n :: notInDram saEntries n := by
  rw [notInDram, List.range_succ, List.reverse_append]
  cases hd : (saEntries n).inDram <;> simp [notInDram, hd]

/-- The scan finds all of them: when it stops, the entries before are accessed less than any that
is not in DRAM. -/
theorem scanBack_spec {threshold : Int} (hn : n ≤ length)
    (sorted : ∀ i j, i ≤ j → j < length → (saEntries i).rwcnt ≤ (saEntries j).rwcnt)
    (qualify : ∀ i < length, (saEntries i).inDram = false → threshold ≤ (saEntries i).rwcnt)
    (hr : r.reqDramSize = (r.hotNvm.map NvmInfo.length).sum) :
    (scanBack saEntries threshold n r).coldNvm = r.coldNvm ∧
      (scanBack saEntries threshold n r).hotNvm =
        r.hotNvm ++ (notInDram saEntries n).map (fun i => (saEntries i).info) ∧
      (scanBack saEntries threshold n r).reqDramSize =
        ((scanBack saEntries threshold n r).hotNvm.map NvmInfo.length).sum := by
  induction n generalizing r with
  | zero => exact ⟨rfl, by simp [scanBack, notInDram], hr⟩
  | succ n ih =>
    rw [scanBack]
    by_cases hth : threshold ≤ (saEntries n).rwcnt
    · rw [if_pos hth, notInDram_succ]
      by_cases hd : (saEntries n).inDram = true
      · simp only [hd, if_true]
        exact ih (by omega) hr
      · rw [Bool.not_eq_true] at hd
        simp only [hd, Bool.false_eq_true, if_false]
        obtain ⟨hcold, hhot, hreq⟩ := ih (r := r.addHot (saEntries n)) (by omega)
          (by simp [CacheModel.addHot, hr, SortAddrEntry.info])
        refine ⟨hcold, ?_, hreq⟩
        rw [hhot]
        simp [CacheModel.addHot]
    · have hnone : notInDram saEntries (n + 1) = [] := by
        rw [List.eq_nil_iff_forall_not_mem]
        intro i hi
        obtain ⟨hlt, hd⟩ := mem_notInDram.mp hi
        have := qualify i (by omega) hd
        have := sorted i n (Nat.le_of_lt_succ hlt) (by omega)
        omega
      rw [if_neg hth, hnone]
      exact ⟨rfl, by simp, hr⟩

/-! ## The result -/

/-- What is selected: everything outside DRAM, apart from the entry the cursors meet at. -/
theorem dhmpHandleCacheModel_spec {threshold : Int}
    (sorted : ∀ i j, i ≤ j → j < length → (saEntries i).rwcnt ≤ (saEntries j).rwcnt)
    (qualify : ∀ i < length, (saEntries i).inDram = false → threshold ≤ (saEntries i).rwcnt) :
    ∃ r hot cold, dhmpHandleCacheModel saEntries threshold length = some r ∧
      Selected saEntries length r hot cold ∧
      ∀ i, i ∈ hot ↔ i < length ∧ (saEntries i).inDram = false ∧ ¬ Met saEntries length i := by
  obtain ⟨hpaired, hat⟩ := paired_start saEntries length
  obtain ⟨r, start, stop, pairs, hloop, h, hs, hend⟩ :=
    pairLoop_spec hpaired hat (by omega : length - 1 - 0 < length + 1)
  have hle := h.start_le
  have hstart := h.start_le_length
  obtain ⟨hcold, hhot, hreq⟩ := scanBack_spec hstart sorted qualify h.reqDramSize
  have hmem : ∀ i, i ∈ pairs.map Prod.snd ++ notInDram saEntries start ↔
      (stop < i ∧ i < length ∨ i < start) ∧ (saEntries i).inDram = false := by
    intro i
    rw [List.mem_append, h.mem_hot, mem_notInDram, or_and_right, and_assoc]
  refine ⟨scanBack saEntries threshold start r, pairs.map Prod.snd ++ notInDram saEntries start,
    pairs.map Prod.fst, ?_, ⟨?_, ?_, ?_, h.cold_nodup, ?_, ?_, ?_, hreq⟩, fun i => ?_⟩
  · rw [dhmpHandleCacheModel, hloop]
    rfl
  · rw [hhot, h.hotNvm, List.map_append, List.map_map]
    rfl
  · rw [hcold, h.coldNvm, List.map_map]
    rfl
  · have hscan : (notInDram saEntries start).Nodup :=
      (List.nodup_reverse.mpr List.nodup_range).filter _
    refine List.nodup_append.mpr ⟨h.hot_nodup, hscan, ?_⟩
    rintro i hi j hj rfl
    have := ((h.mem_hot i).mp hi).1
    have := (mem_notInDram.mp hj).1
    omega
  · intro i hi
    obtain ⟨hi, hd⟩ := (hmem i).mp hi
    exact ⟨by omega, hd⟩
  · intro i hi
    obtain ⟨hlt, hd⟩ := (h.mem_cold i).mp hi
    exact ⟨by omega, hd⟩
  · intro k i hk
    rw [List.getElem?_map, Option.map_eq_some_iff] at hk
    obtain ⟨p, hp, rfl⟩ := hk
    have hpmem := List.mem_of_getElem? hp
    have hlt := ((h.mem_hot p.2).mp (List.mem_map_of_mem hpmem)).2.1
    refine ⟨p.2, ?_, sorted p.1 p.2 (Nat.le_of_lt (h.lt p hpmem)) hlt⟩
    have hk : k < (pairs.map Prod.snd).length := by
      rw [List.length_map]
      exact (List.getElem?_eq_some_iff.mp hp).1
    rw [List.getElem?_append_left hk, List.getElem?_map, hp]
    rfl
  · rw [hmem, h.met_iff hs hend]
    constructor
    · rintro ⟨hi, hd⟩
      exact ⟨by omega, hd, by omega⟩
    · rintro ⟨hi, hd, hnot⟩
      refine ⟨?_, hd⟩
      by_contra hcontra
      exact hnot ⟨by omega, by omega, hi, hd⟩

/-- Everything outside DRAM is selected exactly if the cursors do not meet there. -/
theorem selectsAll_iff {threshold : Int}
    (sorted : ∀ i j, i ≤ j → j < length → (saEntries i).rwcnt ≤ (saEntries j).rwcnt)
    (qualify : ∀ i < length, (saEntries i).inDram = false → threshold ≤ (saEntries i).rwcnt) :
    (∃ r hot cold, dhmpHandleCacheModel saEntries threshold length = some r ∧
        Selected saEntries length r hot cold) ∧
      ((∃ r, dhmpHandleCacheModel saEntries threshold length = some r ∧
        SelectsAll saEntries length r) ↔ ∀ p, ¬ Met saEntries length p) := by
  obtain ⟨r, hot, cold, heq, hsel, hmem⟩ := dhmpHandleCacheModel_spec sorted qualify
  refine ⟨⟨r, hot, cold, heq, hsel⟩, ?_, fun hnone => ?_⟩
  · rintro ⟨r', heq', hot', cold', hsel', hall⟩ p hmet
    obtain rfl := Option.some.inj (heq.symm.trans heq')
    -- one list would be longer than the other
    have hlength : hot.length = hot'.length := by
      have := congrArg List.length (hsel.hotNvm.symm.trans hsel'.hotNvm)
      simpa using this
    have hp : p ∉ hot := fun hm => ((hmem p).mp hm).2.2 hmet
    have hsub : p :: hot ⊆ hot' := by
      intro i hi
      rcases List.mem_cons.mp hi with rfl | hi
      · exact hall i hmet.1 hmet.2.1
      · exact hall i (hsel.hot_nvm i hi).1 (hsel.hot_nvm i hi).2
    have := (List.subperm_of_subset (List.nodup_cons.mpr ⟨hp, hsel.hot_nodup⟩) hsub).length_le
    rw [List.length_cons] at this
    omega
  · exact ⟨r, heq, hot, cold, hsel, fun i hi hd => (hmem i).mpr ⟨hi, hd, hnone i⟩⟩

end loops

/-- Two entries, the one in DRAM is accessed less: they change places. -/
theorem selectsAll_pair : ∃ r, dhmpHandleCacheModel
    (fun i => if i = 0 then ⟨1, 4096, 2, true⟩ else ⟨2, 4096, 9, false⟩) 2 2 = some r ∧
    SelectsAll (fun i => if i = 0 then ⟨1, 4096, 2, true⟩ else ⟨2, 4096, 9, false⟩) 2 r := by
  refine (selectsAll_iff ?_ ?_).2.mpr ?_
  · intro i j hij hj
    by_cases hi : i = 0
    · by_cases hj : j = 0
      · simp [hi, hj]
      · simp [hi, hj]
    · have hj : j ≠ 0 := by omega
      simp [hi, hj]
  · intro i hi hd
    by_cases hi : i = 0
    · simp [hi] at hd
    · simp [hi]
  · rintro p ⟨hp, hd, hcard, -⟩
    obtain rfl : p = 1 := by
      by_contra hne
      obtain rfl : p = 0 := by omega
      simp at hd
    revert hcard
    decide

/-- A single entry that is accessed and not in DRAM is never chosen. -/
theorem not_selectsAll_single : dhmpHandleCacheModel (fun _ => ⟨1, 4096, 9, false⟩) 2 1 =
      some ⟨[], [], 0⟩ ∧
    ¬ SelectsAll (fun _ => ⟨1, 4096, 9, false⟩) 1 ⟨[], [], 0⟩ := by
  refine ⟨rfl, ?_⟩
  rintro ⟨hot, cold, hsel, hall⟩
  have hmem := hall 0 (by decide) rfl
  have hnil : hot = [] := by simpa using hsel.hotNvm.symm
  simp [hnil] at hmem

end DhmpFs
