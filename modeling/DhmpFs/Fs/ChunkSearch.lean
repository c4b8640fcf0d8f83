import DhmpFs.Fs.IndexSpec
import DhmpFs.Library.Run
import Mathlib.Algebra.Group.Nat.Even
import Mathlib.Data.Nat.Factorization.Basic

/-!
# The chunk search and the size of the pool

`main` accepts every even number of chunks, and the cursor of `getFreeChunk` wraps with the mask
`CHUNK_NUM - 1`. From 0 on such a cursor stays below the largest power of two that divides the
number of chunks, so the search sees the whole pool exactly when that number is a power of two.

## Main definitions

* `getFreeChunkInt`: the search with its counters as `int`s.
* `SearchesPool`: what a search should do.
-/

namespace DhmpFs

open Library

/-- The check at the start of `main`. -/
def mainAccepts (chunkNum cacheSize : Nat) : Bool := !(chunkNum % 2 != 0 || cacheSize % 2 != 0)

/-- `i + 1` on an `int`, whose overflow is undefined. -/
def intSucc (i : Nat) : Option Nat := if i < intMax then some (i + 1) else none

/-- The loop of `getFreeChunk`: `count` is the number of chunks visited, `left` the number of
those still to visit. -/
def searchBitmap (chunkNum : Nat) (bitmap : Chunk → Bool) : Nat → Nat → Nat → Option (Nat × Bool)
  | 0, _, i => some (i, false)
  | left + 1, count, i =>
    if bitmap i then do
      let next ← intSucc i
      let count ← intSucc count
      searchBitmap chunkNum bitmap left count (next &&& (chunkNum - 1))
    else some (i, true)

/-- `getFreeChunk` with `i` and `count` as the `int`s that they are. -/
def getFreeChunkInt (chunkNum : Nat) (s : Fs) : Option (Fs × Option Chunk) :=
  (searchBitmap chunkNum s.bitmap chunkNum 0 s.cursor).map fun
    | (i, false) => ({ s with cursor := i }, none)
    | (i, true) => ({ s with cursor := i, bitmap := Function.update s.bitmap i true }, some i)

/-- A search says that the pool is full, and changes nothing, exactly when it is; otherwise it
takes one free chunk. -/
def SearchesPool (chunkNum : Nat) (s : Fs) : Prop :=
  ∃ s' r, getFreeChunkInt chunkNum s = some (s', r) ∧
    (r = none ∧ s' = s ↔ ∀ c < chunkNum, s.bitmap c = true) ∧
    ((∃ c < chunkNum, s.bitmap c = false) → ∃ c < chunkNum, r = some c ∧ s.bitmap c = false ∧
      s' = { s with cursor := c, bitmap := Function.update s.bitmap c true })

/-- A search, or `reset_indoe` gives a chunk back. -/
inductive PoolOp where
  | search
  | free (c : Chunk)

inductive PoolStep (chunkNum : Nat) : Fs → PoolOp → Fs → Prop where
  | search {s s' : Fs} {r : Option Chunk} : getFreeChunkInt chunkNum s = some (s', r) →
      PoolStep chunkNum s .search s'
  | free {s : Fs} {c : Chunk} : c < chunkNum →
      PoolStep chunkNum s (.free c) { s with bitmap := Function.update s.bitmap c false }

/-! ## The counters -/

section counters

variable {n : Nat} {bitmap : Chunk → Bool} {left count i : Nat}

/-- Below `2 ^ 31` chunks no counter overflows. -/
theorem searchBitmap_eq (hn : n ≤ intMax) (hcount : left + count = n) (hi : i < n) :
    searchBitmap n bitmap left count i = some (scanBitmap n bitmap left i) := by
  induction left generalizing count i with
  | zero => rfl
  | succ left ih =>
    rw [searchBitmap, scanBitmap]
    split
    · have hnext : (i + 1) &&& (n - 1) < n := Nat.lt_of_le_of_lt Nat.and_le_right (by omega)
      have hrest := ih (by omega : left + (count + 1) = n) hnext
      rw [intSucc, if_pos (by omega), intSucc, if_pos (by omega)]
      exact hrest
    · rfl

/-- A full pool of more chunks makes `count` overflow, if not `i`. -/
theorem searchBitmap_overflow (hn : intMax < n) (hfull : ∀ c, bitmap c = true)
    (hcount : left + count = n) (hle : count ≤ intMax) :
    searchBitmap n bitmap left count i = none := by
  induction left generalizing count i with
  | zero => omega
  | succ left ih =>
    rw [searchBitmap, if_pos (hfull i)]
    by_cases hi : i < intMax
    · by_cases hc : count < intMax
      · rw [intSucc, if_pos hi, intSucc, if_pos hc]
        exact ih (by omega) (by omega)
      · simp [intSucc, hc]
    · simp [intSucc, hi]

end counters

/-! ## The pool -/

/-- A call of `getFreeChunk` where the cursor is below the power of two. -/
theorem getFreeChunkInt_eq {t k : Nat} (hn : 2 ^ t * (2 * k + 1) ≤ intMax) {s : Fs}
    (hs : s.cursor < 2 ^ t) :
    (∃ c < 2 ^ t, s.bitmap c = false ∧ getFreeChunkInt (2 ^ t * (2 * k + 1)) s =
        some ({ s with cursor := c, bitmap := Function.update s.bitmap c true }, some c)) ∨
      getFreeChunkInt (2 ^ t * (2 * k + 1)) s = some (s, none) ∧
        ∀ c < 2 ^ t, s.bitmap c = true := by
  have hlt : s.cursor < 2 ^ t * (2 * k + 1) :=
    hs.trans_le (Nat.le_mul_of_pos_right _ (Nat.succ_pos _))
  rw [getFreeChunkInt, searchBitmap_eq hn (Nat.add_zero _) hlt]
  rcases scanBitmap_whole (k := k) s.bitmap hs with ⟨c, hc, heq, hfree⟩ | ⟨heq, hfull⟩
  · exact .inl ⟨c, hc, hfree, by rw [heq]; rfl⟩
  · exact .inr ⟨by rw [heq]; rfl, hfull⟩

/-- In such a state the search does what it should exactly when a chunk is free below the power of
two, or none is free at all. -/
theorem searchesPool_iff {t k : Nat} (hn : 2 ^ t * (2 * k + 1) ≤ intMax) {s : Fs}
    (hs : s.cursor < 2 ^ t) :
    SearchesPool (2 ^ t * (2 * k + 1)) s ↔
      (∃ c < 2 ^ t, s.bitmap c = false) ∨ ∀ c < 2 ^ t * (2 * k + 1), s.bitmap c = true := by
  have hle : 2 ^ t ≤ 2 ^ t * (2 * k + 1) := Nat.le_mul_of_pos_right _ (Nat.succ_pos _)
  rcases getFreeChunkInt_eq hn hs with ⟨c, hc, hfree, heq⟩ | ⟨heq, hused⟩
  · refine iff_of_true ⟨_, _, heq, ?_, fun _ => ⟨c, hc.trans_le hle, rfl, hfree, rfl⟩⟩
      (.inl ⟨c, hc, hfree⟩)
    refine iff_of_false (by simp) fun hfull => ?_
    simp [hfull c (hc.trans_le hle)] at hfree
  · constructor
    · rintro ⟨s', r, heq', hnone, -⟩
      obtain ⟨rfl, rfl⟩ := Prod.mk.inj (Option.some.inj (heq.symm.trans heq'))
      exact .inr (hnone.mp ⟨rfl, rfl⟩)
    · rintro (⟨c, hc, hfree⟩ | hfull)
      · simp [hused c hc] at hfree
      · refine ⟨_, _, heq, iff_of_true ⟨rfl, rfl⟩ hfull, ?_⟩
        rintro ⟨c, hc, hfree⟩
        simp [hfull c hc] at hfree

/-- The cursor of every run from the start is below the power of two. -/
theorem cursor_run {t k : Nat} (hn : 2 ^ t * (2 * k + 1) ≤ intMax) {bank : Nat → Nat → UInt8}
    {ops : List PoolOp} {s : Fs}
    (run : Run (PoolStep (2 ^ t * (2 * k + 1))) (dhmpInit bank) ops s) : s.cursor < 2 ^ t := by
  refine run.invariant (fun s => s.cursor < 2 ^ t) (fun s op s' hs step => ?_)
    (Nat.two_pow_pos t)
  cases step with
  | search heq =>
    rcases getFreeChunkInt_eq hn hs with ⟨c, hc, -, heq'⟩ | ⟨heq', -⟩
    · obtain ⟨rfl, -⟩ := Prod.mk.inj (Option.some.inj (heq'.symm.trans heq))
      exact hc
    · obtain ⟨rfl, -⟩ := Prod.mk.inj (Option.some.inj (heq'.symm.trans heq))
      exact hs
  | free => exact hs

/-- In a pool of `2 ^ 31` chunks and more the search overflows when every chunk is in use. -/
theorem not_searchesPool_of_overflow {n : Nat} (hn : intMax < n) {s : Fs}
    (hfull : ∀ c, s.bitmap c = true) : ¬ SearchesPool n s := by
  rintro ⟨s', r, heq, -⟩
  rw [getFreeChunkInt, searchBitmap_overflow hn hfull (Nat.add_zero _) (Nat.zero_le _)] at heq
  simp at heq

/-- Of the pools that `main` accepts, those of no chunk or of a power of two below `2 ^ 31` are
searched as they should be, from every cursor that earlier calls leave behind and for every
bitmap. In a pool of `2 ^ t` times an odd number of chunks it depends on the first `2 ^ t`. -/
theorem chunk_search {chunkNum cacheSize : Nat} (accepted : mainAccepts chunkNum cacheSize) :
    ((∀ bank ops s, Run (PoolStep chunkNum) (dhmpInit bank) ops s → ∀ bitmap,
        SearchesPool chunkNum { s with bitmap := bitmap }) ↔
      chunkNum = 0 ∨ ∃ w < 31, chunkNum = 2 ^ w) ∧
    ∀ t k, chunkNum = 2 ^ t * (2 * k + 1) → chunkNum < 2 ^ 31 →
      ∀ bank ops s, Run (PoolStep chunkNum) (dhmpInit bank) ops s → ∀ bitmap,
        (SearchesPool chunkNum { s with bitmap := bitmap } ↔
          (∃ c < 2 ^ t, bitmap c = false) ∨ ∀ c < chunkNum, bitmap c = true) := by
  have state : ∀ t k, chunkNum = 2 ^ t * (2 * k + 1) → chunkNum < 2 ^ 31 →
      ∀ bank ops s, Run (PoolStep chunkNum) (dhmpInit bank) ops s → ∀ bitmap,
        (SearchesPool chunkNum { s with bitmap := bitmap } ↔
          (∃ c < 2 ^ t, bitmap c = false) ∨ ∀ c < chunkNum, bitmap c = true) := by
    rintro t k rfl hlt bank ops s run bitmap
    have hn : 2 ^ t * (2 * k + 1) ≤ intMax := Nat.le_of_lt_succ hlt
    have hcursor := cursor_run hn run
    have hs : ({ s with bitmap := bitmap } : Fs).cursor < 2 ^ t := hcursor
    exact searchesPool_iff hn hs
  refine ⟨⟨fun h => ?_, ?_⟩, state⟩
  · by_cases hzero : chunkNum = 0
    · exact .inl hzero
    right
    have start (bitmap) := h (fun _ _ => 0) [] _ (.refl _) bitmap
    have hn : chunkNum ≤ intMax := by
      by_contra hover
      exact not_searchesPool_of_overflow (Nat.lt_of_not_le hover) (fun _ => rfl)
        (start fun _ => true)
    obtain ⟨t, m, ⟨k, rfl⟩, heq⟩ := Nat.exists_eq_two_pow_mul_odd hzero
    -- the first `2 ^ t` chunks in use, the others free
    rcases (state t k heq (Nat.lt_succ_of_le hn) _ _ _ (.refl _) fun c => decide (c < 2 ^ t)).mp
      (start _) with ⟨c, hc, hfree⟩ | hfull
    · simp [hc] at hfree
    · have hle : chunkNum ≤ 2 ^ t := by
        by_contra hlt
        simpa using hfull (2 ^ t) (Nat.lt_of_not_le hlt)
      have hpow : chunkNum = 2 ^ t :=
        Nat.le_antisymm hle (heq ▸ Nat.le_mul_of_pos_right _ (Nat.succ_pos _))
      refine ⟨t, (Nat.pow_lt_pow_iff_right (by decide : 1 < 2)).mp ?_, hpow⟩
      exact Nat.lt_of_le_of_lt (hpow ▸ hn) (by decide)
  · rintro (rfl | ⟨w, hw, rfl⟩) bank ops s run bitmap
    · exact ⟨_, _, rfl, iff_of_true ⟨rfl, rfl⟩ (by simp), by simp⟩
    · refine (state w 0 (by simp) (Nat.pow_lt_pow_right (by decide) hw) bank ops s run
        bitmap).mpr ?_
      by_cases hfree : ∃ c < 2 ^ w, bitmap c = false
      · exact .inl hfree
      · right
        simpa using hfree

/-- The pool of the repository. -/
theorem chunk_search_pool : SearchesPool chunkNum (dhmpInit fun _ _ => 0) :=
  (chunk_search (by decide : mainAccepts chunkNum 128)).1.mpr (.inr ⟨21, by decide, by decide⟩)
    (fun _ _ => 0) [] _ (.refl _) fun _ => false

/-- A pool of six chunks: after two calls the third finds none, and chunk 2 is free. -/
theorem not_chunk_search_six : mainAccepts 6 128 ∧
    ∃ s, Run (PoolStep 6) (dhmpInit fun _ _ => 0) [.search, .search] s ∧ s.bitmap 2 = false ∧
      getFreeChunkInt 6 s = some (s, none) ∧ ¬ SearchesPool 6 s := by
  have run : Run (PoolStep 6) (dhmpInit fun _ _ => 0) [.search, .search] _ :=
    .cons (.search rfl) (.single (.search rfl))
  refine ⟨by decide, _, run, rfl, rfl, ?_⟩
  rintro ⟨s', r, heq, hnone, -⟩
  obtain ⟨rfl, rfl⟩ := Prod.mk.inj (Option.some.inj heq)
  have := hnone.mp ⟨rfl, rfl⟩ 2 (by decide)
  exact absurd this (by decide)

end DhmpFs
