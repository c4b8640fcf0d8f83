import DhmpFs.Cache.Transparent

/-!
# Direct-mapped labels

The label of a cached bank is stored in its slot and in its block, and an eviction finds the slot
to relabel by the old label of the block. It is the right one because every label is that of a bank
of its slot, whatever becomes of the remote calls.

`CACHE_SIZE` follows from two macros, so it is a parameter here; `sized_cacheSize` takes the
definitions back to those of the cache at its own size.

## Main definitions

* `Sized`: the operations on a cache of `size` slots.
* `DirectMapped`: the labels of the slots and the blocks.
-/

namespace DhmpFs

open Library

/-! ## The cache at any size -/

namespace Sized

variable (size : Nat) (c : Client)

/-- `bank_id & (CACHE_SIZE - 1)` -/
def cacheKey (bankId : Nat) : Nat := bankId &&& (size - 1)

def cachePtr (bankId : Nat) : Nat := (c.cacheHash (cacheKey size bankId)).cachePtr

/-- The comparison of `try_visit_cache`. -/
def hits (bankId : Nat) : Bool := (c.cacheHash (cacheKey size bankId)).bankId = bankId

/-- The copy of `try_visit_cache`. -/
def copy (bankId : Nat) (buf : Bytes) (len offset : Nat) : VisitType → Client × Bytes
  | .read => (c, readBytes (c.caches (cachePtr size c bankId)).data offset len buf)
  | .write =>
    let cache := c.caches (cachePtr size c bankId)
    let data := writeBytes cache.data offset len buf
    (c.setCache (cachePtr size c bankId) { cache with data := data, dirty := true }, buf)

/-- `try_visit_cache` -/
def tryVisitCache (bankId : Nat) (buf : Bytes) (len offset : Nat) (type : VisitType) :
    Client × Bytes × Bool :=
  if hits size c bankId then
    let (c, buf) := copy size c bankId buf len offset type
    (c, buf, true)
  else (c, buf, false)

/-- The early exit of `expel_cache_rewrite`. -/
def isResident (newBankId : Nat) : Bool := (c.caches (cachePtr size c newBankId)).bankId = newBankId

/-- `expel_cache_rewrite` -/
def expelCacheRewrite (env : ExpelEnv) (newBankId : Nat) : Option Client :=
  let ptr := cachePtr size c newBankId
  let cache := c.caches ptr
  if isResident size c newBankId then some c
  else
    let wrote :=
      if cache.dirty then
        dhmpFsWriteToRemote c.remote env.write cache.bankId cache.data bankSize 0
      else some c.remote
    wrote.bind fun remote =>
      let key := cacheKey size cache.bankId
      let slot := { c.cacheHash key with bankId := newBankId }
      (dhmpFsReadFromRemote remote env.read newBankId cache.data bankSize 0).map
        fun (remote, data) =>
          { cacheHash := Function.update c.cacheHash key slot
            caches := Function.update c.caches ptr ⟨data, newBankId, false⟩
            remote := remote }

/-- `dhmp_fs_read_from_cache` -/
def dhmpFsReadFromCache (env : ExpelEnv) (bankId : Nat) (buf : Bytes) (len offset : Nat) :
    Option (Client × Bytes) :=
  match tryVisitCache size c bankId buf len offset .read with
  | (c, buf, true) => some (c, buf)
  | (c, buf, false) => (expelCacheRewrite size c env bankId).map fun c =>
    let (c, buf, _) := tryVisitCache size c bankId buf len offset .read
    (c, buf)

/-- `dhmp_fs_write_to_cache` -/
def dhmpFsWriteToCache (env : ExpelEnv) (bankId : Nat) (buf : Bytes) (len offset : Nat) :
    Option (Client × Bytes) :=
  match tryVisitCache size c bankId buf len offset .write with
  | (c, buf, true) => some (c, buf)
  | (c, buf, false) => (expelCacheRewrite size c env bankId).map fun c =>
    let (c, buf, _) := tryVisitCache size c bankId buf len offset .read
    (c, buf)

/-- One pass of `rewrite_dirty_cache`. -/
def rewriteDirtyCache (env : Nat → WriteEnv) : Option Client :=
  Client.rewriteSlots env (List.range size) c

end Sized

/-- At its own size the cache is the one of `Client`. -/
theorem sized_cacheSize (c : Client) :
    Sized.tryVisitCache cacheSize c = c.tryVisitCache ∧
      Sized.expelCacheRewrite cacheSize c = c.expelCacheRewrite ∧
      Sized.dhmpFsReadFromCache cacheSize c = c.dhmpFsReadFromCache ∧
      Sized.dhmpFsWriteToCache cacheSize c = c.dhmpFsWriteToCache ∧
      Sized.rewriteDirtyCache cacheSize c = c.rewriteDirtyCache :=
  ⟨rfl, rfl, rfl, rfl, rfl⟩

/-- A call of the one thread, or a pass between two calls; the servers may do anything. -/
inductive SizedStep (size : Nat) (c : Client) : CacheCall → Client → Prop where
  | read {c' : Client} {env : ExpelEnv} {bankId len offset : Nat} {buf after : Bytes}
      (hbank : bankId < bankNum)
      (h : Sized.dhmpFsReadFromCache size c env bankId buf len offset = some (c', after)) :
      SizedStep size c (.read env bankId buf len offset after) c'
  | write {c' : Client} {env : ExpelEnv} {bankId len offset : Nat} {buf after : Bytes}
      (hbank : bankId < bankNum)
      (h : Sized.dhmpFsWriteToCache size c env bankId buf len offset = some (c', after)) :
      SizedStep size c (.write env bankId buf len offset after) c'
  | rewrite {c' : Client} {env : Nat → WriteEnv} (h : Sized.rewriteDirtyCache size c env = some c') :
      SizedStep size c (.rewrite env) c'

/-- Slot and block carry the same label, that of a bank of the slot; blocks are not shared, and a
bank is in one slot at most. -/
structure DirectMapped (size : Nat) (c : Client) : Prop where
  label : ∀ i < size, (c.cacheHash i).bankId = (c.caches (c.cacheHash i).cachePtr).bankId
  congruent : ∀ i < size, (c.cacheHash i).bankId % size = i
  blocks : ∀ i < size, ∀ j < size, (c.cacheHash i).cachePtr = (c.cacheHash j).cachePtr → i = j
  resident : ∀ i < size, ∀ j < size, (c.cacheHash i).bankId = (c.cacheHash j).bankId → i = j

/-- After a visit that misses and the eviction, the second visit hits. -/
def SecondVisitHits (size : Nat) (c : Client) : Prop :=
  ∀ env bankId buf len offset type c₂, bankId < bankNum →
    (Sized.tryVisitCache size c bankId buf len offset type).2.2 = false →
    Sized.expelCacheRewrite size (Sized.tryVisitCache size c bankId buf len offset type).1 env bankId
      = some c₂ →
    (Sized.tryVisitCache size c₂ bankId (Sized.tryVisitCache size c bankId buf len offset type).2.1
      len offset .read).2.2 = true

/-! ## The invariant -/

/-- Block `i` belongs to slot `i`. -/
structure SlotsOwn (size : Nat) (c : Client) : Prop where
  cachePtr : ∀ i < size, (c.cacheHash i).cachePtr = i
  tag : ∀ i < size, (c.cacheHash i).bankId = (c.caches i).bankId
  key : ∀ i < size, Sized.cacheKey size (c.caches i).bankId = i

/-- No slot and no block has changed its label. -/
structure LabelsKept (c c' : Client) : Prop where
  cacheHash : c'.cacheHash = c.cacheHash
  bankId : ∀ i, (c'.caches i).bankId = (c.caches i).bankId

theorem LabelsKept.trans {c₁ c₂ c₃ : Client} (h : LabelsKept c₁ c₂) (g : LabelsKept c₂ c₃) :
    LabelsKept c₁ c₃ :=
  ⟨g.cacheHash.trans h.cacheHash, fun i => (g.bankId i).trans (h.bankId i)⟩

theorem cacheKey_sized_lt {size : Nat} (hpos : 0 < size) (b : Nat) :
    Sized.cacheKey size b < size :=
  Nat.lt_of_le_of_lt Nat.and_le_right (Nat.sub_lt hpos Nat.one_pos)

section steps

variable {size b len offset : Nat} {c c' : Client} {buf after : Bytes} {env : ExpelEnv}

theorem labelsKept_copy (type : VisitType) :
    LabelsKept c (Sized.copy size c b buf len offset type).1 := by
  cases type with
  | read => exact ⟨rfl, fun _ => rfl⟩
  | write =>
    refine ⟨rfl, fun i => ?_⟩
    rcases eq_or_ne i (Sized.cachePtr size c b) with rfl | hi <;>
      simp [Sized.copy, Client.setCache, *]

theorem labelsKept_flush {env : WriteEnv} {i : Nat} (h : c.flush env i = some c') :
    LabelsKept c c' := by
  refine ⟨?_, flush_bankId h⟩
  obtain ⟨remote, -, rfl⟩ := Option.map_eq_some_iff.mp h
  rfl

theorem labelsKept_rewriteSlots {env : Nat → WriteEnv} {slots : List Nat}
    (h : Client.rewriteSlots env slots c = some c') : LabelsKept c c' := by
  induction slots generalizing c with
  | nil =>
    obtain rfl : c = c' := Option.some.inj h
    exact ⟨rfl, fun _ => rfl⟩
  | cons i rest ih =>
    obtain ⟨c₁, hflush, hrest⟩ := Option.bind_eq_some_iff.mp h
    split at hflush
    · exact (labelsKept_flush hflush).trans (ih hrest)
    · obtain rfl := Option.some.inj hflush
      exact ih hrest

namespace SlotsOwn

theorem init (serverNum : Nat) (bank : Nat → Nat → Bytes) {k : Nat} :
    SlotsOwn (2 ^ k) (initClient serverNum bank) where
  cachePtr _ _ := rfl
  tag _ _ := rfl
  key i hi := (Nat.and_two_pow_sub_one_eq_mod i k).trans (Nat.mod_eq_of_lt hi)

theorem congr (h : SlotsOwn size c) (hk : LabelsKept c c') : SlotsOwn size c' where
  cachePtr i hi := hk.cacheHash ▸ h.cachePtr i hi
  tag i hi := by
    rw [hk.cacheHash, hk.bankId]
    exact h.tag i hi
  key i hi := by
    rw [hk.bankId]
    exact h.key i hi

/-- The old label of the block leads back to the slot of the new one. -/
theorem key_of_block (h : SlotsOwn size c) (hpos : 0 < size) (b : Nat) :
    Sized.cacheKey size (c.caches (Sized.cachePtr size c b)).bankId = Sized.cacheKey size b := by
  have hlt := cacheKey_sized_lt hpos b
  rw [Sized.cachePtr, h.cachePtr _ hlt, h.key _ hlt]

/-- After an eviction the slot has the new label, and so has its block. -/
theorem expel (h : SlotsOwn size c) (hpos : 0 < size)
    (he : Sized.expelCacheRewrite size c env b = some c') :
    SlotsOwn size c' ∧ Sized.hits size c' b = true := by
  have hlt := cacheKey_sized_lt hpos b
  have hptr : Sized.cachePtr size c b = Sized.cacheKey size b := h.cachePtr _ hlt
  unfold Sized.expelCacheRewrite at he
  dsimp only at he
  rw [h.key_of_block hpos, hptr] at he
  split at he
  · next hres =>
    obtain rfl := Option.some.inj he
    refine ⟨h, ?_⟩
    rw [Sized.hits, h.tag _ hlt, ← hptr]
    exact hres
  · obtain ⟨remote, -, hread⟩ := Option.bind_eq_some_iff.mp he
    obtain ⟨⟨remote', data⟩, -, rfl⟩ := Option.map_eq_some_iff.mp hread
    refine ⟨⟨fun i hi => ?_, fun i hi => ?_, fun i hi => ?_⟩, by simp [Sized.hits]⟩ <;>
      rcases eq_or_ne i (Sized.cacheKey size b) with rfl | hne
    · simpa using h.cachePtr _ hi
    · simpa [hne] using h.cachePtr i hi
    · simp
    · simpa [hne] using h.tag i hi
    · simp
    · simpa [hne] using h.key i hi

/-- An eviction and the second visit, which only reads. -/
theorem afterMiss (h : SlotsOwn size c) (hpos : 0 < size)
    (hcall : (Sized.expelCacheRewrite size c env b).map (fun c =>
      let (c, buf, _) := Sized.tryVisitCache size c b buf len offset .read
      (c, buf)) = some (c', after)) : SlotsOwn size c' := by
  obtain ⟨c₁, he, hc'⟩ := Option.map_eq_some_iff.mp hcall
  obtain ⟨h₁, hit₁⟩ := h.expel hpos he
  simp only [Sized.tryVisitCache, hit₁, if_true, Prod.mk.injEq] at hc'
  exact hc'.1 ▸ h₁.congr (labelsKept_copy .read)

theorem read (h : SlotsOwn size c) (hpos : 0 < size)
    (hcall : Sized.dhmpFsReadFromCache size c env b buf len offset = some (c', after)) :
    SlotsOwn size c' := by
  rw [Sized.dhmpFsReadFromCache, Sized.tryVisitCache] at hcall
  cases hit : Sized.hits size c b with
  | true =>
    simp only [hit, if_true, Option.some.injEq, Prod.mk.injEq] at hcall
    exact hcall.1 ▸ h.congr (labelsKept_copy .read)
  | false =>
    simp only [hit, Bool.false_eq_true, if_false] at hcall
    exact h.afterMiss hpos hcall

theorem write (h : SlotsOwn size c) (hpos : 0 < size)
    (hcall : Sized.dhmpFsWriteToCache size c env b buf len offset = some (c', after)) :
    SlotsOwn size c' := by
  rw [Sized.dhmpFsWriteToCache, Sized.tryVisitCache] at hcall
  cases hit : Sized.hits size c b with
  | true =>
    simp only [hit, if_true, Option.some.injEq, Prod.mk.injEq] at hcall
    exact hcall.1 ▸ h.congr (labelsKept_copy .write)
  | false =>
    simp only [hit, Bool.false_eq_true, if_false] at hcall
    exact h.afterMiss hpos hcall

theorem step (h : SlotsOwn size c) (hpos : 0 < size) {call : CacheCall}
    (hs : SizedStep size c call c') : SlotsOwn size c' := by
  cases hs with
  | read _ hcall => exact h.read hpos hcall
  | write _ hcall => exact h.write hpos hcall
  | rewrite hpass => exact h.congr (labelsKept_rewriteSlots hpass)

theorem secondVisitHits (h : SlotsOwn size c) (hpos : 0 < size) : SecondVisitHits size c := by
  intro env bankId buf len offset type c₂ _ hmiss he
  have hvisit : Sized.tryVisitCache size c bankId buf len offset type = (c, buf, false) := by
    unfold Sized.tryVisitCache at hmiss ⊢
    split at hmiss
    · simp at hmiss
    · next hit => rw [if_neg hit]
  rw [hvisit] at he
  simp [Sized.tryVisitCache, (h.expel hpos he).2]

theorem directMapped {k : Nat} (h : SlotsOwn (2 ^ k) c) : DirectMapped (2 ^ k) c := by
  have hmod : ∀ i < 2 ^ k, (c.cacheHash i).bankId % 2 ^ k = i := by
    intro i hi
    rw [h.tag i hi, ← Nat.and_two_pow_sub_one_eq_mod]
    exact h.key i hi
  constructor
  · intro i hi
    rw [h.cachePtr i hi, h.tag i hi]
  · exact hmod
  · intro i hi j hj heq
    rwa [h.cachePtr i hi, h.cachePtr j hj] at heq
  · intro i hi j hj heq
    rw [← hmod i hi, heq, hmod j hj]

end SlotsOwn

end steps

/-- For every cache size that is a power of two, every sequence of calls and passes from
`dhmp_init` keeps the cache direct mapped, and after a miss the second visit hits. -/
theorem direct_mapped_run {k serverNum : Nat} {bank : Nat → Nat → Bytes} {calls : List CacheCall}
    {c : Client} (run : Run (SizedStep (2 ^ k)) (initClient serverNum bank) calls c) :
    DirectMapped (2 ^ k) c ∧ SecondVisitHits (2 ^ k) c := by
  have hpos := Nat.two_pow_pos k
  have h : SlotsOwn (2 ^ k) c :=
    run.invariant (SlotsOwn (2 ^ k)) (fun _ _ _ h hs => h.step hpos hs) (.init serverNum bank)
  exact ⟨h.directMapped, h.secondVisitHits hpos⟩

/-- Bank 9 takes slot 1 of eight from bank 1, and then bank 17 from bank 9. -/
theorem direct_mapped_run_evict : ∃ c after after', Run (SizedStep (2 ^ 3))
    (initClient 1 fun _ _ _ => 0)
    [.read .succeeding 9 (fun _ => 1) 4 0 after, .write .succeeding 17 (fun _ => 2) 4 0 after',
      .rewrite fun _ => ExpelEnv.succeeding.write] c ∧ (c.cacheHash 1).bankId = 17 ∧
      (c.caches (c.cacheHash 1).cachePtr).bankId = 17 ∧ DirectMapped (2 ^ 3) c ∧
      SecondVisitHits (2 ^ 3) c := by
  have run : ∃ c after after', Run (SizedStep (2 ^ 3)) (initClient 1 fun _ _ _ => 0)
      [.read .succeeding 9 (fun _ => 1) 4 0 after, .write .succeeding 17 (fun _ => 2) 4 0 after',
        .rewrite fun _ => ExpelEnv.succeeding.write] c ∧ (c.cacheHash 1).bankId = 17 :=
    ⟨_, _, _, .cons (.read (by decide) rfl) (.cons (.write (by decide) rfl)
      (.single (.rewrite rfl))), rfl⟩
  obtain ⟨c, after, after', h, hslot⟩ := run
  obtain ⟨mapped, hits⟩ := direct_mapped_run h
  exact ⟨c, after, after', h, hslot, (mapped.label 1 (by decide)).symm.trans hslot, mapped, hits⟩

end DhmpFs
