import DhmpFs.Cache.Sections
import DhmpFs.Library.Run

/-!
# The cache is transparent

One thread reads and writes banks through the cache, and passes of `rewrite_dirty_cache` come
in between. What is read was written last, as long as every write finds its bank in the cache:
after a miss `dhmp_fs_write_to_cache` visits the cache a second time with the wrong type.

## Main definitions

* `CacheStep`: one call, or one pass.
* `Transparent`: what a caller may see.
* `WritesResident`: the condition on a call.
-/

namespace DhmpFs

open Library

/-- A call with the buffer before and after it, or a pass. -/
inductive CacheCall where
  | read (env : ExpelEnv) (bankId : Nat) (buf : Bytes) (size offset : Nat) (after : Bytes)
  | write (env : ExpelEnv) (bankId : Nat) (buf : Bytes) (size offset : Nat) (after : Bytes)
  | rewrite (env : Nat → WriteEnv)

/-- The last byte written to each position of each bank. -/
abbrev LastWritten := Nat → Nat → Option UInt8

def LastWritten.write (w : LastWritten) (bankId : Nat) (buf : Bytes) (size offset : Nat) :
    LastWritten :=
  fun b o =>
    if b = bankId ∧ offset ≤ o ∧ o < offset + size then some (buf (o - offset)) else w b o

/-- A call with arguments in range whose remote calls succeed on all `n` servers. -/
inductive CacheStep (n : Nat) : Client × LastWritten → CacheCall → Client × LastWritten → Prop where
  | read {c c' : Client} {w : LastWritten} {env : ExpelEnv} {bankId size offset : Nat}
      {buf after : Bytes} (hbank : bankId < bankNum) (hfit : offset + size ≤ bankSize)
      (henv : env.Succeeds n)
      (h : c.dhmpFsReadFromCache env bankId buf size offset = some (c', after)) :
      CacheStep n (c, w) (.read env bankId buf size offset after) (c', w)
  | write {c c' : Client} {w : LastWritten} {env : ExpelEnv} {bankId size offset : Nat}
      {buf after : Bytes} (hbank : bankId < bankNum) (hfit : offset + size ≤ bankSize)
      (henv : env.Succeeds n)
      (h : c.dhmpFsWriteToCache env bankId buf size offset = some (c', after)) :
      CacheStep n (c, w) (.write env bankId buf size offset after)
        (c', w.write bankId buf size offset)
  | rewrite {c c' : Client} {w : LastWritten} {env : Nat → WriteEnv}
      (henv : ∀ i, (env i).Succeeds n) (h : c.rewriteDirtyCache env = some c') :
      CacheStep n (c, w) (.rewrite env) (c', w)

/-- A read returns what was written last, and a write leaves its buffer alone. -/
def Transparent (w : LastWritten) : CacheCall → Prop
  | .read _ bankId _ size offset after =>
      ∀ o < size, ∀ v, w bankId (offset + o) = some v → after o = v
  | .write _ _ buf _ _ after => after = buf
  | .rewrite _ => True

/-- A write finds its bank in the cache. -/
def WritesResident (st : Client × LastWritten) : CacheCall → Prop
  | .write _ bankId _ _ _ _ => st.1.hits bankId = true
  | _ => True

/-- The cache of a client whose servers are up holds what was written. -/
structure Holding (n : Nat) (c : Client) (w : LastWritten) : Prop where
  direct : Direct c
  up : c.Up n
  coherent : WriteBack.Coherent bankSlot (c.view n) fun b o => w b o

section steps

variable {n : Nat} {c c' : Client} {w : LastWritten} {b i size offset : Nat} {buf : Bytes}
  {env : ExpelEnv}

theorem holding_initClient (n : Nat) (bank : Nat → Nat → Bytes) :
    Holding n (initClient n bank) fun _ _ => none where
  direct := direct_initClient n bank
  up := up_initClient n bank
  coherent := ⟨fun i => Fin.ext ((direct_initClient n bank).key i i.isLt), by simp, by simp⟩

theorem Holding.flush (h : Holding n c w) (hi : i < cacheSize) {env : WriteEnv}
    (henv : env.Succeeds n) : ∃ c', c.flush env i = some c' ∧ Holding n c' w := by
  obtain ⟨c', hf, hd, hup, hfl⟩ := flush_flushes h.direct h.up hi henv
  exact ⟨c', hf, hd, hup, h.coherent.flushes hfl⟩

theorem Holding.rewriteSlots {env : Nat → WriteEnv} (henv : ∀ i, (env i).Succeeds n) :
    ∀ (slots : List Nat) {c : Client}, (∀ i ∈ slots, i < cacheSize) → Holding n c w →
      ∃ c', Client.rewriteSlots env slots c = some c' ∧ Holding n c' w
  | [], c, _, h => ⟨c, rfl, h⟩
  | i :: rest, c, hlt, h => by
    have step : ∃ c₁, (if c.isDirty i then c.flush (env i) i else some c) = some c₁ ∧
        Holding n c₁ w := by
      split
      · exact h.flush (hlt i (by simp)) (henv i)
      · exact ⟨c, rfl, h⟩
    obtain ⟨c₁, hc₁, h₁⟩ := step
    obtain ⟨c', hc', h'⟩ := rewriteSlots henv rest (fun j hj => hlt j (by simp [hj])) h₁
    exact ⟨c', by rw [Client.rewriteSlots, hc₁]; exact hc', h'⟩

/-- A pass writes the dirty slots to the servers and keeps the content. -/
theorem Holding.rewriteDirtyCache (h : Holding n c w) {env : Nat → WriteEnv}
    (henv : ∀ i, (env i).Succeeds n) :
    ∃ c', c.rewriteDirtyCache env = some c' ∧ Holding n c' w :=
  Holding.rewriteSlots henv _ (fun _ hi => List.mem_range.mp hi) h

theorem Holding.evict (h : Holding n c w) (hpos : 0 < n) (henv : env.Succeeds n) (b : Nat) :
    ∃ c', c.evict env b = some c' ∧ Holding n c' w := by
  obtain ⟨c', he, hd, hup, w₁, hw₁, hclean, hr⟩ := evict_refills h.direct h.up hpos henv b
  have h₁ : WriteBack.Coherent bankSlot w₁ fun b (o : Fin bankSize) => w b o := by
    rcases hw₁ with ⟨-, hfl⟩ | ⟨-, rfl⟩
    · exact h.coherent.flushes hfl
    · exact h.coherent
  exact ⟨c', he, hd, hup, h₁.refills hr hclean⟩

/-- After the eviction that follows a miss, the second visit hits. -/
theorem Holding.expel (h : Holding n c w) (hpos : 0 < n) (henv : env.Succeeds n) (b : Nat) :
    ∃ c', c.expelCacheRewrite env b = some c' ∧ Holding n c' w ∧ c'.hits b = true := by
  unfold Client.expelCacheRewrite
  split
  · next hres => exact ⟨c, rfl, h, by rw [h.direct.hits_eq, hres]⟩
  · obtain ⟨c', he, h'⟩ := h.evict hpos henv b
    refine ⟨c', he, h', ?_⟩
    exact h'.direct.hits_iff.mpr (h.direct.evict he).2.1

/-- A copy out of a slot that holds its bank. -/
theorem Holding.readBytes (h : Holding n c w) (hit : c.hits b = true)
    (hfit : offset + size ≤ bankSize) {o : Nat} (ho : o < size) {v : UInt8}
    (hv : w b (offset + o) = some v) :
    readBytes (c.cacheOf b).data offset size buf o = v := by
  have hlabel := h.direct.hits_iff.mp hit
  have hlt : offset + o < bankSize := by
    simp only [bankSize] at *
    omega
  rw [DhmpFs.readBytes, if_pos ho, h.direct.cacheOf_eq]
  refine h.coherent.resident (bankSlot b) ⟨offset + o, hlt⟩ v ?_
  simpa [Client.view, bankSlot, hlabel] using hv

/-- A read call returns, and it returns what was written last. -/
theorem Holding.read (h : Holding n c w) (hpos : 0 < n) (henv : env.Succeeds n)
    (hfit : offset + size ≤ bankSize) (b : Nat) (buf : Bytes) :
    ∃ c' after, c.dhmpFsReadFromCache env b buf size offset = some (c', after) ∧
      Holding n c' w ∧ ∀ o < size, ∀ v, w b (offset + o) = some v → after o = v := by
  by_cases hit : c.hits b = true
  · refine ⟨c, DhmpFs.readBytes (c.cacheOf b).data offset size buf, ?_, h, ?_⟩
    · simp [Client.dhmpFsReadFromCache, Client.tryVisitCache, hit, Client.copy]
    · exact fun o ho v hv => h.readBytes hit hfit ho hv
  · obtain ⟨c', he, h', hit'⟩ := h.expel hpos henv b
    refine ⟨c', DhmpFs.readBytes (c'.cacheOf b).data offset size buf, ?_, h', ?_⟩
    · simp [Client.dhmpFsReadFromCache, Client.tryVisitCache, hit, he, hit', Client.copy]
    · exact fun o ho v hv => h'.readBytes hit' hfit ho hv

/-- A write call to a bank in the cache leaves its buffer alone and is not forgotten. -/
theorem Holding.write_hit (h : Holding n c w) (hit : c.hits b = true) (env : ExpelEnv)
    (buf : Bytes) (size offset : Nat) :
    ∃ c', c.dhmpFsWriteToCache env b buf size offset = some (c', buf) ∧
      Holding n c' (w.write b buf size offset) := by
  refine ⟨(c.copy b buf size offset .write).1, ?_, h.direct.copy .write, ?_, ?_⟩
  · simp [Client.dhmpFsWriteToCache, Client.tryVisitCache, hit, Client.copy]
  · exact ⟨h.up.serverNum, h.up.connected⟩
  · refine h.coherent.writes (copy_writes h.direct) ?_ (fun a => ?_) fun k hk => ?_
    · exact h.direct.hits_iff.mp hit
    · simp only [LastWritten.write, true_and]
      split <;> rfl
    · simp [LastWritten.write, hk]

/-- A write call that misses stores nothing: the bytes of the bank go into the caller's
buffer. -/
theorem Holding.write_miss (h : Holding n c w) (hpos : 0 < n) (henv : env.Succeeds n)
    (hmiss : c.hits b = false) (buf : Bytes) (size offset : Nat) :
    ∃ c', c.dhmpFsWriteToCache env b buf size offset =
        some (c', DhmpFs.readBytes (c'.cacheOf b).data offset size buf) ∧ Holding n c' w := by
  obtain ⟨c', he, h', hit'⟩ := h.expel hpos henv b
  refine ⟨c', ?_, h'⟩
  simp [Client.dhmpFsWriteToCache, Client.tryVisitCache, hmiss, he, hit', Client.copy]

/-- A call that meets the condition is transparent and keeps the content. -/
theorem Holding.step (h : Holding n c w) (hpos : 0 < n) {call : CacheCall} {w' : LastWritten}
    (hs : CacheStep n (c, w) call (c', w')) (hres : WritesResident (c, w) call) :
    Holding n c' w' ∧ Transparent w call := by
  cases hs with
  | read hbank hfit henv hcall =>
    obtain ⟨c₁, after, hread, h₁, hlast⟩ := h.read hpos henv hfit _ _
    obtain ⟨rfl, rfl⟩ := Prod.mk.inj (Option.some.inj (hread.symm.trans hcall))
    exact ⟨h₁, hlast⟩
  | write hbank hfit henv hcall =>
    obtain ⟨c₁, hwrite, h₁⟩ := h.write_hit hres _ _ _ _
    obtain ⟨rfl, rfl⟩ := Prod.mk.inj (Option.some.inj (hwrite.symm.trans hcall))
    exact ⟨h₁, rfl⟩
  | rewrite henv hcall =>
    obtain ⟨c₁, hpass, h₁⟩ := h.rewriteDirtyCache henv
    obtain rfl := Option.some.inj (hpass.symm.trans hcall)
    exact ⟨h₁, trivial⟩

end steps

/-! ## Runs -/

/-- In every run of calls from `dhmp_init` in which each write finds its bank in the cache,
every further such call returns, a read returns the bytes written last, and no write touches its
buffer. -/
theorem cache_transparent {n : Nat} (hpos : 0 < n) {bank : Nat → Nat → Bytes}
    {calls : List CacheCall} {c : Client} {w : LastWritten}
    (h : Run (guarded WritesResident (CacheStep n)) (initClient n bank, fun _ _ => none) calls
      (c, w)) :
    (∀ call st, CacheStep n (c, w) call st → WritesResident (c, w) call → Transparent w call) ∧
    (∀ env bankId buf size offset, env.Succeeds n → offset + size ≤ bankSize →
      (c.dhmpFsReadFromCache env bankId buf size offset).isSome ∧
      (c.dhmpFsWriteToCache env bankId buf size offset).isSome) ∧
    ∀ env : Nat → WriteEnv, (∀ i, (env i).Succeeds n) → (c.rewriteDirtyCache env).isSome := by
  have holding : Holding n c w :=
    h.invariant (fun st => Holding n st.1 st.2)
      (fun _ _ _ hst hs => (hst.step hpos hs.2 hs.1).1) (holding_initClient n bank)
  refine ⟨fun call st hs hres => (holding.step hpos hs hres).2, ?_, ?_⟩
  · intro env bankId buf size offset henv hfit
    obtain ⟨c', after, hread, -⟩ := holding.read hpos henv hfit bankId buf
    refine ⟨by simp [hread], ?_⟩
    cases hit : c.hits bankId with
    | true =>
      obtain ⟨c', hwrite, -⟩ := holding.write_hit hit env buf size offset
      simp [hwrite]
    | false =>
      obtain ⟨c', hwrite, -⟩ := holding.write_miss hpos henv hit buf size offset
      simp [hwrite]
  · intro env henv
    obtain ⟨c', hpass, -⟩ := holding.rewriteDirtyCache henv
    simp [hpass]

/-- Bank 0 is written in the cache and then evicted for bank 128. -/
theorem cache_transparent_evicted :
    ∃ c w after, Run (guarded WritesResident (CacheStep 2))
      (initClient 2 fun _ _ _ => 0, fun _ _ => none)
      [.write .succeeding 0 (fun _ => 1) 4 0 fun _ => 1,
        .read .succeeding 128 (fun _ => 2) 4 0 after] (c, w) ∧
      ∀ call st, CacheStep 2 (c, w) call st → WritesResident (c, w) call → Transparent w call := by
  have run : ∃ c w after, Run (guarded WritesResident (CacheStep 2))
      (initClient 2 fun _ _ _ => 0, fun _ _ => none)
      [.write .succeeding 0 (fun _ => 1) 4 0 fun _ => 1,
        .read .succeeding 128 (fun _ => 2) 4 0 after] (c, w) :=
    ⟨_, _, _, .cons ⟨rfl, .write (by decide) (by decide) (ExpelEnv.succeeding_succeeds 2) rfl⟩
      (.single ⟨trivial, .read (by decide) (by decide) (ExpelEnv.succeeding_succeeds 2) rfl⟩)⟩
  obtain ⟨c, w, after, h⟩ := run
  exact ⟨c, w, after, h, (cache_transparent (by decide) h).1⟩

/-- The first write to bank 128 misses: the buffer comes back with the bytes of the server. -/
theorem not_transparent_write_miss :
    ∃ call st, CacheStep 1 (initClient 1 fun _ _ _ => 0, fun _ _ => none) call st ∧
      ¬ Transparent (fun _ _ => none) call := by
  refine ⟨.write .succeeding 128 (fun _ => 1) 4 0 _, _,
    .write (by decide) (by decide) (ExpelEnv.succeeding_succeeds 1) rfl, fun h => ?_⟩
  exact absurd (congrFun h 0) (by decide)

end DhmpFs
