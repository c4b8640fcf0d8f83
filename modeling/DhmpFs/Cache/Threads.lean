import DhmpFs.Cache.Sections
import DhmpFs.Library.Run

/-!
# Threads at the cache

Any number of threads call `dhmp_fs_read_from_cache` and `dhmp_fs_write_to_cache` or flush a
slot. A step of a thread is a comparison, a copy, the early exit of an eviction, or a critical
section. Between a comparison and the copy that follows it another thread may evict the slot.

## Main definitions

* `Thread`, `ThreadStep`: where a thread stands and what it does next.
* `CacheAccess`: copies touch the bank they are for, and no call returns without one.
* `EvictsUnseen`: the condition on an eviction.
-/

namespace DhmpFs

open Library

/-- The arguments of a call. -/
structure CacheRequest where
  type : VisitType
  bankId : Nat
  buf : Bytes
  size : Nat
  offset : Nat

/-- Where a call stands: at the first comparison, at its copy, at the early exit, at the
critical section of the eviction, at the second comparison, at its copy, or done. -/
inductive CachePc where
  | visit
  | copy
  | test
  | evict
  | revisit
  | recopy
  | ret (copied : Bool)
  deriving DecidableEq, Repr

/-- A thread is idle, in a call, or about to flush a slot it has seen dirty. -/
inductive Thread where
  | idle
  | call (q : CacheRequest) (pc : CachePc)
  | flush (i : Fin cacheSize)

inductive ThreadAction where
  | start (q : CacheRequest)
  | visit
  | copy
  | test
  | evict (env : ExpelEnv)
  | revisit
  | recopy
  | ret
  | flushTest (i : Fin cacheSize)
  | flush (env : WriteEnv)

/-- The copy of a call. The second visit always reads. -/
def CacheRequest.copy (q : CacheRequest) (c : Client) (type : VisitType) : Client × Bytes :=
  c.copy q.bankId q.buf q.size q.offset type

/-- One step of one thread. -/
inductive ThreadStep : Client → Thread → ThreadAction → Client → Thread → Prop where
  | start {c : Client} {q : CacheRequest} (hbank : q.bankId < bankNum)
      (hfit : q.offset + q.size ≤ bankSize) :
      ThreadStep c .idle (.start q) c (.call q .visit)
  | visit {c : Client} {q : CacheRequest} :
      ThreadStep c (.call q .visit) .visit c (.call q (if c.hits q.bankId then .copy else .test))
  | copy {c : Client} {q : CacheRequest} :
      ThreadStep c (.call q .copy) .copy (q.copy c q.type).1
        (.call { q with buf := (q.copy c q.type).2 } (.ret true))
  | test {c : Client} {q : CacheRequest} :
      ThreadStep c (.call q .test) .test c
        (.call q (if c.isResident q.bankId then .revisit else .evict))
  | evict {c c' : Client} {q : CacheRequest} {env : ExpelEnv}
      (h : c.evict env q.bankId = some c') :
      ThreadStep c (.call q .evict) (.evict env) c' (.call q .revisit)
  | revisit {c : Client} {q : CacheRequest} :
      ThreadStep c (.call q .revisit) .revisit c
        (.call q (if c.hits q.bankId then .recopy else .ret false))
  | recopy {c : Client} {q : CacheRequest} :
      ThreadStep c (.call q .recopy) .recopy (q.copy c .read).1
        (.call { q with buf := (q.copy c .read).2 } (.ret true))
  | ret {c : Client} {q : CacheRequest} {copied : Bool} :
      ThreadStep c (.call q (.ret copied)) .ret c .idle
  | flushTest {c : Client} {i : Fin cacheSize} :
      ThreadStep c .idle (.flushTest i) c (if c.isDirty i then .flush i else .idle)
  | flush {c c' : Client} {i : Fin cacheSize} {env : WriteEnv} (h : c.flush env i = some c') :
      ThreadStep c (.flush i) (.flush env) c' .idle

/-- The client and its threads. -/
structure Threads where
  client : Client
  threads : Nat → Thread

/-- The thread `a.1` takes the step `a.2`. -/
inductive ThreadsStep : Threads → Nat × ThreadAction → Threads → Prop where
  | step {s : Threads} {t : Nat} {a : ThreadAction} {c : Client} {th : Thread}
      (h : ThreadStep s.client (s.threads t) a c th) :
      ThreadsStep s (t, a) ⟨c, Function.update s.threads t th⟩

/-- After `dhmp_init` all threads are idle. -/
def initThreads (serverNum : Nat) (bank : Nat → Nat → Bytes) : Threads :=
  ⟨initClient serverNum bank, fun _ => .idle⟩

/-- Every copy about to be made for a bank is at a slot with its label, and every call about to
return has made one. -/
structure CacheAccess (s : Threads) : Prop where
  copies : ∀ t q pc, s.threads t = .call q pc → pc = .copy ∨ pc = .recopy →
    (s.client.cacheOf q.bankId).bankId = q.bankId
  returns : ∀ t q copied, s.threads t = .call q (.ret copied) → copied = true

/-- A call that has seen its bank in the slot and has yet to copy. -/
def CachePc.Sees (pc : CachePc) : Prop := pc = .copy ∨ pc = .revisit ∨ pc = .recopy

/-- An eviction meets no other thread that has seen another bank in the slot. -/
def EvictsUnseen (s : Threads) : Nat × ThreadAction → Prop
  | (t, .evict _) => ∀ q, s.threads t = .call q .evict →
      ∀ u ≠ t, ∀ q' pc, s.threads u = .call q' pc → pc.Sees →
        cacheKey q'.bankId = cacheKey q.bankId → q'.bankId = q.bankId
  | _ => True

/-- A thread that has seen its bank still would. -/
def Thread.Safe (c : Client) : Thread → Prop
  | .call q pc =>
      (pc.Sees → (c.caches (cacheKey q.bankId)).bankId = q.bankId) ∧ pc ≠ .ret false
  | _ => True

structure CacheSafe (s : Threads) : Prop where
  direct : Direct s.client
  safe : ∀ t, (s.threads t).Safe s.client

section access

variable {s s' : Threads} {c c' : Client} {th th' : Thread} {a : ThreadAction}

theorem CacheSafe.access (h : CacheSafe s) : CacheAccess s where
  copies t q pc ht hpc := by
    have := h.safe t
    simp only [ht, Thread.Safe] at this
    rw [h.direct.cacheOf_eq]
    exact this.1 (by rcases hpc with rfl | rfl <;> simp [CachePc.Sees])
  returns t q copied ht := by
    have := h.safe t
    simp only [ht, Thread.Safe, ne_eq, CachePc.ret.injEq, Bool.not_eq_false] at this
    exact this.2

/-- What a thread is safe of depends on the labels only. -/
theorem Thread.Safe.congr (h : th.Safe c)
    (hbank : ∀ j, (c'.caches j).bankId = (c.caches j).bankId) : th.Safe c' := by
  cases th with
  | call q pc => exact ⟨fun hs => by rw [hbank]; exact h.1 hs, h.2⟩
  | _ => trivial

/-- A step other than an eviction leaves the labels alone and its thread safe. -/
theorem ThreadStep.safe (h : ThreadStep c th a c' th') (hd : Direct c) (hs : th.Safe c)
    (ha : ∀ env, a ≠ .evict env) :
    Direct c' ∧ th'.Safe c' ∧ ∀ j, (c'.caches j).bankId = (c.caches j).bankId := by
  cases h with
  | start hbank hfit => exact ⟨hd, ⟨by simp [CachePc.Sees], by simp⟩, fun _ => rfl⟩
  | visit =>
    refine ⟨hd, ?_, fun _ => rfl⟩
    split
    · next hit => exact ⟨fun _ => hd.hits_iff.mp hit, by simp⟩
    · exact ⟨by simp [CachePc.Sees], by simp⟩
  | copy =>
    exact ⟨hd.copy _, ⟨by simp [CachePc.Sees], by simp⟩, copy_bankId c _ _ _ _ _⟩
  | test =>
    refine ⟨hd, ?_, fun _ => rfl⟩
    split
    · next hres =>
      refine ⟨fun _ => hd.hits_iff.mp ?_, by simp⟩
      rw [hd.hits_eq]
      exact hres
    · exact ⟨by simp [CachePc.Sees], by simp⟩
  | evict he => exact absurd rfl (ha _)
  | revisit =>
    have hlabel := hs.1 (by simp [CachePc.Sees])
    refine ⟨hd, ?_, fun _ => rfl⟩
    simp only [hd.hits_iff.mpr hlabel, if_true]
    exact ⟨fun _ => hlabel, by simp⟩
  | recopy =>
    exact ⟨hd.copy _, ⟨by simp [CachePc.Sees], by simp⟩, copy_bankId c _ _ _ _ _⟩
  | ret => exact ⟨hd, trivial, fun _ => rfl⟩
  | flushTest =>
    refine ⟨hd, ?_, fun _ => rfl⟩
    split <;> trivial
  | flush hf => exact ⟨hd.flush hf, trivial, flush_bankId hf⟩

/-- A step that meets the condition keeps every thread safe. -/
theorem CacheSafe.step {a : Nat × ThreadAction} (h : CacheSafe s) (hs : ThreadsStep s a s')
    (hunseen : EvictsUnseen s a) : CacheSafe s' := by
  cases hs with
  | @step t a c th hstep =>
    have others (c : Client) (hd : Direct c) (hown : th.Safe c)
        (hother : ∀ u ≠ t, (s.threads u).Safe c) :
        CacheSafe ⟨c, Function.update s.threads t th⟩ := by
      refine ⟨hd, fun u => ?_⟩
      rcases eq_or_ne u t with rfl | hu
      · simpa using hown
      · simpa [hu] using hother u hu
    by_cases ha : ∃ env, a = .evict env
    · obtain ⟨env, rfl⟩ := ha
      generalize ht : s.threads t = th₀ at hstep
      cases hstep with
      | @evict _ q _ he =>
        obtain ⟨hd, hlabel, hframe⟩ := h.direct.evict he
        refine others c hd ⟨fun _ => hlabel, by simp⟩ fun u hu => ?_
        have hsafe := h.safe u
        cases hth : s.threads u with
        | call q' pc =>
          rw [hth] at hsafe
          refine ⟨fun hsees => ?_, hsafe.2⟩
          rcases eq_or_ne (cacheKey q'.bankId) (cacheKey q.bankId) with hkey | hkey
          · rw [hkey, hlabel, hunseen q ht u hu q' pc hth hsees hkey]
          · rw [hframe _ hkey]
            exact hsafe.1 hsees
        | _ => trivial
    · obtain ⟨hd, hown, hbank⟩ := hstep.safe h.direct (h.safe t) fun env he => ha ⟨env, he⟩
      exact others c hd hown fun u _ => (h.safe u).congr hbank

/-- An eviction that does not meet the condition leaves a thread whose next step copies at a slot
of another bank, or returns without a copy. -/
theorem CacheSafe.evict_seen {t : Nat} {env : ExpelEnv} (h : CacheSafe s)
    (hs : ThreadsStep s (t, .evict env) s') (hseen : ¬ EvictsUnseen s (t, .evict env)) :
    ∃ as s'', Run ThreadsStep s' as s'' ∧ ¬ CacheAccess s'' := by
  simp only [EvictsUnseen, not_forall] at hseen
  obtain ⟨q, ht, u, hu, q', pc, hth, hsees, hkey, hne⟩ := hseen
  cases hs with
  | @step _ _ c th hstep =>
    rw [ht] at hstep
    cases hstep with
    | evict he =>
      obtain ⟨hd, hlabel, -⟩ := h.direct.evict he
      have hwrong : (c.caches (cacheKey q'.bankId)).bankId ≠ q'.bankId := by
        rw [hkey, hlabel]
        exact fun he => hne he.symm
      have hth' : Function.update s.threads t (.call q .revisit) u = .call q' pc := by
        simp [hu, hth]
      rcases hsees with hpc | rfl | hpc
      · refine ⟨[], _, .refl _, fun hacc => hwrong ?_⟩
        rw [← hd.cacheOf_eq]
        exact hacc.copies u q' pc hth' (.inl hpc)
      · have hmiss : c.hits q'.bankId = false := by
          simpa [← hd.hits_iff] using hwrong
        have hstep : ThreadStep c (.call q' .revisit) .revisit c (.call q' (.ret false)) := by
          have := @ThreadStep.revisit c q'
          simpa [hmiss] using this
        have hrun : ThreadsStep ⟨c, Function.update s.threads t (.call q .revisit)⟩ (u, .revisit)
            ⟨c, Function.update (Function.update s.threads t (.call q .revisit)) u
              (.call q' (.ret false))⟩ := .step (by simpa only [hth'] using hstep)
        refine ⟨_, _, .single hrun, fun hacc => ?_⟩
        exact absurd (hacc.returns u q' false (by simp)) (by simp)
      · refine ⟨[], _, .refl _, fun hacc => hwrong ?_⟩
        rw [← hd.cacheOf_eq]
        exact hacc.copies u q' pc hth' (.inr hpc)

theorem cacheSafe_initThreads (serverNum : Nat) (bank : Nat → Nat → Bytes) :
    CacheSafe (initThreads serverNum bank) :=
  ⟨direct_initClient serverNum bank, fun _ => trivial⟩

/-- In every run of the threads in which no eviction takes a slot from a thread that has seen
its bank there, all copies are at the right slot and no call returns without one. Any other
eviction lets the run go on to a state where this fails. -/
theorem cacheAccess_run {serverNum : Nat} {bank : Nat → Nat → Bytes}
    {as : List (Nat × ThreadAction)}
    (h : Run (guarded EvictsUnseen ThreadsStep) (initThreads serverNum bank) as s) :
    CacheAccess s ∧ ∀ a s', ThreadsStep s a s' → ¬ EvictsUnseen s a →
      ∃ as' s'', Run ThreadsStep s' as' s'' ∧ ¬ CacheAccess s'' := by
  have hsafe : CacheSafe s :=
    h.invariant CacheSafe (fun _ _ _ hc hs => hc.step hs.2 hs.1)
      (cacheSafe_initThreads serverNum bank)
  refine ⟨hsafe.access, fun a s' hs hseen => ?_⟩
  obtain ⟨t, a⟩ := a
  cases a with
  | evict env => exact hsafe.evict_seen hs hseen
  | _ => exact absurd trivial hseen

/-- A read of four bytes. -/
def CacheRequest.reading (bankId : Nat) : CacheRequest := ⟨.read, bankId, fun _ => 0, 4, 0⟩

/-- Thread 0 has copied bank 0 and not returned when thread 1 evicts it for bank 128. -/
theorem cacheAccess_run_evict : ∃ s,
    Run (guarded EvictsUnseen ThreadsStep) (initThreads 1 fun _ _ _ => 0)
      [(0, .start (.reading 0)), (0, .visit), (1, .start (.reading 128)), (1, .visit), (1, .test),
        (0, .copy), (1, .evict .succeeding), (1, .revisit)] s ∧
      (∃ q, s.threads 0 = .call q (.ret true)) ∧ s.threads 1 = .call (.reading 128) .recopy ∧
      CacheAccess s := by
  have run : ∃ s, Run (guarded EvictsUnseen ThreadsStep) (initThreads 1 fun _ _ _ => 0)
      [(0, .start (.reading 0)), (0, .visit), (1, .start (.reading 128)), (1, .visit), (1, .test),
        (0, .copy), (1, .evict .succeeding), (1, .revisit)] s ∧
      (∃ q, s.threads 0 = .call q (.ret true)) ∧ s.threads 1 = .call (.reading 128) .recopy := by
    refine ⟨_, .cons ⟨trivial, .step (.start (by decide) (by decide))⟩
      (.cons ⟨trivial, .step .visit⟩ (.cons ⟨trivial, .step (.start (by decide) (by decide))⟩
      (.cons ⟨trivial, .step .visit⟩ (.cons ⟨trivial, .step .test⟩ (.cons ⟨trivial, .step .copy⟩
      (.cons ⟨?_, .step (.evict rfl)⟩ (.single ⟨trivial, .step .revisit⟩))))))), ⟨_, rfl⟩, rfl⟩
    intro q _ u hu q' pc hth hsees
    by_cases h0 : u = 0
    · subst h0
      obtain rfl : CachePc.ret true = pc := (Thread.call.inj hth).2
      simp [CachePc.Sees] at hsees
    · simp [initThreads, hu, h0] at hth
  obtain ⟨s, h, h0, h1⟩ := run
  exact ⟨s, h, h0, h1, (cacheAccess_run h).1⟩

/-- Thread 0 sees bank 0 in slot 0; before it copies, thread 1 evicts the slot for bank 128. -/
theorem not_cacheAccess_evict :
    ∃ s, Run ThreadsStep (initThreads 1 fun _ _ _ => 0)
      [(0, .start (.reading 0)), (0, .visit), (1, .start (.reading 128)), (1, .visit), (1, .test),
        (1, .evict .succeeding)] s ∧ ¬ CacheAccess s := by
  refine ⟨_, .cons (.step (.start (by decide) (by decide))) (.cons (.step .visit)
    (.cons (.step (.start (by decide) (by decide))) (.cons (.step .visit) (.cons (.step .test)
      (.single (.step (.evict rfl))))))), fun h => ?_⟩
  exact absurd (h.copies 0 _ .copy rfl (.inl rfl)) (by decide)

end access

end DhmpFs
