import DhmpFs.Cache.Threads

/-!
# Clean slots

A slot that is not dirty can be given away without a write back. Whatever the threads do, its
bytes are those of its bank on a server; servers whose copies differed when they were allocated
hold the same bytes once the bank has been written back.

## Main definitions

* `BackedRun`: the threads, the slots flushed or refilled, and the banks written back.
* `CleanBacked`: clean slots are backed by the servers.
-/

namespace DhmpFs

open Library

/-- The threads, the slots that have been flushed or refilled, and the banks that have been
written back. -/
structure BackedRun where
  threads : Threads
  touched : Set (Fin cacheSize)
  written : Set Nat

/-- The slot a critical section flushes or refills. -/
def touches : Thread → ThreadAction → Set (Fin cacheSize)
  | .flush i, .flush _ => {i}
  | .call q _, .evict _ => {bankSlot q.bankId}
  | _, _ => ∅

/-- The bank a critical section writes to the servers. -/
def writesBack (c : Client) : Thread → ThreadAction → Set Nat
  | .flush i, .flush _ => {(c.caches i).bankId}
  | .call q _, .evict _ =>
      {b | (c.cacheOf q.bankId).dirty = true ∧ b = (c.cacheOf q.bankId).bankId}
  | _, _ => ∅

/-- A step of the threads, recorded. -/
inductive BackedStep : BackedRun → Nat × ThreadAction → BackedRun → Prop where
  | step {r : BackedRun} {s : Threads} {a : Nat × ThreadAction} (h : ThreadsStep r.threads a s) :
      BackedStep r a ⟨s, touches (r.threads.threads a.1) a.2 ∪ r.touched,
        writesBack r.threads.client (r.threads.threads a.1) a.2 ∪ r.written⟩

/-- The remote calls of a step succeed on all `n` servers. -/
def ServersUp (n : Nat) : ThreadAction → Prop
  | .evict env => env.Succeeds n
  | .flush env => env.Succeeds n
  | _ => True

/-- A slot that was flushed or refilled and is not dirty holds its bank's bytes as every server
has them. -/
def CleanEverywhere (n : Nat) (r : BackedRun) : Prop :=
  ∀ i ∈ r.touched, (r.threads.client.caches i).dirty = false → ∀ j < n, ∀ o < bankSize,
    (r.threads.client.caches i).data o =
      (r.threads.client.remote.sList j).bank (r.threads.client.caches i).bankId o

/-- The banks that hold the same bytes on all servers after `dhmp_init`. -/
def AgreedAtStart (n : Nat) (bank : Nat → Nat → Bytes) : Set Nat :=
  {b | ∀ i < n, ∀ j < n, ∀ o < bankSize, bank i b o = bank j b o}

/-- A slot that was flushed or refilled and is not dirty holds its bank's bytes as some server
has them; as every server has them when they agreed at the start or the bank has been written
back. -/
def CleanBacked (n : Nat) (bank : Nat → Nat → Bytes) (r : BackedRun) : Prop :=
  ∀ i ∈ r.touched, (r.threads.client.caches i).dirty = false →
    let held (j : Nat) := ∀ o < bankSize, (r.threads.client.caches i).data o =
      (r.threads.client.remote.sList j).bank (r.threads.client.caches i).bankId o
    (∃ j < n, held j) ∧
      ((r.threads.client.caches i).bankId ∈ AgreedAtStart n bank ∪ r.written → ∀ j < n, held j)

/-- The client's clean slots among `touched` are backed. -/
structure Backed (n : Nat) (agreed : Set Nat) (c : Client) (touched : Set (Fin cacheSize)) :
    Prop where
  direct : Direct c
  up : c.Up n
  sound : WriteBack.CleanSound bankSlot (c.view n) touched agreed

section backed

variable {n : Nat} {agreed : Set Nat} {touched : Set (Fin cacheSize)} {c c' : Client}
  {r : BackedRun} {bank : Nat → Nat → Bytes}

theorem backed_init (n : Nat) (bank : Nat → Nat → Bytes) :
    Backed n (AgreedAtStart n bank) (initClient n bank) ∅ where
  direct := direct_initClient n bank
  up := up_initClient n bank
  sound := by
    refine ⟨fun i => Fin.ext ((direct_initClient n bank).key i i.isLt), fun b hb j j' => ?_,
      fun i hi => absurd hi (Set.notMem_empty i)⟩
    funext o
    exact hb j j.isLt j' j'.isLt o o.isLt

theorem Backed.flush [Nonempty (Fin n)] (h : Backed n agreed c touched) {i : Fin cacheSize}
    {env : WriteEnv} (henv : env.Succeeds n) (hf : c.flush env i = some c') :
    Backed n (insert (c.caches i).bankId agreed) c' (insert i touched) := by
  obtain ⟨c₁, hf₁, hd, hup, hfl⟩ := flush_flushes h.direct h.up i.isLt henv
  obtain rfl := Option.some.inj (hf₁.symm.trans hf)
  exact ⟨hd, hup, h.sound.flushes hfl⟩

/-- An eviction also backs the bank that leaves, if it was dirty. -/
theorem Backed.evict [Nonempty (Fin n)] (hpos : 0 < n) (h : Backed n agreed c touched) {b : Nat}
    {env : ExpelEnv} (henv : env.Succeeds n) (he : c.evict env b = some c') :
    Backed n ({k | (c.cacheOf b).dirty = true ∧ k = (c.cacheOf b).bankId} ∪ agreed) c'
      (insert (bankSlot b) touched) := by
  obtain ⟨c₁, he₁, hd, hup, w, hw, -, hr⟩ := evict_refills h.direct h.up hpos henv b
  obtain rfl := Option.some.inj (he₁.symm.trans he)
  refine ⟨hd, hup, ?_⟩
  have hdirty : bankSlot b ∈ (c.view n).dirty ↔ (c.cacheOf b).dirty = true := by
    rw [h.direct.cacheOf_eq]
    rfl
  rcases hw with ⟨hin, hfl⟩ | ⟨hnot, rfl⟩
  · have hback : {k | (c.cacheOf b).dirty = true ∧ k = (c.cacheOf b).bankId} ∪ agreed =
        insert ((c.view n).label (bankSlot b)) agreed := by
      have hd := hdirty.mp hin
      rw [h.direct.cacheOf_eq] at hd ⊢
      ext k
      simp [hd, Client.view, bankSlot]
    simpa [hback] using (h.sound.flushes hfl).refills hr
  · have hback : {k | (c.cacheOf b).dirty = true ∧ k = (c.cacheOf b).bankId} ∪ agreed =
        agreed := by
      simp [mt hdirty.mpr hnot]
    simpa [hback] using h.sound.refills hr

/-- A step of a thread keeps the clean slots backed. -/
theorem Backed.step (hpos : 0 < n) (h : Backed n agreed c touched) {th th' : Thread}
    {a : ThreadAction} (hs : ThreadStep c th a c' th') (hup : ServersUp n a) :
    Backed n (writesBack c th a ∪ agreed) c' (touches th a ∪ touched) := by
  have : Nonempty (Fin n) := ⟨⟨0, hpos⟩⟩
  have copied (b size offset : Nat) (buf : Bytes) (type : VisitType) :
      Backed n agreed (c.copy b buf size offset type).1 touched := by
    cases type with
    | read => exact h
    | write => exact ⟨h.direct.copy .write, ⟨h.up.serverNum, h.up.connected⟩,
        h.sound.writes (copy_writes h.direct)⟩
  cases hs with
  | copy => simpa [writesBack, touches, CacheRequest.copy] using copied _ _ _ _ _
  | recopy => simpa [writesBack, touches, CacheRequest.copy] using copied _ _ _ _ _
  | evict he => exact h.evict hpos hup he
  | flush hf => exact h.flush hup hf
  | _ => simpa [writesBack, touches] using h

theorem Backed.cleanBacked
    (h : Backed n (AgreedAtStart n bank ∪ r.written) r.threads.client r.touched) :
    CleanBacked n bank r := by
  intro i hi hclean
  have hnot : i ∉ (r.threads.client.view n).dirty := by
    simp [Client.view, hclean]
  refine ⟨?_, fun hb j hj o ho => ?_⟩
  · obtain ⟨j, hj⟩ := h.sound.clean i hi hnot
    exact ⟨j, j.isLt, fun o ho => congrFun hj ⟨o, ho⟩⟩
  · exact congrFun (h.sound.all hi hnot hb ⟨j, hj⟩) ⟨o, ho⟩

/-- Whatever the threads do, clean slots are backed by the servers. -/
theorem cleanBacked_run (hpos : 0 < n) {as : List (Nat × ThreadAction)}
    (h : Run (guarded (fun _ a => ServersUp n a.2) BackedStep) ⟨initThreads n bank, ∅, ∅⟩ as r) :
    CleanBacked n bank r := by
  refine Backed.cleanBacked (h.invariant
    (fun r => Backed n (AgreedAtStart n bank ∪ r.written) r.threads.client r.touched) ?_ ?_)
  · rintro r ⟨t, a⟩ r' hr ⟨hup, ⟨⟨hs⟩⟩⟩
    have := hr.step hpos hs hup
    rwa [Set.union_left_comm] at this
  · simpa [initThreads] using backed_init n bank

/-- Thread 0 writes to bank 0, thread 1 flushes it, and thread 0 reads bank 129. -/
abbrev flushSteps : List (Nat × ThreadAction) :=
  [(0, .start ⟨.write, 0, fun _ => 7, 4, 0⟩), (0, .visit), (0, .copy),
    (1, .flushTest (bankSlot 0)), (0, .ret), (1, .flush ExpelEnv.succeeding.write),
    (0, .start (.reading 129)), (0, .visit), (0, .test), (0, .evict .succeeding)]

/-- The servers differ until the bank is flushed. -/
theorem cleanBacked_run_flush : ∃ r,
    Run (guarded (fun _ a => ServersUp 2 a.2) BackedStep)
      ⟨initThreads 2 fun j _ _ => if j = 0 then 0 else 1, ∅, ∅⟩ flushSteps r ∧
      CleanBacked 2 (fun j _ _ => if j = 0 then 0 else 1) r ∧
      ∀ j < 2, (r.threads.client.remote.sList j).bank 0 3 = 7 := by
  have run : ∃ r, Run (guarded (fun _ a => ServersUp 2 a.2) BackedStep)
        ⟨initThreads 2 fun j _ _ => if j = 0 then 0 else 1, ∅, ∅⟩ flushSteps r ∧
      bankSlot 0 ∈ r.touched ∧ (r.threads.client.caches (bankSlot 0)).dirty = false ∧
      (r.threads.client.caches (bankSlot 0)).bankId = 0 ∧ 0 ∈ r.written ∧
      (r.threads.client.caches (bankSlot 0)).data 3 = 7 :=
    ⟨_, .cons ⟨trivial, .step (.step (.start (by decide) (by decide)))⟩
      (.cons ⟨trivial, .step (.step .visit)⟩ (.cons ⟨trivial, .step (.step .copy)⟩
      (.cons ⟨trivial, .step (.step .flushTest)⟩ (.cons ⟨trivial, .step (.step .ret)⟩
      (.cons ⟨(ExpelEnv.succeeding_succeeds 2).1, .step (.step (.flush rfl))⟩
      (.cons ⟨trivial, .step (.step (.start (by decide) (by decide)))⟩
      (.cons ⟨trivial, .step (.step .visit)⟩ (.cons ⟨trivial, .step (.step .test)⟩
      (.single ⟨ExpelEnv.succeeding_succeeds 2, .step (.step (.evict rfl))⟩))))))))),
      .inr (.inr (.inr (.inr (.inl rfl)))), rfl, rfl, .inr (.inr (.inr (.inr (.inl rfl)))), rfl⟩
  obtain ⟨r, run, touched, clean, label, written, data⟩ := run
  have backed := cleanBacked_run (by decide) run
  obtain ⟨-, held⟩ := backed (bankSlot 0) touched clean
  rw [label] at held
  exact ⟨r, run, backed, fun j hj => (held (.inr written) j hj 3 (by decide)).symm.trans data⟩

/-- Bank 128 holds 0 on server 0 and 1 on server 1 after `dhmp_init`; a refill reads one of
them. -/
theorem not_cleanEverywhere_refill :
    ∃ r, Run (guarded (fun _ a => ServersUp 2 a.2) BackedStep)
      ⟨initThreads 2 fun j _ _ => if j = 0 then 0 else 1, ∅, ∅⟩
      [(0, .start (.reading 128)), (0, .visit), (0, .test), (0, .evict .succeeding)] r ∧
      ¬ CleanEverywhere 2 r := by
  refine ⟨_, .cons ⟨trivial, .step (.step (.start (by decide) (by decide)))⟩
    (.cons ⟨trivial, .step (.step .visit)⟩ (.cons ⟨trivial, .step (.step .test)⟩
      (.single ⟨ExpelEnv.succeeding_succeeds 2, .step (.step (.evict rfl))⟩))), fun h => ?_⟩
  have := h ⟨0, by decide⟩ (.inl rfl) rfl 1 (by decide) 0 (by decide)
  exact absurd this (by decide)

end backed

end DhmpFs
