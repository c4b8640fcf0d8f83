import DhmpFs.Cache.DirtyLoss
import DhmpFs.Cache.Threads

/-!
# The bytes under a label

An eviction changes the labels of a slot before it refills it, and the refill may end without an
answer. The slot then shows the bytes of one bank under the label of another.

## Main definitions

* `Refilled`, `RefillAnswered`: what an eviction is meant to do, and when it does.
* `LabelRun`: the threads, and for each cached byte the bank it belongs to.
* `LabelsHonest`: slots hold, and calls copy, bytes of the bank they are labelled with.
-/

namespace DhmpFs

open Library

/-- The servers after the write back of an eviction. -/
def Client.wroteBack (c : Client) (env : WriteEnv) (newBankId : Nat) : Option Remote :=
  let cache := c.cacheOf newBankId
  if cache.dirty then dhmpFsWriteToRemote c.remote env cache.bankId cache.data bankSize 0
  else some c.remote

/-- The server that the refill of an eviction reads from. -/
def Client.refillServer (c : Client) (env : ExpelEnv) (newBankId : Nat) : Option Nat :=
  (c.wroteBack env.write newBankId).bind fun r => r.readServer env.read

/-- After an eviction the slot holds the bank as it was read from a server. -/
def Refilled (c : Client) (env : ExpelEnv) (b : Nat) (c' : Client) : Prop :=
  ∃ i, c.refillServer env b = some i ∧
    ∀ o < bankSize, (c'.cacheOf b).data o = (c'.remote.sList i).bank b o

/-- The refill is answered, after the write back of a dirty slot. -/
def RefillAnswered (c : Client) (env : ExpelEnv) (b : Nat) : Prop :=
  if (c.cacheOf b).dirty then c.remote.AnswersAfter env else c.remote.Answers env.read

/-- The threads, and the bank each byte of each block belongs to. -/
structure LabelRun where
  threads : Threads
  origin : Nat → Nat → Nat

/-- Bytes of a block are now those of a bank. -/
def markOrigin (origin : Nat → Nat → Nat) (ptr offset size bankId : Nat) : Nat → Nat → Nat :=
  Function.update origin ptr fun o =>
    if offset ≤ o ∧ o < offset + size then bankId else origin ptr o

/-- A copy into the cache brings bytes of its bank, and so does a refill that is answered. -/
def originAfter (c : Client) (origin : Nat → Nat → Nat) : Thread → ThreadAction → Nat → Nat → Nat
  | .call q .copy, .copy =>
    if q.type = .write then markOrigin origin (c.cachePtr q.bankId) q.offset q.size q.bankId
    else origin
  | .call q .evict, .evict env =>
    if (c.refillServer env q.bankId).isSome then
      markOrigin origin (c.cachePtr q.bankId) 0 bankSize q.bankId
    else origin
  | _, _ => origin

/-- A step of the threads with the banks of the bytes. -/
inductive LabelStep : LabelRun → Nat × ThreadAction → LabelRun → Prop where
  | step {s : LabelRun} {s' : Threads} {a : Nat × ThreadAction} (h : ThreadsStep s.threads a s') :
      LabelStep s a ⟨s', originAfter s.threads.client s.origin (s.threads.threads a.1) a.2⟩

/-- After `dhmp_init` the zeros of block `i` count as those of bank `i`. -/
def initLabels (serverNum : Nat) (bank : Nat → Nat → Bytes) : LabelRun :=
  ⟨initThreads serverNum bank, fun i _ => i⟩

/-- Slots hold bytes of the bank they are labelled with, and a call about to copy finds bytes of
its bank. -/
structure LabelsHonest (s : LabelRun) : Prop where
  slots : ∀ i < cacheSize, ∀ o < bankSize, s.origin i o = (s.threads.client.caches i).bankId
  delivered : ∀ t q pc, s.threads.threads t = .call q pc → pc = .copy ∨ pc = .recopy →
    ∀ o < q.size, s.origin (s.threads.client.cachePtr q.bankId) (q.offset + o) = q.bankId

/-- An eviction is answered, and takes its slot from no thread that has seen its bank there. -/
def LabelKept (s : LabelRun) (a : Nat × ThreadAction) : Prop :=
  EvictsUnseen s.threads a ∧
    ∀ env q, a.2 = .evict env → s.threads.threads a.1 = .call q .evict →
      RefillAnswered s.threads.client env q.bankId

/-! ## Evictions -/

section evict

variable {c c' : Client} {env : ExpelEnv} {b : Nat}

/-- An eviction is the write back, the labels and the refill. -/
theorem evict_wroteBack (h : c.evict env b = some c') :
    ∃ r r' data, c.wroteBack env.write b = some r ∧
      dhmpFsReadFromRemote r env.read b (c.cacheOf b).data bankSize 0 = some (r', data) ∧
      c'.remote = r' ∧ c'.cacheOf b = ⟨data, b, false⟩ := by
  unfold Client.evict at h
  dsimp only at h
  obtain ⟨r, hw, hmap⟩ := Option.bind_eq_some_iff.mp h
  obtain ⟨⟨r', data⟩, hr, rfl⟩ := Option.map_eq_some_iff.mp hmap
  refine ⟨r, r', data, hw, hr, rfl, ?_⟩
  have hptr : ∀ key, (Function.update c.cacheHash key ⟨b, (c.cacheHash key).cachePtr⟩
      (cacheKey b)).cachePtr = (c.cacheHash (cacheKey b)).cachePtr := by
    intro key
    rcases eq_or_ne (cacheKey b) key with rfl | hne <;> simp [*]
  simp [Client.cacheOf, Client.cachePtr, hptr]

/-- The refill is answered exactly where the servers permit it. -/
theorem refillServer_isSome (h : c.evict env b = some c') :
    (∃ i, c.refillServer env b = some i) ↔ RefillAnswered c env b := by
  obtain ⟨r, r', data, hw, hr, -, -⟩ := evict_wroteBack h
  have hserver : c.refillServer env b = r.readServer env.read := by
    simp [Client.refillServer, hw]
  rw [hserver, Remote.readServer_isSome hr]
  unfold Client.wroteBack at hw
  unfold RefillAnswered
  dsimp only at hw
  split at hw
  · next hd =>
    have hnum := (dhmpFsWriteToRemote_spec hw).1
    have hpos : 0 < c.remote.serverNum := by
      rw [← hnum, Nat.pos_iff_ne_zero]
      intro h0
      simp [dhmpFsReadFromRemote, h0] at hr
    rw [if_pos hd, write_answers_iff hpos hw]
  · next hd =>
    obtain rfl := Option.some.inj hw
    rw [if_neg hd]

theorem refilled_iff (h : c.evict env b = some c') :
    Refilled c env b c' ↔ RefillAnswered c env b := by
  rw [← refillServer_isSome h]
  refine exists_congr fun i => and_iff_left_of_imp fun hi o ho => ?_
  obtain ⟨r, r', data, hw, hr, hremote, hcache⟩ := evict_wroteBack h
  have hserver : r.readServer env.read = some i := by
    simpa [Client.refillServer, hw] using hi
  rw [hcache, hremote, (read_outcome hr).2.2 i hserver]
  simp [readBytes, ho]

end evict

/-! ## Runs -/

section run

variable {c c' : Client} {s s' : LabelRun} {origin : Nat → Nat → Nat} {ptr offset size b o : Nat}

theorem markOrigin_self : markOrigin origin ptr offset size b ptr o =
    if offset ≤ o ∧ o < offset + size then b else origin ptr o := by
  simp [markOrigin]

theorem markOrigin_ne {i : Nat} (h : i ≠ ptr) :
    markOrigin origin ptr offset size b i = origin i := by
  simp [markOrigin, h]

/-- The arguments of a call in progress are in range. -/
def Thread.Fits : Thread → Prop
  | .call q _ => q.offset + q.size ≤ bankSize
  | _ => True

/-- What holds of the blocks and the threads in every state. -/
structure LabelSafe (s : LabelRun) : Prop where
  safe : CacheSafe s.threads
  fits : ∀ t, (s.threads.threads t).Fits
  slots : ∀ i < cacheSize, ∀ o < bankSize, s.origin i o = (s.threads.client.caches i).bankId

theorem labelSafe_init (serverNum : Nat) (bank : Nat → Nat → Bytes) :
    LabelSafe (initLabels serverNum bank) :=
  ⟨cacheSafe_initThreads serverNum bank, fun _ => trivial, fun _ _ _ _ => rfl⟩

theorem LabelSafe.honest (h : LabelSafe s) : LabelsHonest s := by
  refine ⟨h.slots, fun t q pc ht hpc o ho => ?_⟩
  have hlabel := h.safe.access.copies t q pc ht hpc
  have hfits := h.fits t
  rw [ht] at hfits
  rw [h.safe.direct.cacheOf_eq] at hlabel
  rw [h.safe.direct.cachePtr_eq, h.slots _ (cacheKey_lt _) _ ?_, hlabel]
  exact Nat.lt_of_lt_of_le (Nat.add_lt_add_left ho _) hfits

theorem ThreadStep.fits {th th' : Thread} {a : ThreadAction} (h : ThreadStep c th a c' th')
    (hfits : th.Fits) : th'.Fits := by
  cases h with
  | start hbank hfit => exact hfit
  | ret | flush => trivial
  | flushTest => split <;> trivial
  | _ => exact hfits

/-- A step of one thread keeps the blocks' bytes under their labels. -/
theorem ThreadStep.slots {th th' : Thread} {a : ThreadAction} (h : ThreadStep c th a c' th')
    (hd : Direct c) (hsafe : th.Safe c)
    (hslots : ∀ i < cacheSize, ∀ o < bankSize, origin i o = (c.caches i).bankId)
    (hanswered : ∀ env q, a = .evict env → th = .call q .evict → RefillAnswered c env q.bankId) :
    ∀ i < cacheSize, ∀ o < bankSize,
      originAfter c origin th a i o = (c'.caches i).bankId := by
  intro i hi o ho
  cases h with
  | @copy q =>
    have hlabel := hsafe.1 (.inl rfl)
    rw [CacheRequest.copy, copy_bankId]
    simp only [originAfter]
    split
    · rcases eq_or_ne i (cacheKey q.bankId) with rfl | hne
      · rw [hd.cachePtr_eq, markOrigin_self]
        split
        · exact hlabel.symm
        · exact hslots _ hi o ho
      · rw [hd.cachePtr_eq, markOrigin_ne hne]
        exact hslots i hi o ho
    · exact hslots i hi o ho
  | @evict _ q env he =>
    obtain ⟨-, hlabel, hframe⟩ := hd.evict he
    obtain ⟨server, hserver⟩ := (refillServer_isSome he).mpr (hanswered env q rfl rfl)
    simp only [originAfter, hserver, Option.isSome_some, if_true, hd.cachePtr_eq]
    rcases eq_or_ne i (cacheKey q.bankId) with rfl | hne
    · rw [markOrigin_self, if_pos ⟨Nat.zero_le o, by simpa using ho⟩, hlabel]
    · rw [markOrigin_ne hne, hframe i hne]
      exact hslots i hi o ho
  | recopy =>
    rw [CacheRequest.copy, copy_bankId]
    exact hslots i hi o ho
  | flush hf =>
    rw [flush_bankId hf]
    exact hslots i hi o ho
  | _ => exact hslots i hi o ho

theorem LabelSafe.step {a : Nat × ThreadAction} (h : LabelSafe s) (hs : LabelStep s a s')
    (hkept : LabelKept s a) : LabelSafe s' := by
  cases hs with
  | step hthreads =>
    have hsafe := h.safe.step hthreads hkept.1
    cases hthreads with
    | @step t a c th hstep =>
      refine ⟨hsafe, fun u => ?_, ?_⟩
      · rcases eq_or_ne u t with rfl | hu
        · simpa using hstep.fits (h.fits u)
        · simpa [hu] using h.fits u
      · exact hstep.slots h.safe.direct (h.safe.safe t) h.slots hkept.2

/-- In every run in which each eviction is answered, and takes its slot from no thread that has
seen its bank there, calls copy bytes of their bank only. An eviction in any state leaves a slot
that has its label and the bytes of its bank exactly when it is answered. -/
theorem label_run {serverNum : Nat} {bank : Nat → Nat → Bytes} {as : List (Nat × ThreadAction)}
    (h : Run (guarded LabelKept LabelStep) (initLabels serverNum bank) as s) :
    LabelsHonest s ∧ ∀ env b c', s.threads.client.evict env b = some c' →
      ((c'.hits b = true → Refilled s.threads.client env b c') ↔
        RefillAnswered s.threads.client env b) := by
  have hsafe : LabelSafe s := h.invariant LabelSafe (fun _ _ _ hc hs => hc.step hs.2 hs.1)
    (labelSafe_init serverNum bank)
  refine ⟨hsafe.honest, fun env b c' he => ?_⟩
  obtain ⟨hd, hlabel, -⟩ := hsafe.safe.direct.evict he
  rw [← refilled_iff he, hd.hits_iff.mpr hlabel]
  simp

/-- Thread 0 reads bank 128, and the only server answers. -/
theorem label_run_evict :
    ∃ s, Run (guarded LabelKept LabelStep) (initLabels 1 fun _ _ _ => 0)
      [(0, .start (.reading 128)), (0, .visit), (0, .test), (0, .evict .succeeding)] s ∧
      LabelsHonest s := by
  have run : ∃ s, Run (guarded LabelKept LabelStep) (initLabels 1 fun _ _ _ => 0)
      [(0, .start (.reading 128)), (0, .visit), (0, .test), (0, .evict .succeeding)] s := by
    refine ⟨_, .cons ⟨⟨trivial, by simp⟩, .step (.step (.start (by decide) (by decide)))⟩
      (.cons ⟨⟨trivial, by simp⟩, .step (.step .visit)⟩
        (.cons ⟨⟨trivial, by simp⟩, .step (.step .test)⟩
          (.single ⟨⟨?_, ?_⟩, .step (.step (.evict rfl))⟩)))⟩
    · intro _ _ u hu q' pc hth
      simp [initLabels, initThreads, hu] at hth
    · rintro env q ⟨⟩ -
      exact .inl ⟨0, by decide, by decide, rfl⟩
  obtain ⟨s, h⟩ := run
  exact ⟨s, h, (label_run h).1⟩

/-- The only server takes bank 0 back and then fails: a call for bank 128 is about to copy a byte
of bank 0. -/
theorem not_labelsHonest_unanswered :
    ∃ s, Run LabelStep (initLabels 1 fun _ _ _ => 0)
      [(0, .start ⟨.write, 0, fun _ => 7, 4, 0⟩), (0, .visit), (0, .copy), (0, .ret),
        (0, .start (.reading 128)), (0, .visit), (0, .test),
        (0, .evict ⟨⟨fun _ => true, fun _ => 0⟩, ⟨0, fun _ => false⟩⟩), (0, .revisit)] s ∧
      ¬ LabelsHonest s ∧ (s.threads.client.cacheOf 128).data 0 = 7 ∧
      (s.threads.client.remote.sList 0).bank 128 0 = 0 := by
  refine ⟨_, .cons (.step (.step (.start (by decide) (by decide))))
    (.cons (.step (.step .visit)) (.cons (.step (.step .copy)) (.cons (.step (.step .ret))
      (.cons (.step (.step (.start (by decide) (by decide)))) (.cons (.step (.step .visit))
        (.cons (.step (.step .test)) (.cons (.step (.step (.evict rfl)))
          (.single (.step (.step .revisit)))))))))), fun h => ?_, rfl, rfl⟩
  exact absurd (h.delivered 0 (.reading 128) .recopy rfl (.inr rfl) 0 (by decide)) (by decide)

end run

end DhmpFs
