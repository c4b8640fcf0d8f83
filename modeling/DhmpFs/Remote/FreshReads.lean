import DhmpFs.Remote.RedoList
import DhmpFs.Remote.ReadFailover
import Mathlib.Order.Interval.Set.LinearOrder

/-!
# Fresh reads

A server that misses a flush is DISCONNECT until `fuse_recover` takes it back, but its transport
may be up again before. A read asks the server it chooses first unless that is reconnecting or
recovering, so a DISCONNECT server that can be reached answers. And a recovery copies only what
the journal or a full `use_bank_len` tells it to. Reads stay fresh as long as no flush has been
missed by a server that is asked or handed back: the history of the flushes, of the server states
and of the copies and replays tells.

## Main definitions

* `FreshRun`, `FreshStep`: flushes, reads, transports and recoveries, with the flushes that each
  bank of each server has received.
* `Fresh`: a bank of a server has received all flushes that succeeded somewhere.
* `NoFlushSince`: no flush of a bank since a server was last connected, or had it made up for.
* `KeepsFresh`: the condition on a step.
-/

namespace DhmpFs

open Library

/-- The servers, the recovery that is under way, the transports that are up, the number of
successful flushes of each bank, the flushes whose bytes have reached each bank of each server,
and those in the buffer of the recovery.

`asOf` dates the banks by the number of their successful flushes: those of a connected server are
as of now, those of any other as of when it was last connected. A copy or replay of a bank passes
on the date of the bytes that were read (`bufferAsOf`), and new banks are as of the start. -/
structure FreshRun where
  remote : Remote
  recovery : Option Recovery
  linked : Nat → Bool
  flushed : Nat → Nat
  received : Nat → Nat → Set Nat
  buffered : Set Nat
  asOf : Nat → Nat → Nat
  bufferAsOf : Nat

inductive FreshAction where
  | flush (env : WriteEnv) (bankId : Nat) (buf : Bytes)
  | read (env : ReadEnv) (bankId : Nat) (buf : Bytes) (size offset : Nat)
  | link (i : Nat) (up : Bool)
  | start (recover : Nat)
  | step (out : RecoverOut)

/-- A connected server takes the flush. -/
def takesFlush (r : Remote) (env : WriteEnv) (i : Nat) : Bool :=
  i < r.serverNum && (r.sList i).serverState = .connected && env.ok i

/-- A flush that some server takes counts. -/
def flushedAfter (r : Remote) (env : WriteEnv) (bankId : Nat) (flushed : Nat → Nat) : Nat → Nat :=
  if (List.range r.serverNum).any (takesFlush r env) then
    Function.update flushed bankId (flushed bankId + 1)
  else flushed

def receivedAfterFlush (r : Remote) (env : WriteEnv) (bankId : Nat) (flushed : Nat → Nat)
    (received : Nat → Nat → Set Nat) : Nat → Nat → Set Nat := fun i b =>
  if b = bankId ∧ takesFlush r env i = true then insert (flushed b) (received i b)
  else received i b

/-- The banks of the connected servers are as of the last flush. -/
def asOfConnected (r : Remote) (flushed : Nat → Nat) (asOf : Nat → Nat → Nat) : Nat → Nat → Nat :=
  fun i b => if i < r.serverNum ∧ (r.sList i).serverState = .connected then flushed b else asOf i b

/-- What is known of one bank of a server becomes what is known of the buffer. -/
def receive {α : Type} (received : Nat → Nat → α) (i bankId : Nat) (buffered : α) :
    Nat → Nat → α :=
  Function.update received i (Function.update (received i) bankId buffered)

theorem receive_apply {α : Type} (received : Nat → Nat → α) (i bankId : Nat) (buffered : α)
    (j b : Nat) : receive received i bankId buffered j b =
      if j = i ∧ b = bankId then buffered else received j b := by
  unfold receive
  rcases eq_or_ne j i with rfl | hj
  · simp [Function.update_apply]
  · simp [hj]

namespace Recovery

/-- The server that a step calls. -/
def target (c : Recovery) : Option Nat :=
  match c.pc with
  | .copyBanks _ | .copyJournal _ _ | .replayActive _ _ => some c.active
  | .copyBanksWrite _ _ | .copyJournalWrite _ _ _ | .replayRecover _ _ => some c.recover
  | .replayRead _ _ latest => some latest
  | _ => none

section

variable {α : Type}

/-- What is known of the buffer after a step that reads a bank into it: what is known of the
bank. `new` is what is known of memory that `dhmp_malloc` or `malloc` returned. -/
def bufferedAfter (new : α) (c : Recovery) (ok : Bool) (received : Nat → Nat → α)
    (buffered : α) : α :=
  match c.pc with
  | .copyBanks (i :: _) => if ok then received c.active i else buffered
  | .copyJournal bankFlag (task :: _) =>
    if bankFlag task.bankId then buffered else if ok then received c.active task.bankId else new
  | .replayRead _ task latest => if ok then received latest task.bankId else buffered
  | _ => buffered

/-- What is known of the banks after a step: new banks are new, and a whole bank that is written
is what is in the buffer. -/
def receivedAfter (new : α) (c : Recovery) (ok : Bool) (buffered : α)
    (received : Nat → Nat → α) : Nat → Nat → α :=
  match c.pc with
  | .remalloc => Function.update received c.recover fun _ => new
  | .copyBanksWrite i _ | .copyJournalWrite _ i _ =>
    if ok then receive received c.recover i buffered else received
  | .replayActive _ task =>
    if ok ∧ task.bankOffset = 0 ∧ bankSize ≤ task.size then
      receive received c.active task.bankId buffered
    else received
  | .replayRecover _ task =>
    if ok ∧ task.bankOffset = 0 ∧ bankSize ≤ task.size then
      receive received c.recover task.bankId buffered
    else received
  | _ => received

end

end Recovery

/-- One step. A remote call succeeds only where the transport is up; a call of `fuse_recover`
during a recovery returns at once. -/
inductive FreshStep : FreshRun → FreshAction → FreshRun → Prop where
  | flush {s : FreshRun} {env : WriteEnv} {bankId : Nat} {buf : Bytes} {r : Remote}
      (hlink : ∀ i, env.ok i = true → s.linked i = true)
      (h : dhmpFsWriteToRemote s.remote env bankId buf bankSize 0 = some r) :
      FreshStep s (.flush env bankId buf) { s with
        remote := r
        flushed := flushedAfter s.remote env bankId s.flushed
        received := receivedAfterFlush s.remote env bankId s.flushed s.received
        asOf := asOfConnected r (flushedAfter s.remote env bankId s.flushed) s.asOf }
  | read {s : FreshRun} {env : ReadEnv} {bankId size offset : Nat} {buf buf' : Bytes} {r : Remote}
      (hlink : ∀ i, env.ok i = true → s.linked i = true)
      (h : dhmpFsReadFromRemote s.remote env bankId buf size offset = some (r, buf')) :
      FreshStep s (.read env bankId buf size offset) { s with remote := r }
  | link {s : FreshRun} {i : Nat} {up : Bool} :
      FreshStep s (.link i up) { s with linked := Function.update s.linked i up }
  | rejected {s : FreshRun} {recover : Nat} (h : s.remote.recoveryInUse = true) :
      FreshStep s (.start recover) s
  | start {s : FreshRun} {recover : Nat} (hserver : recover < s.remote.serverNum)
      (h : s.remote.recoveryInUse = false) :
      FreshStep s (.start recover) { s with
        remote := (Recovery.start s.remote recover).1
        recovery := (Recovery.start s.remote recover).2 }
  | step {s : FreshRun} {c : Recovery} {out : RecoverOut} {r : Remote} {c' : Option Recovery}
      (hc : s.recovery = some c)
      (hlink : out.ok = true → ∀ i, c.target = some i → s.linked i = true)
      (h : c.step s.remote out = some (r, c')) :
      FreshStep s (.step out) { s with
        remote := r
        recovery := c'
        received := c.receivedAfter ∅ out.ok s.buffered s.received
        buffered := c.bufferedAfter ∅ out.ok s.received s.buffered
        asOf := asOfConnected r s.flushed (c.receivedAfter 0 out.ok s.bufferAsOf s.asOf)
        bufferAsOf := c.bufferedAfter 0 out.ok s.asOf s.bufferAsOf }

/-- A bank of a server has received every flush that succeeded on some server. -/
def Fresh (s : FreshRun) (i bankId : Nat) : Prop :=
  ∀ k < s.flushed bankId, k ∈ s.received i bankId

/-- The server that answers a read has received every flush of the bank. -/
def ReadsFresh (s : FreshRun) (env : ReadEnv) (bankId : Nat) : Prop :=
  ∀ i, s.remote.readServer env = some i → Fresh s i bankId

/-- No flush of the bank has succeeded since the server was last connected, or since the bytes
were read that a recovery has then copied or replayed onto it. -/
def NoFlushSince (s : FreshRun) (i bankId : Nat) : Prop :=
  s.flushed bankId ≤ s.asOf i bankId

/-- A server that is disconnected, chosen first and can be reached was connected at the last flush
of the bank. A server that a recovery connects again has had made up for every flush since it was
last connected; the recovered one, whose banks are new, for every flush. -/
def KeepsFresh (s : FreshRun) : FreshAction → Prop
  | .read env bankId _ _ _ =>
      let first := env.rand % s.remote.serverNum
      (s.remote.sList first).serverState = .disconnect → env.ok first = true →
        NoFlushSince s first bankId
  | .step _ => ∀ c, s.recovery = some c → ∀ b,
      (c.pc = .handBackActive → NoFlushSince s c.active b) ∧
      (c.pc = .handBackRecover → NoFlushSince s c.recover b)
  | _ => True

/-! ## The servers of a recovery -/

namespace Recovery

/-- The servers that a recovery keeps from being connected. -/
def Busy (c : Recovery) (i : Nat) : Prop :=
  match c.pc with
  | .count | .remalloc | .choose | .begin | .handBackRecover => i = c.recover
  | .clean => False
  | _ => i = c.recover ∨ i = c.active

/-- The active server has been chosen. -/
def Chosen (c : Recovery) : Prop :=
  match c.pc with
  | .count | .remalloc | .choose => False
  | _ => True

/-- None of them is connected, and they are two. -/
structure Offline (r : Remote) (c : Recovery) : Prop where
  busy : ∀ i, c.Busy i → (r.sList i).serverState ≠ .connected
  ne : c.Chosen → c.active ≠ c.recover

section

variable {r r' : Remote} {c : Recovery} {out : RecoverOut} {rec : Option Recovery} {i : Nat}

theorem Offline.mono (h : c.Offline r)
    (hstate : ∀ i, (r'.sList i).serverState = .connected → (r.sList i).serverState = .connected) :
    c.Offline r' :=
  ⟨fun i hi hc => h.busy i hi (hstate i hc), h.ne⟩

section

variable {α β : Type} {new : α} {ok : Bool} {buffered : α} {received : Nat → Nat → α}

/-- Only the servers of a recovery get other banks. -/
theorem receivedAfter_of_not_busy (h : ¬ c.Busy i) :
    c.receivedAfter new ok buffered received i = received i := by
  unfold Busy at h
  unfold receivedAfter receive
  cases hpc : c.pc <;> simp only [hpc] at h ⊢ <;> grind

/-- What is known of the buffer says the same in two ways of saying it. -/
theorem map_bufferedAfter (f : α → β) :
    c.bufferedAfter (f new) ok (fun i b => f (received i b)) (f buffered) =
      f (c.bufferedAfter new ok received buffered) := by
  unfold bufferedAfter
  split <;> grind

theorem map_receivedAfter (f : α → β) (i b : Nat) :
    c.receivedAfter (f new) ok (f buffered) (fun i b => f (received i b)) i b =
      f (c.receivedAfter new ok buffered received i b) := by
  unfold receivedAfter
  cases c.pc <;> simp only [ite_apply, receive_apply, Function.update_apply, apply_ite f]

/-- The bank whose bytes are in the buffer and about to be written. -/
def bufferBank (c : Recovery) : Option Nat :=
  match c.pc with
  | .copyBanksWrite i _ | .copyJournalWrite _ i _ => some i
  | .replayActive _ task | .replayRecover _ task => some task.bankId
  | _ => none

/-- A step leaves a bank as it is known, makes it new, or writes the buffer to it. -/
theorem receivedAfter_cases (i b : Nat) :
    c.receivedAfter new ok buffered received i b = received i b ∨
    c.receivedAfter new ok buffered received i b = new ∨
    c.receivedAfter new ok buffered received i b = buffered ∧ c.bufferBank = some b := by
  unfold receivedAfter bufferBank
  cases c.pc <;> simp only [ite_apply, receive_apply, Function.update_apply] <;> grind

/-- What is about to be written is what has just been read, or was in the buffer before. -/
theorem bufferedAfter_cases {c' : Recovery} (h : c.step r out = some (r', some c')) {b : Nat}
    (hb : c'.bufferBank = some b) :
    (∃ j, c.bufferedAfter new out.ok received buffered = received j b) ∨
    c.bufferedAfter new out.ok received buffered = new ∨
    c.bufferedAfter new out.ok received buffered = buffered ∧ c.bufferBank = some b := by
  unfold Recovery.step at h
  unfold bufferBank at hb ⊢
  unfold bufferedAfter
  cases hpc : c.pc <;> simp only [hpc] at h ⊢ <;> grind [Option.map_eq_some_iff]

end

/-- A step hands back a server, or connects none. -/
theorem step_connected (h : c.step r out = some (r', rec)) :
    r'.serverNum = r.serverNum ∧ ∀ i, (r'.sList i).serverState = .connected →
      (r.sList i).serverState = .connected ∨ c.pc = .handBackActive ∧ i = c.active ∨
        c.pc = .handBackRecover ∧ i = c.recover := by
  cases step_effect h with
  | same | clean => exact ⟨rfl, fun i => .inl⟩
  | fails | begin => exact ⟨rfl, fun i hc => .inl (connected_of_setState (by decide) hc)⟩
  | remalloc => exact ⟨rfl, fun i hc => .inl ((freshBank_serverState ..).symm.trans hc)⟩
  | handBackActive hpc =>
    refine ⟨rfl, fun i hc => ?_⟩
    rw [setState_serverState] at hc
    grind
  | handBackRecover hpc =>
    refine ⟨rfl, fun i hc => ?_⟩
    rw [setState_serverState] at hc
    grind
  | stores => exact ⟨rfl, fun i hc => .inl (by simpa using hc)⟩
  | free => exact ⟨rfl, fun i hc => .inl (by simpa using hc)⟩

/-- Which servers a recovery deals with next. -/
theorem step_busy {c' : Recovery} (h : c.step r out = some (r', some c')) :
    (c'.Busy i → c.Busy i ∨ c.pc = .begin ∧ i = c.active) ∧
    (c'.Chosen → c'.recover = c.recover ∧
      (c.Chosen ∧ c'.active = c.active ∨ c.pc = .choose ∧ r.findAliveServer = some c'.active)) := by
  unfold Recovery.step at h
  unfold Busy Chosen
  cases hpc : c.pc <;> simp only [hpc] at h ⊢ <;> grind [Option.map_eq_some_iff]

theorem Offline.step {c' : Recovery} (hoff : c.Offline r)
    (h : c.step r out = some (r', some c')) : c'.Offline r' := by
  obtain ⟨-, hconn⟩ := step_connected h
  refine ⟨fun i hi hc => ?_, fun hch => ?_⟩
  · rcases hconn i hc with hold | ⟨hpc, rfl⟩ | ⟨hpc, rfl⟩
    · rcases (step_busy h).1 hi with hbusy | ⟨hpc, rfl⟩
      · exact hoff.busy i hbusy hold
      · simp only [Recovery.step, hpc, Option.some.injEq, Prod.mk.injEq] at h
        obtain ⟨rfl, -⟩ := h
        simp at hc
    · have hne := hoff.ne (by simp [Chosen, hpc])
      simp only [Recovery.step, hpc, Option.some.injEq, Prod.mk.injEq] at h
      obtain ⟨-, rfl⟩ := h
      exact hne hi
    · simp only [Recovery.step, hpc, Option.some.injEq, Prod.mk.injEq] at h
      obtain ⟨-, rfl⟩ := h
      exact hi
  · obtain ⟨hrecover, ⟨hold, hactive⟩ | ⟨hpc, hfind⟩⟩ := (step_busy (i := 0) h).2 hch
    · rw [hactive, hrecover]
      exact hoff.ne hold
    · rw [hrecover]
      have hrec : c.Busy c.recover := by simp [Busy, hpc]
      exact fun he => hoff.busy _ hrec (he ▸ (Remote.findAliveServer_spec hfind).2)

end

end Recovery

/-! ## Runs -/

section run

variable {s s' : FreshRun} {a : FreshAction} {i b : Nat}

/-- The dates of the banks tell which flushes have reached them. -/
structure FreshInv (s : FreshRun) : Prop where
  received : ∀ i b, s.received i b = Set.Iio (s.asOf i b)
  buffered : s.buffered = Set.Iio s.bufferAsOf
  connected : ∀ i < s.remote.serverNum, (s.remote.sList i).serverState = .connected →
    ∀ b, s.asOf i b = s.flushed b
  asOf_le : ∀ i b, s.asOf i b ≤ s.flushed b
  buffer_le : ∀ c b, s.recovery = some c → c.bufferBank = some b → s.bufferAsOf ≤ s.flushed b
  offline : ∀ c, s.recovery = some c → c.Offline s.remote

theorem FreshInv.fresh_iff (h : FreshInv s) : Fresh s i b ↔ NoFlushSince s i b := by
  unfold Fresh NoFlushSince
  rw [h.received]
  exact Set.Iio_subset_Iio_iff

theorem FreshInv.fresh (h : FreshInv s) (hi : i < s.remote.serverNum)
    (hc : (s.remote.sList i).serverState = .connected) (b : Nat) : Fresh s i b :=
  h.fresh_iff.mpr (h.connected i hi hc b).ge

/-- The start of the runs. -/
def initFreshRun (serverNum : Nat) (bank : Nat → Nat → Bytes) (linked : Nat → Bool) : FreshRun :=
  ⟨initRemote serverNum bank, none, linked, fun _ => 0, fun _ _ => ∅, ∅, fun _ _ => 0, 0⟩

theorem empty_eq_Iio : (∅ : Set Nat) = Set.Iio 0 := by
  ext k
  simp

theorem freshInv_init (serverNum : Nat) (bank : Nat → Nat → Bytes) (linked : Nat → Bool) :
    FreshInv (initFreshRun serverNum bank linked) := by
  refine ⟨fun _ _ => empty_eq_Iio, empty_eq_Iio, fun _ _ _ _ => rfl, fun _ _ => Nat.le_refl _,
    ?_, ?_⟩ <;> simp [initFreshRun]

/-- The servers that are connected after a flush are those that take it. -/
theorem connected_after_flush {r r' : Remote} {env : WriteEnv} {bankId : Nat} {buf : Bytes}
    (hw : dhmpFsWriteToRemote r env bankId buf bankSize 0 = some r') :
    (i < r'.serverNum ∧ (r'.sList i).serverState = .connected) ↔
      takesFlush r env i = true := by
  obtain ⟨hnum, -, -, hlist⟩ := dhmpFsWriteToRemote_spec hw
  rw [hnum, hlist]
  by_cases hi : i < r.serverNum
  · simp [takesFlush, hi, writeServer_connected_iff]
  · simp [takesFlush, hi]

theorem takesFlush_connected {r : Remote} {env : WriteEnv} (h : takesFlush r env i = true) :
    i < r.serverNum ∧ (r.sList i).serverState = .connected := by
  simp only [takesFlush, Bool.and_eq_true, decide_eq_true_eq] at h
  exact h.1

/-- A flush that one server takes counts. -/
theorem flushedAfter_of_takes {r : Remote} {env : WriteEnv} {bankId : Nat} {flushed : Nat → Nat}
    (h : takesFlush r env i = true) :
    flushedAfter r env bankId flushed =
      Function.update flushed bankId (flushed bankId + 1) :=
  if_pos (List.any_eq_true.mpr ⟨i, List.mem_range.mpr (takesFlush_connected h).1, h⟩)

theorem le_flushedAfter (r : Remote) (env : WriteEnv) (bankId : Nat) (flushed : Nat → Nat)
    (b : Nat) : flushed b ≤ flushedAfter r env bankId flushed b := by
  unfold flushedAfter
  grind [Function.update_apply]

theorem FreshInv.flush (h : FreshInv s) {env : WriteEnv} {bankId : Nat} {buf : Bytes} {r : Remote}
    (hw : dhmpFsWriteToRemote s.remote env bankId buf bankSize 0 = some r) :
    FreshInv { s with
      remote := r
      flushed := flushedAfter s.remote env bankId s.flushed
      received := receivedAfterFlush s.remote env bankId s.flushed s.received
      asOf := asOfConnected r (flushedAfter s.remote env bankId s.flushed) s.asOf } := by
  have hgrow := le_flushedAfter s.remote env bankId s.flushed
  refine ⟨fun i b => ?_, h.buffered, fun i hi hc b => if_pos ⟨hi, hc⟩, fun i b => ?_,
    fun c b hc hb => (h.buffer_le c b hc hb).trans (hgrow b),
    fun c hc => (h.offline c hc).mono fun i hi => ?_⟩
  · simp only [asOfConnected, connected_after_flush hw, receivedAfterFlush]
    by_cases htakes : takesFlush s.remote env i = true
    · obtain ⟨hi, hc⟩ := takesFlush_connected htakes
      rw [flushedAfter_of_takes htakes, h.received, h.connected i hi hc]
      ext k
      rcases eq_or_ne b bankId with rfl | hb
      · simp only [htakes, and_self, if_true, Function.update_self, Set.mem_insert_iff,
          Set.mem_Iio]
        omega
      · simp [htakes, hb]
    · simp [htakes, h.received]
  · have hle := h.asOf_le i b
    unfold asOfConnected
    have := hgrow b
    grind
  · obtain ⟨-, -, -, hlist⟩ := dhmpFsWriteToRemote_spec hw
    rw [hlist] at hi
    split at hi
    · exact (writeServer_connected_iff.mp hi).1
    · exact hi

theorem FreshInv.fails (h : FreshInv s) {r : Remote} (hf : s.remote.Fails r) :
    FreshInv { s with remote := r } := by
  have hconn : ∀ i, (r.sList i).serverState = .connected →
      (s.remote.sList i).serverState = .connected := fun i hi => by
    rcases hf.serverState i with hs | hs | hs <;> simp_all
  exact ⟨h.received, h.buffered, fun i hi hc => h.connected i (hf.serverNum ▸ hi) (hconn i hc),
    h.asOf_le, h.buffer_le, fun c hc => (h.offline c hc).mono hconn⟩

theorem FreshInv.start (h : FreshInv s) {recover : Nat} (huse : s.remote.recoveryInUse = false) :
    FreshInv { s with
      remote := (Recovery.start s.remote recover).1
      recovery := (Recovery.start s.remote recover).2 } := by
  simp only [Recovery.start, huse, Bool.false_eq_true, if_false]
  have hfails := h.fails (Remote.Fails.reconnect s.remote recover)
  refine ⟨hfails.received, hfails.buffered, hfails.connected, hfails.asOf_le, ?_, ?_⟩
  · rintro _ b ⟨⟩ hb
    simp [Recovery.bufferBank] at hb
  · rintro _ ⟨⟩
    refine ⟨fun i hi => ?_, fun hchosen => hchosen.elim⟩
    obtain rfl : i = recover := hi
    simp

theorem FreshInv.recover (h : FreshInv s) {c : Recovery} {out : RecoverOut} {r : Remote}
    {rec : Option Recovery} (hc : s.recovery = some c)
    (hkept : ∀ b, (c.pc = .handBackActive → NoFlushSince s c.active b) ∧
      (c.pc = .handBackRecover → NoFlushSince s c.recover b))
    (hstep : c.step s.remote out = some (r, rec)) :
    FreshInv { s with
      remote := r
      recovery := rec
      received := c.receivedAfter ∅ out.ok s.buffered s.received
      buffered := c.bufferedAfter ∅ out.ok s.received s.buffered
      asOf := asOfConnected r s.flushed (c.receivedAfter 0 out.ok s.bufferAsOf s.asOf)
      bufferAsOf := c.bufferedAfter 0 out.ok s.asOf s.bufferAsOf } := by
  have hoff := h.offline c hc
  obtain ⟨hnum, hconn⟩ := Recovery.step_connected hstep
  have hreceived : s.received = fun i b => Set.Iio (s.asOf i b) :=
    funext fun i => funext fun b => h.received i b
  -- a server that is connected after the step is as of now by its history
  have hdate : ∀ i, i < r.serverNum ∧ (r.sList i).serverState = .connected → ∀ b,
      c.receivedAfter 0 out.ok s.bufferAsOf s.asOf i b = s.flushed b := by
    rintro i ⟨hi, hi'⟩ b
    rcases hconn i hi' with hold | ⟨hpc, rfl⟩ | ⟨hpc, rfl⟩
    · rw [Recovery.receivedAfter_of_not_busy fun hbusy => hoff.busy i hbusy hold]
      exact h.connected i (hnum ▸ hi) hold b
    · simpa [Recovery.receivedAfter, hpc] using
        (h.asOf_le c.active b).antisymm ((hkept b).1 hpc)
    · simpa [Recovery.receivedAfter, hpc] using
        (h.asOf_le c.recover b).antisymm ((hkept b).2 hpc)
  have hasOf : asOfConnected r s.flushed (c.receivedAfter 0 out.ok s.bufferAsOf s.asOf) =
      c.receivedAfter 0 out.ok s.bufferAsOf s.asOf := by
    funext i b
    unfold asOfConnected
    split
    · next hi => rw [hdate i hi b]
    · rfl
  refine ⟨fun i b => ?_, ?_, fun i hi hc b => if_pos ⟨hi, hc⟩, fun i b => ?_, ?_, ?_⟩
  · rw [hasOf, h.buffered, hreceived, empty_eq_Iio]
    exact Recovery.map_receivedAfter Set.Iio i b
  · rw [h.buffered, hreceived, empty_eq_Iio]
    exact Recovery.map_bufferedAfter Set.Iio
  · rw [hasOf]
    rcases c.receivedAfter_cases i b with heq | heq | ⟨heq, hb⟩
    · exact heq.trans_le (h.asOf_le i b)
    · exact heq.trans_le (Nat.zero_le _)
    · exact heq.trans_le (h.buffer_le c b hc hb)
  · rintro c' b rfl hb
    rcases Recovery.bufferedAfter_cases hstep hb with ⟨j, heq⟩ | heq | ⟨heq, hb'⟩
    · exact heq.trans_le (h.asOf_le j b)
    · exact heq.trans_le (Nat.zero_le _)
    · exact heq.trans_le (h.buffer_le c b hc hb')
  · rintro c' rfl
    exact hoff.step hstep

theorem FreshInv.step (h : FreshInv s) (hs : FreshStep s a s') (hkept : KeepsFresh s a) :
    FreshInv s' := by
  cases hs with
  | flush hlink hw => exact h.flush hw
  | read hlink hr => exact h.fails (read_fails hr)
  | link => exact ⟨h.received, h.buffered, h.connected, h.asOf_le, h.buffer_le, h.offline⟩
  | rejected huse => exact h
  | start hserver huse => exact h.start huse
  | step hc hlink hstep => exact h.recover hc (hkept _ hc) hstep

/-- Where the server that is chosen first is disconnected, it is asked. -/
theorem readServer_disconnect {r : Remote} {env : ReadEnv} {first : Nat}
    (hfirst : env.rand % r.serverNum = first) (hd : (r.sList first).serverState = .disconnect)
    (hok : env.ok first = true) : r.readServer env = some first := by
  simp [Remote.readServer, readRemoteLoop, hfirst, hd, hok]

theorem FreshInv.read_iff (h : FreshInv s) {env : ReadEnv} {size offset : Nat} {buf : Bytes}
    (hs : FreshStep s (.read env b buf size offset) s') :
    ReadsFresh s env b ↔ KeepsFresh s (.read env b buf size offset) := by
  cases hs with
  | read hlink hr =>
    obtain ⟨out, -⟩ := read_outcome hr
    constructor
    · exact fun hread hd hok => h.fresh_iff.mp (hread _ (readServer_disconnect rfl hd hok))
    · intro hkept i hi
      obtain ⟨hok, -, ⟨hlt, hc⟩ | ⟨rfl, hd, -⟩⟩ := out.answered i hi
      · exact h.fresh hlt hc b
      · exact h.fresh_iff.mpr (hkept hd hok)

/-- In every run whose steps meet the condition, connected servers have received every flush that
succeeded somewhere, and so has the server that answers a read; a read that does not meet it is
answered by one that has not. -/
theorem fresh_reads_run {serverNum : Nat} {bank : Nat → Nat → Bytes} {linked : Nat → Bool}
    {as : List FreshAction}
    (h : Run (guarded KeepsFresh FreshStep) (initFreshRun serverNum bank linked) as s) :
    (∀ i < s.remote.serverNum, (s.remote.sList i).serverState = .connected →
      ∀ b, Fresh s i b) ∧
    ∀ env b buf size offset s', FreshStep s (.read env b buf size offset) s' →
      (ReadsFresh s env b ↔ KeepsFresh s (.read env b buf size offset)) := by
  have inv : FreshInv s := h.invariant FreshInv (fun _ _ _ hi hs => hi.step hs.2 hs.1)
    (freshInv_init serverNum bank linked)
  exact ⟨fun i hi hc => inv.fresh hi hc, fun _ _ _ _ _ _ hs => inv.read_iff hs⟩

/-- Only the steps that hand back a server have a condition. -/
theorem keepsFresh_step {c : Recovery} {out : RecoverOut} (hc : s.recovery = some c)
    (ha : c.pc ≠ .handBackActive) (hr : c.pc ≠ .handBackRecover) : KeepsFresh s (.step out) := by
  intro c' hc' b
  obtain rfl := Option.some.inj (hc.symm.trans hc')
  exact ⟨fun h => absurd h ha, fun h => absurd h hr⟩

/-- Server 2 of three misses a flush of bank 0 and is asked for bank 1. It is recovered from
server 0; another flush of bank 0 comes meanwhile and is replayed on both. -/
def missedFlushes : List FreshAction :=
  .flush ⟨fun i => i ≠ 2, fun _ => 0⟩ 0 (fun _ => 1) ::
    .read ⟨2, fun _ => true⟩ 1 (fun _ => 0) bankSize 0 :: .start 2 ::
    List.replicate 4 (.step ⟨true, fun _ _ => 0, fun _ => 0⟩) ++
    .flush ⟨fun _ => true, fun _ => 0⟩ 0 (fun _ => 2) ::
    List.replicate 11 (.step ⟨true, fun _ _ => 0, fun _ => 0⟩)

/-- The recovered server, which is asked for bank 0, has received both flushes. -/
theorem fresh_reads_run_missed :
    ∃ s s', Run (guarded KeepsFresh FreshStep) (initFreshRun 3 (fun _ _ _ => 0) fun _ => true)
        missedFlushes s ∧
      FreshStep s (.read ⟨2, fun _ => true⟩ 0 (fun _ => 0) bankSize 0) s' ∧ s.flushed 0 = 2 ∧
      ReadsFresh s ⟨2, fun _ => true⟩ 0 ∧ ∀ b, Fresh s 2 b := by
  have run : ∃ s s', Run (guarded KeepsFresh FreshStep)
        (initFreshRun 3 (fun _ _ _ => 0) fun _ => true) missedFlushes s ∧
      FreshStep s (.read ⟨2, fun _ => true⟩ 0 (fun _ => 0) bankSize 0) s' ∧ s.flushed 0 = 2 ∧
      s.remote.serverNum = 3 ∧ (s.remote.sList 2).serverState = .connected := by
    refine ⟨_, _, .cons ⟨trivial, .flush (fun _ _ => rfl) rfl⟩
      (.cons ⟨fun _ _ => Nat.zero_le _, .read (fun _ _ => rfl) rfl⟩
      (.cons ⟨trivial, .start (by decide) rfl⟩
      (.cons ⟨keepsFresh_step rfl nofun nofun, .step rfl (fun _ _ _ => rfl) rfl⟩
      (.cons ⟨keepsFresh_step rfl nofun nofun, .step rfl (fun _ _ _ => rfl) rfl⟩
      (.cons ⟨keepsFresh_step rfl nofun nofun, .step rfl (fun _ _ _ => rfl) rfl⟩
      (.cons ⟨keepsFresh_step rfl nofun nofun, .step rfl (fun _ _ _ => rfl) rfl⟩
      (.cons ⟨trivial, .flush (fun _ _ => rfl) rfl⟩
      (.cons ⟨keepsFresh_step rfl nofun nofun, .step rfl (fun _ _ _ => rfl) rfl⟩
      (.cons ⟨keepsFresh_step rfl nofun nofun, .step rfl (fun _ _ _ => rfl) rfl⟩
      (.cons ⟨keepsFresh_step rfl nofun nofun, .step rfl (fun _ _ _ => rfl) rfl⟩
      (.cons ⟨keepsFresh_step rfl nofun nofun, .step rfl (fun _ _ _ => rfl) rfl⟩
      (.cons ⟨keepsFresh_step rfl nofun nofun, .step rfl (fun _ _ _ => rfl) rfl⟩
      (.cons ⟨keepsFresh_step rfl nofun nofun, .step rfl (fun _ _ _ => rfl) rfl⟩
      (.cons ⟨keepsFresh_step rfl nofun nofun, .step rfl (fun _ _ _ => rfl) rfl⟩
      (.cons ⟨keepsFresh_step rfl nofun nofun, .step rfl (fun _ _ _ => rfl) rfl⟩
      (.cons ⟨keepsFresh_step rfl nofun nofun, .step rfl (fun _ _ _ => rfl) rfl⟩
      (.cons ⟨?_, .step rfl (fun _ _ _ => rfl) rfl⟩
      (.single ⟨?_, .step rfl (fun _ _ _ => rfl) rfl⟩)))))))))))))))))),
      .read (fun _ _ => rfl) rfl, rfl, rfl, rfl⟩
    · rintro _ ⟨⟩ b
      refine ⟨fun _ => ?_, nofun⟩
      cases b with
      | zero => exact Nat.le_refl 2
      | succ b => exact Nat.zero_le _
    · rintro _ ⟨⟩ b
      refine ⟨nofun, fun _ => ?_⟩
      cases b with
      | zero => exact Nat.le_refl 2
      | succ b => exact Nat.zero_le _
  obtain ⟨s, s', h, hread, hflushed, hnum, hc⟩ := run
  obtain ⟨hfresh, hreads⟩ := fresh_reads_run h
  refine ⟨s, s', h, hread, hflushed, (hreads _ 0 _ _ _ s' hread).mpr fun hd => ?_,
    hfresh 2 (by omega) hc⟩
  rw [hnum] at hd
  exact absurd (hc.symm.trans hd) (by decide)

/-- Server 1 of two misses a flush while its transport is down; the transport comes up again, and
a read that chooses server 1 is answered with old bytes. -/
theorem not_fresh_reads :
    ∃ s, Run FreshStep (initFreshRun 2 (fun _ _ _ => 0) fun _ => true)
      [.link 1 false, .flush ⟨fun i => i = 0, fun _ => 0⟩ 0 fun _ => 1, .link 1 true] s ∧
      (∃ s', FreshStep s (.read ⟨1, fun _ => true⟩ 0 (fun _ => 0) bankSize 0) s') ∧
      ¬ ReadsFresh s ⟨1, fun _ => true⟩ 0 := by
  refine ⟨_, .cons .link (.cons (.flush ?_ rfl) (.single .link)), ⟨_, .read ?_ rfl⟩, fun h => ?_⟩
  · intro i hi
    obtain rfl : i = 0 := by simpa using hi
    rfl
  · intro i _
    rcases eq_or_ne i 1 with rfl | hi <;> simp [*, initFreshRun]
  · exact absurd (h 1 rfl 0 (by decide)) (by simp [receivedAfterFlush, takesFlush, initFreshRun])

end run

end DhmpFs
