import DhmpFs.Library.Run

/-!
# Lost connections

The client has two transports to each server. When one of them goes down a recovery thread connects
it again and then calls `client->recovery`. One flag says that a recovery is under way; while it is
set no other thread is started.

The events of the connection manager and the steps of the threads come in any order. A handler is
one step, and so is a test of the state, an attempt to connect, the call of `client->recovery` and
the end of a thread.

## Main definitions

* `LinkStep`: the events and the steps of the threads.
* `LinksCovered`: no transport is left down, and `client->recovery` finds its server connected.
-/

namespace DhmpFs

open Library

/-! ## States -/

/-- `dhmp_transport_state` -/
inductive TransState where
  | init
  | listen
  | connecting
  | connected
  | disconnected
  | reconnect
  | closed
  | destroyed
  | error
  deriving DecidableEq, Repr

/-- A transport: `connect_trans[node_id]` or `poll_trans[node_id]`. -/
structure Transport where
  isPollQp : Bool
  nodeId : Nat
  deriving DecidableEq, Repr

/-- `connect_trans[node_id]` -/
def connectTrans (nodeId : Nat) : Transport := ⟨false, nodeId⟩

/-- `poll_trans[node_id]` -/
def pollTrans (nodeId : Nat) : Transport := ⟨true, nodeId⟩

/-- Where a recovery thread is: before the test of its loop, before an attempt to connect, before
the call of `client->recovery`, before it clears the flag, or at its end. -/
inductive RecoveryPc where
  | test
  | reconnect
  | recovery
  | clear
  | exited
  deriving DecidableEq, Repr

structure RecoveryThread where
  rdmaTrans : Transport
  pc : RecoveryPc
  deriving DecidableEq, Repr

/-- The parts of `client` that concern lost connections, and the threads it has started. -/
structure Links where
  transState : Transport → TransState
  prepareDestroy : Bool
  inRecovery : Bool
  threads : List RecoveryThread

namespace Links

/-- `dhmp_client_init` waits until every transport is connected. -/
def start : Links := ⟨fun _ => .connected, false, false, []⟩

def setState (c : Links) (t : Transport) (state : TransState) : Links :=
  { c with transState := Function.update c.transState t state }

def setPc (c : Links) (k : Nat) (pc : RecoveryPc) : Links :=
  { c with threads := c.threads.modify k fun thread => { thread with pc := pc } }

/-- `on_cm_disconnected` -/
def onCmDisconnected (c : Links) (t : Transport) : Links :=
  let c := c.setState t .disconnected
  if c.prepareDestroy then c
  else if c.inRecovery then c
  else { c with inRecovery := true, threads := c.threads ++ [⟨t, .test⟩] }

/-- `on_cm_established` -/
def onCmEstablished (c : Links) (t : Transport) : Links := c.setState t .connected

/-- `on_cm_error` -/
def onCmError (c : Links) (t : Transport) : Links := c.setState t .error

/-- `reconnect`: `dhmp_transport_connect` leaves the transport as it is when it fails. -/
def reconnect (c : Links) (t : Transport) (succeeds : Bool) : Links :=
  if succeeds then c.setState t .connecting else c

end Links

/-- An event for a transport, or a step of the thread with a number. -/
inductive LinkAction where
  | disconnected (t : Transport)
  | established (t : Transport)
  | error (t : Transport)
  | test (k : Nat)
  | reconnect (k : Nat) (succeeds : Bool)
  | recovery (k : Nat)
  | clear (k : Nat)

/-- The steps. A transport fails to connect only while it is connecting. -/
inductive LinkStep (c : Links) : LinkAction → Links → Prop
  | disconnected (t : Transport) : LinkStep c (.disconnected t) (c.onCmDisconnected t)
  | established (t : Transport) : LinkStep c (.established t) (c.onCmEstablished t)
  | error {t : Transport} (connecting : c.transState t = .connecting) :
    LinkStep c (.error t) (c.onCmError t)
  | test {k : Nat} {t : Transport} (thread : c.threads[k]? = some ⟨t, .test⟩) :
    LinkStep c (.test k)
      (c.setPc k (if c.transState t = .connected then .recovery else .reconnect))
  | reconnect {k : Nat} {t : Transport} (thread : c.threads[k]? = some ⟨t, .reconnect⟩)
    (succeeds : Bool) : LinkStep c (.reconnect k succeeds) ((c.reconnect t succeeds).setPc k .test)
  | recovery {k : Nat} {t : Transport} (thread : c.threads[k]? = some ⟨t, .recovery⟩) :
    LinkStep c (.recovery k) (c.setPc k .clear)
  | clear {k : Nat} {t : Transport} (thread : c.threads[k]? = some ⟨t, .clear⟩) :
    LinkStep c (.clear k) { c.setPc k .exited with inRecovery := false }

/-- No transport is down while no recovery is under way, and a thread that is about to call
`client->recovery(node_id)` finds `connect_trans[node_id]` connected. -/
structure LinksCovered (c : Links) : Prop where
  idle : c.inRecovery = false → ∀ t, c.transState t ≠ .disconnected
  recovery : ∀ (k : Nat) (t : Transport), c.threads[k]? = some ⟨t, .recovery⟩ →
    c.transState (connectTrans t.nodeId) = .connected

/-- A transport goes down while no recovery is under way, or while the thread that is to connect
it still tries. -/
def LinkAction.Allowed (c : Links) : LinkAction → Prop
  | .disconnected t => c.inRecovery = false ∨
      ∃ (k : Nat) (pc : RecoveryPc), c.threads[k]? = some ⟨t, pc⟩ ∧ (pc = .test ∨ pc = .reconnect)
  | _ => True

/-! ## The invariant -/

/-- The thread `k` is the only one at work, and its transport is the only one that may be down. -/
structure Working (c : Links) (k : Nat) (t : Transport) (pc : RecoveryPc) : Prop where
  thread : c.threads[k]? = some ⟨t, pc⟩
  works : pc ≠ .exited
  others : ∀ j thread, c.threads[j]? = some thread → j ≠ k → thread.pc = .exited
  connected : ∀ t', t' ≠ t → c.transState t' = .connected
  done : pc = .recovery ∨ pc = .clear → c.transState t = .connected

structure LinksInv (c : Links) : Prop where
  prepare : c.prepareDestroy = false
  idle : c.inRecovery = false →
    (∀ t, c.transState t = .connected) ∧ ∀ thread ∈ c.threads, thread.pc = .exited
  busy : c.inRecovery = true → ∃ k t pc, Working c k t pc

namespace Links

variable {c : Links} {j k : Nat} {pc : RecoveryPc} {t : Transport}

theorem setPc_self {thread : RecoveryThread} (h : c.threads[k]? = some thread) :
    (c.setPc k pc).threads[k]? = some ⟨thread.rdmaTrans, pc⟩ := by
  simp [setPc, h]

theorem setPc_ne (h : j ≠ k) : (c.setPc k pc).threads[j]? = c.threads[j]? := by
  simp [setPc, h.symm]

end Links

namespace Working

variable {c : Links} {j k : Nat} {t u : Transport} {pc pc' : RecoveryPc} {state : TransState}

/-- A thread that has not ended is the one at work. -/
theorem unique (h : Working c k t pc) (hj : c.threads[j]? = some ⟨u, pc'⟩)
    (hworks : pc' ≠ .exited) : j = k ∧ u = t ∧ pc' = pc := by
  by_cases hjk : j = k
  · subst hjk
    have heq := h.thread.symm.trans hj
    grind
  · exact absurd (h.others j _ hj hjk) hworks

theorem setPc (h : Working c k t pc) (hworks : pc' ≠ .exited)
    (hdone : pc' = .recovery ∨ pc' = .clear → c.transState t = .connected) :
    Working (c.setPc k pc') k t pc' where
  thread := Links.setPc_self h.thread
  works := hworks
  others i thread hi hik := h.others i thread (Links.setPc_ne hik ▸ hi) hik
  connected := h.connected
  done := hdone

/-- The transport of a thread that still tries may change. -/
theorem setState (h : Working c k t pc) (htry : pc = .test ∨ pc = .reconnect) :
    Working (c.setState t state) k t pc :=
  { h with
    connected := fun t' ht => (Function.update_of_ne ht _ _).trans (h.connected t' ht)
    done := by grind }

theorem established (h : Working c k t pc) (u : Transport) :
    Working (c.onCmEstablished u) k t pc := by
  have hstate : ∀ t', c.transState t' = .connected →
      (c.onCmEstablished u).transState t' = .connected := by
    intro t' ht
    unfold Links.onCmEstablished Links.setState
    grind
  exact { h with
    connected := fun t' ht => hstate t' (h.connected t' ht)
    done := fun hpc => hstate t (h.done hpc) }

end Working

namespace LinksInv

variable {c c' : Links} {k : Nat} {t : Transport} {pc : RecoveryPc} {a : LinkAction}

/-- A thread that has not ended is the only one, and the flag is set. -/
theorem working (h : LinksInv c) (hk : c.threads[k]? = some ⟨t, pc⟩) (hworks : pc ≠ .exited) :
    c.inRecovery = true ∧ Working c k t pc := by
  cases hflag : c.inRecovery with
  | false => exact absurd ((h.idle hflag).2 _ (List.mem_of_getElem? hk)) hworks
  | true =>
    obtain ⟨k', t', pc', hw⟩ := h.busy hflag
    obtain ⟨rfl, rfl, rfl⟩ := hw.unique hk hworks
    exact ⟨rfl, hw⟩

theorem of_working (hprepare : c.prepareDestroy = false) (hflag : c.inRecovery = true)
    (hw : Working c k t pc) : LinksInv c :=
  ⟨hprepare, by simp [hflag], fun _ => ⟨k, t, pc, hw⟩⟩

theorem start : LinksInv .start :=
  ⟨rfl, fun _ => ⟨fun _ => rfl, by simp [Links.start]⟩, by simp [Links.start]⟩

theorem disconnected (h : LinksInv c) (ok : LinkAction.Allowed c (.disconnected t)) :
    LinksInv (c.onCmDisconnected t) := by
  have hprepare : (c.setState t .disconnected).prepareDestroy = false := h.prepare
  unfold Links.onCmDisconnected
  rw [if_neg (by simp [hprepare])]
  cases hflag : c.inRecovery with
  | false =>
    have hidle : (c.setState t .disconnected).inRecovery = false := hflag
    obtain ⟨hconnected, hexited⟩ := h.idle hflag
    rw [if_neg (by simp [hidle])]
    refine ⟨hprepare, by simp, fun _ => ⟨c.threads.length, t, .test, ?_⟩⟩
    refine ⟨List.getElem?_concat_length, by decide, fun j thread hj hne => ?_, fun t' ht => ?_,
      by simp⟩
    · have hj : (c.threads ++ [⟨t, .test⟩])[j]? = some thread := hj
      rw [List.getElem?_append] at hj
      split at hj
      · exact hexited thread (List.mem_of_getElem? hj)
      · have hlt := (List.getElem?_eq_some_iff.mp hj).1
        simp only [List.length_singleton] at hlt
        omega
    · exact (Function.update_of_ne ht _ _).trans (hconnected t')
  | true =>
    have hbusy : (c.setState t .disconnected).inRecovery = true := hflag
    rw [if_pos hbusy]
    obtain ⟨k, pc, hk, htry⟩ := ok.resolve_left (by simp [hflag])
    obtain ⟨-, hw⟩ := h.working hk (by grind)
    exact of_working hprepare hbusy (hw.setState htry)

theorem step (h : LinksInv c) (ok : a.Allowed c) (hs : LinkStep c a c') : LinksInv c' := by
  cases hs with
  | disconnected t => exact h.disconnected ok
  | established t =>
    refine ⟨h.prepare, fun hflag => ?_, fun hflag => ?_⟩
    · obtain ⟨hconnected, hexited⟩ := h.idle hflag
      refine ⟨fun t' => ?_, hexited⟩
      have := hconnected t'
      unfold Links.onCmEstablished Links.setState
      grind
    · obtain ⟨k, t', pc, hw⟩ := h.busy hflag
      exact ⟨k, t', pc, hw.established t⟩
  | @error t connecting =>
    have hflag : c.inRecovery = true := by
      by_contra hidle
      have := (h.idle (by simpa using hidle)).1 t
      simp [connecting] at this
    obtain ⟨k, t', pc, hw⟩ := h.busy hflag
    obtain rfl : t = t' := by
      by_contra hne
      have := hw.connected t hne
      simp [connecting] at this
    have htry : pc = .test ∨ pc = .reconnect := by
      have hworks := hw.works
      have hdone := hw.done
      rw [connecting] at hdone
      cases pc <;> simp_all
    exact of_working h.prepare hflag (hw.setState htry)
  | @test k t thread =>
    obtain ⟨hflag, hw⟩ := h.working thread (by decide)
    refine of_working h.prepare hflag (hw.setPc ?_ ?_)
    · split <;> decide
    · split <;> simp_all
  | @reconnect k t thread succeeds =>
    obtain ⟨hflag, hw⟩ := h.working thread (by decide)
    cases succeeds with
    | true =>
      exact of_working h.prepare hflag ((hw.setState (.inr rfl)).setPc (by decide) (by simp))
    | false => exact of_working h.prepare hflag (hw.setPc (by decide) (by simp))
  | @recovery k t thread =>
    obtain ⟨hflag, hw⟩ := h.working thread (by decide)
    exact of_working h.prepare hflag (hw.setPc (by decide) fun _ => hw.done (.inl rfl))
  | @clear k t thread =>
    obtain ⟨-, hw⟩ := h.working thread (by decide)
    refine ⟨h.prepare, fun _ => ⟨fun t' => ?_, fun thread' hmem => ?_⟩, fun hflag => ?_⟩
    · by_cases ht : t' = t
      · subst ht
        exact hw.done (.inr rfl)
      · exact hw.connected t' ht
    · obtain ⟨j, hj⟩ := List.mem_iff_getElem?.mp hmem
      have hj : (c.setPc k .exited).threads[j]? = some thread' := hj
      by_cases hjk : j = k
      · subst hjk
        rw [Links.setPc_self thread] at hj
        rw [← Option.some.inj hj]
      · rw [Links.setPc_ne hjk] at hj
        exact hw.others j thread' hj hjk
    · simp at hflag

theorem covered (h : LinksInv c) : LinksCovered c := by
  constructor
  · intro hflag t
    rw [(h.idle hflag).1 t]
    decide
  · intro k t hk
    obtain ⟨-, hw⟩ := h.working hk (by decide)
    by_cases ht : connectTrans t.nodeId = t
    · rw [ht]
      exact hw.done (.inl rfl)
    · exact hw.connected _ ht

end LinksInv

/-- In every run in which a transport goes down only while no recovery is under way, or while its
own thread still tries to connect it, every state is covered. -/
theorem covered_run {as : List LinkAction} {c : Links}
    (run : Run (guarded (fun c a => a.Allowed c) LinkStep) .start as c) : LinksCovered c := by
  have hinv : LinksInv c :=
    run.invariant LinksInv (fun _ _ _ h hs => h.step hs.1 hs.2) .start
  exact hinv.covered

/-- The thread `0` connects `t` at the first attempt. -/
def reconnectOps (t : Transport) : List LinkAction :=
  [.test 0, .reconnect 0 true, .established t, .test 0]

/-- One transport goes down and its recovery runs to the end. -/
theorem covered_run_one : ∃ c, Run (guarded (fun c a => a.Allowed c) LinkStep) .start
    (.disconnected (connectTrans 0) ::
      (reconnectOps (connectTrans 0) ++ [.recovery 0, .clear 0])) c ∧
    LinksCovered c := by
  have run : Run (guarded (fun c a => a.Allowed c) LinkStep) .start
      (.disconnected (connectTrans 0) ::
        (reconnectOps (connectTrans 0) ++ [.recovery 0, .clear 0])) _ :=
    .cons ⟨.inl rfl, .disconnected _⟩ <| .cons ⟨trivial, .test rfl⟩ <|
      .cons ⟨trivial, .reconnect rfl true⟩ <| .cons ⟨trivial, .established _⟩ <|
        .cons ⟨trivial, .test rfl⟩ <| .cons ⟨trivial, .recovery rfl⟩ <|
          .single ⟨trivial, .clear rfl⟩
  exact ⟨_, run, covered_run run⟩

/-- A server goes down with both of its transports. Whichever event comes second is lost: the
other transport stays down after the recovery, or the recovery is called without it. -/
theorem not_linksCovered_server :
    (∃ c, Run LinkStep .start (.disconnected (connectTrans 0) :: .disconnected (pollTrans 0) ::
      (reconnectOps (connectTrans 0) ++ [.recovery 0, .clear 0])) c ∧ ¬ LinksCovered c) ∧
    ∃ c, Run LinkStep .start (.disconnected (pollTrans 0) :: .disconnected (connectTrans 0) ::
      reconnectOps (pollTrans 0)) c ∧ ¬ LinksCovered c := by
  constructor
  · have run : Run LinkStep .start (.disconnected (connectTrans 0) ::
        .disconnected (pollTrans 0) ::
          (reconnectOps (connectTrans 0) ++ [.recovery 0, .clear 0])) _ :=
      .cons (.disconnected _) <| .cons (.disconnected _) <| .cons (.test rfl) <|
        .cons (.reconnect rfl true) <| .cons (.established _) <| .cons (.test rfl) <|
          .cons (.recovery rfl) <| .single (.clear rfl)
    exact ⟨_, run, fun covered => covered.idle rfl (pollTrans 0) rfl⟩
  · have run : Run LinkStep .start (.disconnected (pollTrans 0) ::
        .disconnected (connectTrans 0) :: reconnectOps (pollTrans 0)) _ :=
      .cons (.disconnected _) <| .cons (.disconnected _) <| .cons (.test rfl) <|
        .cons (.reconnect rfl true) <| .cons (.established _) <| .single (.test rfl)
    refine ⟨_, run, fun covered => ?_⟩
    have hconnected := covered.recovery 0 (pollTrans 0) rfl
    exact absurd hconnected (by decide)

end DhmpFs
