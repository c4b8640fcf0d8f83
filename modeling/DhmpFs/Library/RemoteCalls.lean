import DhmpFs.Library.Run
import Mathlib.Logic.Function.Basic

/-!
# Calls through a queue and one worker

Callers put their operations in a queue and wait for the result. One worker takes them out one
after the other: it changes the state of the client, sends a request to a node, waits until the
answer is there and finishes. Nodes answer over channels in both directions, and another thread of
the client stores the answers, one store at a time, while the worker looks for them.

As long as the worker does not look between two stores of an answer, the callers cannot tell this
from operations that are performed one after the other, in the order of the calls.

## Main definitions

* `Protocol`: the work of the client and of the nodes.
* `Protocol.Step`: one step of a caller, of a thread of the client, or of a node.
* `Protocol.Atomic`: a whole operation in one step.
* `Phase`: how far the operation in hand has come.
* `Served`: what the callers can see.
-/

namespace Library

variable {γ ι κ σ Op Res Req Rep St : Type*}

/-- What the client does before it asks a node and after the answer is stored, and how a node
handles a request. An operation that is over without a request starts with a result. -/
structure Protocol (ι κ σ Op Res Req Rep St : Type*) where
  start : κ → Op → κ → Res ⊕ (ι × Req) → Prop
  handle : ι → σ → Req → σ → Rep → Prop
  stores : Rep → List St
  store : κ → St → κ
  finish : κ → Op → κ → Res → Prop

/-- A caller is outside a call (`none`), waits (`some none`), or has its result. -/
structure CallState (γ ι κ σ Op Res Req Rep St : Type*) where
  caller : γ → Option (Option Res)
  queue : List (γ × Op)
  worker : Option (γ × Op)
  client : κ
  toNode : ι → List Req
  toClient : ι → List Rep
  stores : List St
  node : ι → σ

/-- Nobody has called. -/
def CallState.init (k : κ) (node : ι → σ) : CallState γ ι κ σ Op Res Req Rep St :=
  ⟨fun _ => none, [], none, k, fun _ => [], fun _ => [], [], node⟩

inductive CallEvent (γ ι Op Res : Type*) where
  | call (c : γ) (op : Op)
  | take (c : γ) (op : Op)
  | serve (i : ι)
  | deliver (i : ι)
  | store
  | done (c : γ) (op : Op) (res : Res)
  | ret (c : γ) (res : Res)

namespace CallEvent

def called : CallEvent γ ι Op Res → Option (γ × Op)
  | call c op => some (c, op)
  | _ => none

/-- The operation that ends with the event. -/
def finished : CallEvent γ ι Op Res → Option (γ × Op × Res)
  | done c op res => some (c, op, res)
  | _ => none

def returned [DecidableEq γ] (c : γ) : CallEvent γ ι Op Res → Option Res
  | ret c' res => if c' = c then some res else none
  | _ => none

end CallEvent

/-- The results of the caller `c`. -/
def resultsOf [DecidableEq γ] (c : γ) (log : List (γ × Op × Res)) : List Res :=
  (log.filter fun entry => entry.1 = c).map fun entry => entry.2.2

namespace Protocol

variable (P : Protocol ι κ σ Op Res Req Rep St)

/-- The steps that meet a condition when an operation is started and one when it is finished. -/
def restrict (startOk finishOk : κ → Op → Prop) : Protocol ι κ σ Op Res Req Rep St :=
  { P with
    start := fun k op k' out => startOk k op ∧ P.start k op k' out
    finish := fun k op k' res => finishOk k op ∧ P.finish k op k' res }

variable [DecidableEq γ] [DecidableEq ι]

inductive Step (s : CallState γ ι κ σ Op Res Req Rep St) :
    CallEvent γ ι Op Res → CallState γ ι κ σ Op Res Req Rep St → Prop
  | call {c : γ} {op : Op} (idle : s.caller c = none) :
    Step s (.call c op)
      { s with caller := Function.update s.caller c (some none), queue := s.queue ++ [(c, op)] }
  | take {c : γ} {op : Op} {queue : List (γ × Op)} {k : κ} {i : ι} {req : Req}
    (idle : s.worker = none) (first : s.queue = (c, op) :: queue)
    (start : P.start s.client op k (.inr (i, req))) :
    Step s (.take c op)
      { s with
        queue := queue
        worker := some (c, op)
        client := k
        toNode := Function.update s.toNode i (s.toNode i ++ [req]) }
  | serve {i : ι} {req : Req} {rest : List Req} {node : σ} {rep : Rep}
    (first : s.toNode i = req :: rest) (handle : P.handle i (s.node i) req node rep) :
    Step s (.serve i)
      { s with
        toNode := Function.update s.toNode i rest
        node := Function.update s.node i node
        toClient := Function.update s.toClient i (s.toClient i ++ [rep]) }
  | deliver {i : ι} {rep : Rep} {rest : List Rep} (idle : s.stores = [])
    (first : s.toClient i = rep :: rest) :
    Step s (.deliver i)
      { s with toClient := Function.update s.toClient i rest, stores := P.stores rep }
  | store {st : St} {rest : List St} (first : s.stores = st :: rest) :
    Step s .store { s with client := P.store s.client st, stores := rest }
  | skip {c : γ} {op : Op} {queue : List (γ × Op)} {k : κ} {res : Res}
    (idle : s.worker = none) (first : s.queue = (c, op) :: queue)
    (start : P.start s.client op k (.inl res)) :
    Step s (.done c op res)
      { s with
        queue := queue
        client := k
        caller := Function.update s.caller c (some (some res)) }
  | finish {c : γ} {op : Op} {k : κ} {res : Res} (hand : s.worker = some (c, op))
    (finish : P.finish s.client op k res) :
    Step s (.done c op res)
      { s with
        worker := none
        client := k
        caller := Function.update s.caller c (some (some res)) }
  | ret {c : γ} {res : Res} (result : s.caller c = some (some res)) :
    Step s (.ret c res) { s with caller := Function.update s.caller c none }

/-- The worker does not finish an operation in the middle of an answer. -/
def Settled (s : CallState γ ι κ σ Op Res Req Rep St) (e : CallEvent γ ι Op Res) : Prop :=
  ∀ c op res, e = .done c op res → s.stores = []

/-- The operation of the caller `c` comes to its end, without another call. -/
def Completes (s : CallState γ ι κ σ Op Res Req Rep St) (c : γ) : Prop :=
  ∃ events t res, Run (guarded Settled P.Step) s events t ∧ t.worker = none ∧ t.queue = s.queue ∧
    t.caller = Function.update s.caller c (some (some res)) ∧
    events.filterMap CallEvent.called = []

/-- An operation from its start to its end, with nothing in between. -/
inductive Atomic (a : κ × (ι → σ)) : γ × Op × Res → κ × (ι → σ) → Prop
  | skip {c : γ} {op : Op} {res : Res} {k : κ} (start : P.start a.1 op k (.inl res)) :
    Atomic a (c, op, res) (k, a.2)
  | remote {c : γ} {op : Op} {res : Res} {k k' : κ} {i : ι} {req : Req} {node : σ} {rep : Rep}
    (start : P.start a.1 op k (.inr (i, req))) (handle : P.handle i (a.2 i) req node rep)
    (finish : P.finish ((P.stores rep).foldl P.store k) op k' res) :
    Atomic a (c, op, res) (k', Function.update a.2 i node)

end Protocol

/-! ## The operation in hand -/

/-- `a` is the state in which the operation in hand was started. -/
inductive Phase (P : Protocol ι κ σ Op Res Req Rep St) [DecidableEq ι] (a : κ × (ι → σ))
    (s : CallState γ ι κ σ Op Res Req Rep St) : Prop
  | idle (worker : s.worker = none) (client : s.client = a.1) (node : s.node = a.2)
    (toNode : s.toNode = fun _ => []) (toClient : s.toClient = fun _ => [])
    (stores : s.stores = [])
  | asked {c : γ} {op : Op} {i : ι} {req : Req} (worker : s.worker = some (c, op))
    (start : P.start a.1 op s.client (.inr (i, req))) (node : s.node = a.2)
    (toNode : s.toNode = Function.update (fun _ => []) i [req])
    (toClient : s.toClient = fun _ => []) (stores : s.stores = [])
  | answered {c : γ} {op : Op} {i : ι} {req : Req} {node' : σ} {rep : Rep}
    (worker : s.worker = some (c, op)) (start : P.start a.1 op s.client (.inr (i, req)))
    (handle : P.handle i (a.2 i) req node' rep) (node : s.node = Function.update a.2 i node')
    (toNode : s.toNode = fun _ => [])
    (toClient : s.toClient = Function.update (fun _ => []) i [rep]) (stores : s.stores = [])
  | stored {c : γ} {op : Op} {k : κ} {i : ι} {req : Req} {node' : σ} {rep : Rep} {before : List St}
    (worker : s.worker = some (c, op)) (start : P.start a.1 op k (.inr (i, req)))
    (handle : P.handle i (a.2 i) req node' rep) (node : s.node = Function.update a.2 i node')
    (toNode : s.toNode = fun _ => []) (toClient : s.toClient = fun _ => [])
    (stores : P.stores rep = before ++ s.stores) (client : s.client = before.foldl P.store k)

namespace Phase

variable {P : Protocol ι κ σ Op Res Req Rep St} [DecidableEq ι] {a : κ × (ι → σ)}
  {s t : CallState γ ι κ σ Op Res Req Rep St} {c : γ} {op : Op} {k : κ} {res : Res} {i j : ι}

theorem init (k : κ) (node : ι → σ) :
    Phase P (k, node) (.init k node : CallState γ ι κ σ Op Res Req Rep St) :=
  .idle rfl rfl rfl rfl rfl rfl

theorem of_single {α : Type*} {x y : α} {l : List α}
    (h : Function.update (fun _ => []) i [x] j = y :: l) : j = i ∧ y = x ∧ l = [] := by
  by_cases heq : j = i
  · subst heq
    rw [Function.update_self, List.cons.injEq] at h
    exact ⟨rfl, h.1.symm, h.2.symm⟩
  · rw [Function.update_of_ne heq] at h
    simp at h

theorem idle_of_worker (h : Phase P a s) (hw : s.worker = none) :
    s.client = a.1 ∧ s.node = a.2 ∧ (s.toNode = fun _ => []) ∧ (s.toClient = fun _ => []) ∧
      s.stores = [] := by
  cases h with
  | idle worker client node toNode toClient stores =>
    exact ⟨client, node, toNode, toClient, stores⟩
  | asked worker => simp [hw] at worker
  | answered worker => simp [hw] at worker
  | stored worker => simp [hw] at worker

theorem started (h : Phase P a s) (hw : s.worker = some (c, op)) :
    ∃ k i req, P.start a.1 op k (.inr (i, req)) := by
  cases h with
  | idle worker => simp [hw] at worker
  | asked worker start =>
    obtain ⟨rfl, rfl⟩ := Prod.mk.inj (Option.some.inj (hw.symm.trans worker))
    exact ⟨_, _, _, start⟩
  | answered worker start =>
    obtain ⟨rfl, rfl⟩ := Prod.mk.inj (Option.some.inj (hw.symm.trans worker))
    exact ⟨_, _, _, start⟩
  | stored worker start =>
    obtain ⟨rfl, rfl⟩ := Prod.mk.inj (Option.some.inj (hw.symm.trans worker))
    exact ⟨_, _, _, start⟩

/-- It is the same for all callers and queues. -/
theorem queued (h : Phase P a s) (caller : γ → Option (Option Res)) (queue : List (γ × Op)) :
    Phase P a { s with caller := caller, queue := queue } := by
  cases h with
  | idle worker client node toNode toClient stores =>
    exact .idle worker client node toNode toClient stores
  | asked worker start node toNode toClient stores =>
    exact .asked worker start node toNode toClient stores
  | answered worker start handle node toNode toClient stores =>
    exact .answered worker start handle node toNode toClient stores
  | stored worker start handle node toNode toClient stores client =>
    exact .stored worker start handle node toNode toClient stores client

theorem serve (h : Phase P a s) {req : Req} {rest : List Req} {node : σ} {rep : Rep}
    (first : s.toNode i = req :: rest) (handle : P.handle i (s.node i) req node rep) :
    Phase P a { s with
      toNode := Function.update s.toNode i rest
      node := Function.update s.node i node
      toClient := Function.update s.toClient i (s.toClient i ++ [rep]) } := by
  cases h with
  | idle worker client hnode toNode => simp [toNode] at first
  | answered worker start handle hnode toNode => simp [toNode] at first
  | stored worker start handle hnode toNode => simp [toNode] at first
  | asked worker start hnode toNode toClient stores =>
    rw [toNode] at first
    obtain ⟨rfl, rfl, rfl⟩ := of_single first
    rw [hnode] at handle
    refine .answered worker start handle (by simp [hnode]) ?_ (by simp [toClient]) stores
    rw [toNode, Function.update_idem]
    exact Function.update_eq_self i fun _ => []

theorem deliver (h : Phase P a s) {rep : Rep} {rest : List Rep}
    (first : s.toClient i = rep :: rest) :
    Phase P a { s with
      toClient := Function.update s.toClient i rest, stores := P.stores rep } := by
  cases h with
  | idle worker client hnode toNode toClient => simp [toClient] at first
  | asked worker start hnode toNode toClient => simp [toClient] at first
  | stored worker start handle hnode toNode toClient => simp [toClient] at first
  | answered worker start handle hnode toNode toClient stores =>
    rw [toClient] at first
    obtain ⟨rfl, rfl, rfl⟩ := of_single first
    refine .stored worker start handle hnode toNode ?_ (List.nil_append _).symm rfl
    rw [toClient, Function.update_idem]
    exact Function.update_eq_self i fun _ => []

theorem store (h : Phase P a s) {st : St} {rest : List St} (first : s.stores = st :: rest) :
    Phase P a { s with client := P.store s.client st, stores := rest } := by
  cases h with
  | idle worker client hnode toNode toClient stores => simp [stores] at first
  | asked worker start hnode toNode toClient stores => simp [stores] at first
  | answered worker start handle hnode toNode toClient stores => simp [stores] at first
  | @stored c op k i req node' rep before worker start handle hnode toNode toClient stores client =>
    rw [first, List.append_cons] at stores
    exact .stored worker start handle hnode toNode toClient stores (by simp [client])

/-- The worker has seen the whole answer. -/
theorem finish (h : Phase P a s) (hw : s.worker = some (c, op)) (hstores : s.stores = [])
    (hwait : ∀ k i req k' res, P.start a.1 op k (.inr (i, req)) → ¬ P.finish k op k' res)
    (hf : P.finish s.client op k res) : ∃ a', P.Atomic a (c, op, res) a' ∧
      a'.1 = k ∧ a'.2 = s.node ∧ (s.toNode = fun _ => []) ∧ s.toClient = fun _ => [] := by
  cases h with
  | idle worker => simp [hw] at worker
  | asked worker start =>
    obtain ⟨rfl, rfl⟩ := Prod.mk.inj (Option.some.inj (hw.symm.trans worker))
    exact absurd hf (hwait _ _ _ _ _ start)
  | answered worker start =>
    obtain ⟨rfl, rfl⟩ := Prod.mk.inj (Option.some.inj (hw.symm.trans worker))
    exact absurd hf (hwait _ _ _ _ _ start)
  | stored worker start handle hnode toNode toClient stores client =>
    obtain ⟨rfl, rfl⟩ := Prod.mk.inj (Option.some.inj (hw.symm.trans worker))
    rw [hstores, List.append_nil] at stores
    rw [client, ← stores] at hf
    exact ⟨_, .remote start handle hf, rfl, hnode.symm, toNode, toClient⟩

/-- An event that ends an operation performs all of it. -/
theorem step [DecidableEq γ] {e : CallEvent γ ι Op Res} (h : Phase P a s)
    (hwait : ∀ op k i req k' res, P.start a.1 op k (.inr (i, req)) → ¬ P.finish k op k' res)
    (hs : P.Step s e t) (settled : Protocol.Settled s e) :
    ∃ a', Run P.Atomic a e.finished.toList a' ∧ Phase P a' t := by
  cases hs with
  | call idle => exact ⟨a, .refl a, h.queued _ _⟩
  | ret result => exact ⟨a, .refl a, h.queued _ s.queue⟩
  | take idle first start =>
    obtain ⟨hclient, hnode, htoNode, htoClient, hstores⟩ := h.idle_of_worker idle
    rw [hclient] at start
    exact ⟨a, .refl a, .asked rfl start hnode (by simp [htoNode]) htoClient hstores⟩
  | serve first handle => exact ⟨a, .refl a, h.serve first handle⟩
  | deliver idle first => exact ⟨a, .refl a, h.deliver first⟩
  | store first => exact ⟨a, .refl a, h.store first⟩
  | skip idle first start =>
    obtain ⟨hclient, hnode, htoNode, htoClient, hstores⟩ := h.idle_of_worker idle
    rw [hclient] at start
    exact ⟨_, .single (.skip start), .idle idle rfl hnode htoNode htoClient hstores⟩
  | finish hand hf =>
    have hstores := settled _ _ _ rfl
    obtain ⟨a', ha', hclient, hnode, htoNode, htoClient⟩ := h.finish hand hstores (hwait _) hf
    exact ⟨a', .single ha', .idle rfl hclient.symm hnode.symm htoNode htoClient hstores⟩

variable [DecidableEq γ]

/-- The event thread has stored the whole answer. -/
theorem run_stores (l : List St) : ∀ s : CallState γ ι κ σ Op Res Req Rep St, s.stores = l →
    Run (guarded Protocol.Settled P.Step) s (List.replicate l.length .store)
      { s with client := l.foldl P.store s.client, stores := [] } := by
  induction l with
  | nil =>
    rintro ⟨⟩ rfl
    exact .refl _
  | cons st l ih =>
    intro s hs
    exact .cons ⟨fun _ _ _ he => (by cases he), .store hs⟩
      (ih { s with client := P.store s.client st, stores := l } rfl)

/-- The operation in hand comes to its end, if its node can answer, and if every answer ends the
wait. -/
theorem completes (h : Phase P a s) (hw : s.worker = some (c, op))
    (answer : ∀ k i req, P.start a.1 op k (.inr (i, req)) →
      ∃ node rep, P.handle i (a.2 i) req node rep)
    (ends : ∀ k i req node rep, P.start a.1 op k (.inr (i, req)) →
      P.handle i (a.2 i) req node rep →
        ∃ k' res, P.finish ((P.stores rep).foldl P.store k) op k' res) :
    P.Completes s c := by
  have stored : ∀ (s : CallState γ ι κ σ Op Res Req Rep St) k i req node rep before,
      s.worker = some (c, op) → P.start a.1 op k (.inr (i, req)) →
      P.handle i (a.2 i) req node rep → P.stores rep = before ++ s.stores →
      s.client = before.foldl P.store k → P.Completes s c := by
    intro s k i req node rep before hw start handle hstores hclient
    obtain ⟨k', res, hf⟩ := ends k i req node rep start handle
    rw [hstores, List.foldl_append, ← hclient] at hf
    have hfinish := Protocol.Step.finish (P := P)
      (s := { s with client := s.stores.foldl P.store s.client, stores := [] }) hw hf
    refine ⟨_, _, res, (run_stores s.stores s rfl).trans (.single ⟨fun _ _ _ _ => rfl, hfinish⟩),
      rfl, rfl, rfl, ?_⟩
    rw [List.filterMap_append, List.filterMap_replicate_of_none rfl]
    rfl
  have answered : ∀ (s : CallState γ ι κ σ Op Res Req Rep St) i req node rep,
      s.worker = some (c, op) → P.start a.1 op s.client (.inr (i, req)) →
      P.handle i (a.2 i) req node rep → s.toClient i = [rep] → s.stores = [] →
      P.Completes s c := by
    intro s i req node rep hw start handle htoClient hstores
    obtain ⟨events, t, res, run, hworker, hqueue, hcaller, hcalled⟩ := stored
      { s with toClient := Function.update s.toClient i [], stores := P.stores rep }
      s.client i req node rep [] hw start handle rfl rfl
    exact ⟨_, t, res, .cons ⟨fun _ _ _ he => (by cases he), .deliver hstores htoClient⟩ run,
      hworker, hqueue, hcaller, hcalled⟩
  cases h with
  | idle worker => simp [hw] at worker
  | @asked c' op' i req worker start node toNode toClient stores =>
    obtain ⟨rfl, rfl⟩ := Prod.mk.inj (Option.some.inj (hw.symm.trans worker))
    obtain ⟨node', rep, handle⟩ := answer _ i req start
    obtain ⟨events, t, res, run, hworker, hqueue, hcaller, hcalled⟩ := answered
      { s with
        toNode := Function.update s.toNode i []
        node := Function.update s.node i node'
        toClient := Function.update s.toClient i (s.toClient i ++ [rep]) }
      i req node' rep hw start handle (by simp [toClient]) stores
    have first : s.toNode i = [req] := by simp [toNode]
    rw [← node] at handle
    exact ⟨_, t, res, .cons ⟨fun _ _ _ he => (by cases he), .serve first handle⟩ run, hworker,
      hqueue, hcaller, hcalled⟩
  | @answered c' op' i req node' rep worker start handle node toNode toClient stores =>
    obtain ⟨rfl, rfl⟩ := Prod.mk.inj (Option.some.inj (hw.symm.trans worker))
    exact answered s i req node' rep hw start handle (by simp [toClient]) stores
  | @stored c' op' k i req node' rep before worker start handle node toNode toClient hs client =>
    obtain ⟨rfl, rfl⟩ := Prod.mk.inj (Option.some.inj (hw.symm.trans worker))
    exact stored s k i req node' rep before hw start handle hs client

end Phase

/-! ## Callers -/

/-- A caller with an operation in the queue or in hand waits, and has only that one there. -/
structure Waiting (s : CallState γ ι κ σ Op Res Req Rep St) : Prop where
  nodup : ((s.worker.toList ++ s.queue).map Prod.fst).Nodup
  waits : ∀ c op, (c, op) ∈ s.worker.toList ++ s.queue → s.caller c = some none

namespace Waiting

variable {P : Protocol ι κ σ Op Res Req Rep St} {s t : CallState γ ι κ σ Op Res Req Rep St}
  {c : γ} {op : Op} {rest : List (γ × Op)}

/-- The first operation is over. -/
theorem done (h : Waiting s) (hl : s.worker.toList ++ s.queue = (c, op) :: rest) :
    (rest.map Prod.fst).Nodup ∧ s.caller c = some none ∧
      ∀ c' op', (c', op') ∈ rest → c' ≠ c ∧ s.caller c' = some none := by
  have hnodup := h.nodup
  rw [hl, List.map_cons, List.nodup_cons] at hnodup
  refine ⟨hnodup.2, h.waits c op (by simp [hl]), fun c' op' hmem => ⟨?_, ?_⟩⟩
  · rintro rfl
    exact hnodup.1 (List.mem_map.mpr ⟨_, hmem, rfl⟩)
  · exact h.waits c' op' (by simp [hl, hmem])

theorem step [DecidableEq γ] [DecidableEq ι] {e : CallEvent γ ι Op Res} (h : Waiting s)
    (hs : P.Step s e t) : Waiting t := by
  have keep : ∀ {t : CallState γ ι κ σ Op Res Req Rep St}, t.caller = s.caller →
      t.worker.toList ++ t.queue = s.worker.toList ++ s.queue → Waiting t := by
    intro t hcaller hl
    exact ⟨hl ▸ h.nodup, fun c op hmem => hcaller ▸ h.waits c op (hl ▸ hmem)⟩
  have ended : ∀ {t : CallState γ ι κ σ Op Res Req Rep St} (c : γ) (op : Op) {r : Option Res},
      t.caller = Function.update s.caller c (some r) →
      s.worker.toList ++ s.queue = (c, op) :: (t.worker.toList ++ t.queue) → Waiting t := by
    intro t c op r hcaller hl
    obtain ⟨hnodup, -, hrest⟩ := h.done hl
    refine ⟨hnodup, fun c' op' hmem => ?_⟩
    rw [hcaller, Function.update_of_ne (hrest c' op' hmem).1]
    exact (hrest c' op' hmem).2
  cases hs with
  | @call c op idle =>
    have hnew : ∀ op', (c, op') ∉ s.worker.toList ++ s.queue := by
      intro op' hmem
      simp [h.waits c op' hmem] at idle
    constructor
    · rw [← List.append_assoc, List.map_append, List.nodup_append]
      refine ⟨h.nodup, by simp, fun x hx y hy => ?_⟩
      obtain ⟨⟨c', op'⟩, hmem, rfl⟩ := List.mem_map.mp hx
      obtain rfl : y = c := by simpa using hy
      rintro rfl
      exact hnew op' hmem
    · intro c' op' hmem
      rw [← List.append_assoc] at hmem
      rcases List.mem_append.mp hmem with hmem | hmem
      · dsimp only
        rw [Function.update_of_ne]
        · exact h.waits c' op' hmem
        · rintro rfl
          exact hnew op' hmem
      · obtain ⟨rfl, rfl⟩ : c' = c ∧ op' = op := by simpa using hmem
        exact Function.update_self ..
  | take idle first => exact keep rfl (by simp [idle, first])
  | serve => exact keep rfl rfl
  | deliver => exact keep rfl rfl
  | store => exact keep rfl rfl
  | @skip c op _ _ _ idle first => exact ended c op rfl (by simp [idle, first])
  | @finish c op _ _ hand => exact ended c op rfl (by simp [hand])
  | @ret c res result =>
    refine ⟨h.nodup, fun c' op' hmem => ?_⟩
    have hwait := h.waits c' op' hmem
    dsimp only
    rw [Function.update_of_ne]
    · exact hwait
    · rintro rfl
      simp [result] at hwait

end Waiting

/-! ## Runs -/

/-- What the callers see: operations that run one after the other from `a₀`, in the order of the
calls, none lost and none done twice, and every caller gets the results of its own. -/
structure Served (P : Protocol ι κ σ Op Res Req Rep St) [DecidableEq γ] [DecidableEq ι]
    (a₀ : κ × (ι → σ)) (events : List (CallEvent γ ι Op Res))
    (s : CallState γ ι κ σ Op Res Req Rep St) (a : κ × (ι → σ)) : Prop where
  serial : Run P.Atomic a₀ (events.filterMap CallEvent.finished) a
  order : events.filterMap CallEvent.called =
    (events.filterMap CallEvent.finished).map (fun entry => (entry.1, entry.2.1)) ++
      s.worker.toList ++ s.queue
  results : ∀ c, resultsOf c (events.filterMap CallEvent.finished) =
    events.filterMap (CallEvent.returned c) ++ (s.caller c).join.toList

namespace Served

variable {P : Protocol ι κ σ Op Res Req Rep St} [DecidableEq γ] [DecidableEq ι]
  {a₀ a a' : κ × (ι → σ)} {events : List (CallEvent γ ι Op Res)} {e : CallEvent γ ι Op Res}
  {s t : CallState γ ι κ σ Op Res Req Rep St}

theorem init (P : Protocol ι κ σ Op Res Req Rep St) (k : κ) (node : ι → σ) :
    Served P (k, node) [] (.init k node : CallState γ ι κ σ Op Res Req Rep St) (k, node) :=
  ⟨.refl _, rfl, fun _ => rfl⟩

theorem resultsOf_append (c : γ) (log log' : List (γ × Op × Res)) :
    resultsOf c (log ++ log') = resultsOf c log ++ resultsOf c log' := by
  simp [resultsOf]

/-- A result is for the caller whose operation is over. -/
theorem resultsOf_single (c c' : γ) (op : Op) (res : Res) :
    resultsOf c' [(c, op, res)] = if c = c' then [res] else [] := by
  by_cases h : c = c' <;> simp [resultsOf, h]

theorem step (h : Served P a₀ events s a) (hw : Waiting s) (hs : P.Step s e t)
    (ha : Run P.Atomic a e.finished.toList a') : Served P a₀ (events ++ [e]) t a' := by
  have hfin : (events ++ [e]).filterMap CallEvent.finished =
      events.filterMap CallEvent.finished ++ e.finished.toList := by
    cases he : e.finished <;> simp [he]
  have hcall : (events ++ [e]).filterMap CallEvent.called =
      events.filterMap CallEvent.called ++ e.called.toList := by
    cases he : e.called <;> simp [he]
  have hret : ∀ c, (events ++ [e]).filterMap (CallEvent.returned c) =
      events.filterMap (CallEvent.returned c) ++ (e.returned c).toList := by
    intro c
    cases he : e.returned c <;> simp [he]
  -- an operation is over: its caller waited for it, and gets its result
  have ended : ∀ c op res rest, s.worker.toList ++ s.queue = (c, op) :: rest → ∀ c',
      resultsOf c' (events.filterMap CallEvent.finished ++ [(c, op, res)]) =
        events.filterMap (CallEvent.returned c') ++
          (Function.update s.caller c (some (some res)) c').join.toList := by
    intro c op res rest hl c'
    rw [resultsOf_append, h.results, resultsOf_single]
    by_cases hc : c = c'
    · subst hc
      simp [(hw.done hl).2.1]
    · simp [hc, Function.update_of_ne (Ne.symm hc)]
  refine ⟨hfin ▸ h.serial.trans ha, ?_, fun c' => ?_⟩
  · rw [hfin, hcall, h.order]
    cases hs with
    | call => simp [CallEvent.finished, CallEvent.called]
    | take idle first => simp [CallEvent.finished, CallEvent.called, idle, first]
    | serve => simp [CallEvent.finished, CallEvent.called]
    | deliver => simp [CallEvent.finished, CallEvent.called]
    | store => simp [CallEvent.finished, CallEvent.called]
    | skip idle first => simp [CallEvent.finished, CallEvent.called, idle, first]
    | finish hand => simp [CallEvent.finished, CallEvent.called, hand]
    | ret => simp [CallEvent.finished, CallEvent.called]
  · rw [hfin, hret]
    cases hs with
    | @call c op idle =>
      have := h.results c'
      by_cases hc : c' = c
      · subst hc
        simpa [CallEvent.finished, CallEvent.returned, idle] using this
      · simpa [CallEvent.finished, CallEvent.returned, hc] using this
    | take => simpa [CallEvent.finished, CallEvent.returned] using h.results c'
    | serve => simpa [CallEvent.finished, CallEvent.returned] using h.results c'
    | deliver => simpa [CallEvent.finished, CallEvent.returned] using h.results c'
    | store => simpa [CallEvent.finished, CallEvent.returned] using h.results c'
    | @skip c op rest k res idle first =>
      simpa [CallEvent.finished, CallEvent.returned] using
        ended c op res rest (by simp [idle, first]) c'
    | @finish c op k res hand =>
      simpa [CallEvent.finished, CallEvent.returned] using
        ended c op res s.queue (by simp [hand]) c'
    | @ret c res result =>
      have := h.results c'
      by_cases hc : c' = c
      · subst hc
        simpa [CallEvent.finished, CallEvent.returned, result] using this
      · simpa [CallEvent.finished, CallEvent.returned, hc, Ne.symm hc] using this

end Served

/-- Whatever the interleaving, the callers are served one after the other. `Inv` is what the
operations keep, and what makes the worker wait for an answer. -/
theorem Protocol.serial {P : Protocol ι κ σ Op Res Req Rep St} [DecidableEq γ] [DecidableEq ι]
    (Inv : κ × (ι → σ) → Prop)
    {ok : CallState γ ι κ σ Op Res Req Rep St → CallEvent γ ι Op Res → Prop} {k₀ : κ}
    {node₀ : ι → σ} (start : Inv (k₀, node₀))
    (keep : ∀ a (entry : γ × Op × Res) a', Inv a → P.Atomic a entry a' → Inv a')
    (wait : ∀ a op k i req k' res, Inv a → P.start a.1 op k (.inr (i, req)) →
      ¬ P.finish k op k' res)
    (settled : ∀ a s e t, Inv a → Phase P a s → P.Step s e t → ok s e → Settled s e)
    {events : List (CallEvent γ ι Op Res)} {s : CallState γ ι κ σ Op Res Req Rep St}
    (run : Run (guarded ok P.Step) (.init k₀ node₀) events s) :
    ∃ a, Served P (k₀, node₀) events s a ∧ Phase P a s ∧ Inv a := by
  have inv : (∃ a, Served P (k₀, node₀) events s a ∧ Phase P a s ∧ Inv a) ∧ Waiting s := by
    apply run.history (fun events s =>
      (∃ a, Served P (k₀, node₀) events s a ∧ Phase P a s ∧ Inv a) ∧ Waiting s)
    · exact ⟨⟨_, .init P k₀ node₀, .init k₀ node₀, start⟩, by simp [CallState.init], by
        simp [CallState.init]⟩
    · rintro events s e t ⟨⟨a, hserved, hphase, hinv⟩, hwaiting⟩ ⟨hok, hs⟩
      obtain ⟨a', ha', hphase'⟩ := hphase.step
        (fun op k i req k' res => wait a op k i req k' res hinv) hs
        (settled a s e t hinv hphase hs hok)
      refine ⟨⟨a', hserved.step hwaiting hs ha', hphase', ?_⟩, hwaiting.step hs⟩
      exact ha'.invariant Inv (fun a entry a' => keep a entry a') hinv
  exact inv.1

/-! ## One operation after the other -/

/-- A channel that has been emptied. -/
theorem update_nil {α : Type*} [DecidableEq ι] (i : ι) :
    Function.update (fun _ : ι => ([] : List α)) i [] = fun _ => [] :=
  Function.update_eq_self_iff.mpr rfl

/-- No operation is in hand. -/
def CallState.resting (caller : γ → Option (Option Res)) (queue : List (γ × Op)) (k : κ)
    (node : ι → σ) : CallState γ ι κ σ Op Res Req Rep St :=
  ⟨caller, queue, none, k, fun _ => [], fun _ => [], [], node⟩

namespace Protocol

variable [DecidableEq γ] [DecidableEq ι] {P : Protocol ι κ σ Op Res Req Rep St} {k : κ}
  {node : ι → σ} {a : κ × (ι → σ)} {c : γ} {op : Op} {res : Res}
  {caller : γ → Option (Option Res)} {queue : List (γ × Op)}

theorem step_call (idle : caller c = none) : P.Step (.resting caller queue k node) (.call c op)
    (.resting (Function.update caller c (some none)) (queue ++ [(c, op)]) k node) :=
  .call idle

theorem step_ret (result : caller c = some (some res)) :
    P.Step (.resting caller queue k node) (.ret c res)
      (.resting (Function.update caller c none) queue k node) :=
  .ret result

/-- The first operation of the queue is performed, and nobody calls or returns meanwhile. -/
theorem Atomic.performed (h : P.Atomic (k, node) (c, op, res) a)
    (caller : γ → Option (Option Res)) (queue : List (γ × Op)) :
    ∃ events : List (CallEvent γ ι Op Res),
      events.filterMap CallEvent.finished = [(c, op, res)] ∧
      (∀ e ∈ events, e.called = none ∧ ∀ c', e.returned c' = none) ∧
      Run (guarded Settled P.Step) (.resting caller ((c, op) :: queue) k node) events
        (.resting (Function.update caller c (some (some res))) queue a.1 a.2) := by
  cases h with
  | @skip _ _ _ k' start =>
    have hstep := Step.skip (P := P) (s := .resting caller ((c, op) :: queue) k node) rfl rfl start
    exact ⟨[.done c op res], rfl, by simp [CallEvent.called, CallEvent.returned],
      .single ⟨fun _ _ _ _ => rfl, hstep⟩⟩
  | @remote _ _ _ k₁ k₂ i req node' rep start handle finish =>
    have take := Step.take (P := P) (s := .resting caller ((c, op) :: queue) k node) rfl rfl start
    have serve := Step.serve (P := P)
      (s := ⟨caller, queue, some (c, op), k₁, Function.update (fun _ => []) i [req],
        fun _ => [], [], node⟩)
      (show Function.update (fun _ => []) i [req] i = [req] from Function.update_self ..) handle
    have deliver := Step.deliver (P := P)
      (s := ⟨caller, queue, some (c, op), k₁, fun _ => [], Function.update (fun _ => []) i [rep],
        [], Function.update node i node'⟩)
      rfl (show Function.update (fun _ => []) i [rep] i = [rep] from Function.update_self ..)
    have stores := Phase.run_stores (P := P) (P.stores rep)
      ⟨caller, queue, some (c, op), k₁, fun _ => [], fun _ => [], P.stores rep,
        Function.update node i node'⟩ rfl
    have done := Step.finish (P := P)
      (s := ⟨caller, queue, some (c, op), (P.stores rep).foldl P.store k₁, fun _ => [],
        fun _ => [], [], Function.update node i node'⟩) rfl finish
    simp only [CallState.resting, Function.update_idem, update_nil] at take serve deliver
    refine ⟨_, ?_, ?_, (Run.cons ⟨fun _ _ _ he => (by cases he), take⟩
      (.cons ⟨fun _ _ _ he => (by cases he), serve⟩
      (.cons ⟨fun _ _ _ he => (by cases he), deliver⟩ stores))).trans
      (.single ⟨fun _ _ _ _ => rfl, done⟩)⟩
    · rw [List.filterMap_append, List.filterMap_cons_none rfl, List.filterMap_cons_none rfl,
        List.filterMap_cons_none rfl, List.filterMap_replicate_of_none rfl]
      rfl
    · intro e he
      simp only [List.mem_append, List.mem_cons, List.mem_replicate, List.not_mem_nil,
        or_false] at he
      rcases he with (rfl | rfl | rfl | ⟨-, rfl⟩) | rfl <;> exact ⟨rfl, fun _ => rfl⟩

end Protocol

end Library
