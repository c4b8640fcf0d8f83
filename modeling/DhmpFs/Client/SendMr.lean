import DhmpFs.Client.AddrTable

/-!
# The pool of registered regions

A remote read or write needs a registered memory region. A long transfer registers the buffer of
the caller and gives the region up at its end. A short one goes through a region of the client:
regions that no transfer uses are kept on `send_mr_list`. A read puts its region back before it
returns; for a write the completion handler does.

Every call runs on a thread of its own and the completions arrive in any order. Only calls that
succeed are modelled; what the buffers hold is left out.

## Main definitions

* `SmrStep`: the calls of `dhmp_rdma_read` and `dhmp_rdma_write` and the completions.
* `RdmaCall.Uses`: the call has not given its region back.
* `PoolExclusive`: who may have which region.
-/

namespace DhmpFs

open Library

/-! ## Regions -/

/-- `RDMA_SEND_THREASHOLD` -/
abbrev rdmaSendThreashold : Nat := 524288

/-- Whose memory a region is registered on: the `local_addr` of a caller, the `new_addr` of
`dhmp_get_mr_from_send_list`, or the buffer that `dhmp_client_init` gives to `read_mr`. -/
inductive MrOwner where
  | caller
  | pool
  | readMr
  deriving DecidableEq, Repr

/-- The address of a `dhmp_send_mr`. -/
abbrev SmrId := Nat

/-- A `dhmp_send_mr` with its `ibv_mr`; `deregs` counts the calls of `ibv_dereg_mr`. -/
structure SendMr where
  owner : MrOwner
  length : Nat
  deregs : Nat
  deriving DecidableEq, Repr

inductive RdmaOpcode where
  | read
  | write
  deriving DecidableEq, Repr

/-- A `dhmp_task` and the opcode of its work request; `length` is `sge.length`. -/
structure RdmaTask where
  opcode : RdmaOpcode
  smr : SmrId
  length : Nat
  doneFlag : Bool
  deriving DecidableEq, Repr

/-- `dhmp_read_task_create` -/
def dhmpReadTaskCreate (smr : SmrId) (length : Nat) : RdmaTask := ⟨.read, smr, length, false⟩

/-- `dhmp_write_task_create` -/
def dhmpWriteTaskCreate (smr : SmrId) (length : Nat) : RdmaTask := ⟨.write, smr, length, false⟩

/-- A call that waits for its tasks; `probe` is the read a write posts behind itself. -/
structure RdmaCall where
  smr : SmrId
  length : Nat
  task : RdmaTask
  probe : Option RdmaTask
  deriving DecidableEq, Repr

/-- The regions, `send_mr_list`, and the call each thread is in. `fresh` is the next address that
`malloc` returns for a `dhmp_send_mr`. -/
structure SmrState where
  smrs : SmrId → SendMr
  fresh : SmrId
  sendMrList : List SmrId
  calls : Nat → Option RdmaCall

/-- `client->read_mr[node_id]` -/
def readMr (nodeId : Nat) : SmrId := nodeId

namespace SmrState

/-- `dhmp_client_init(size)`: the list is empty, and each server has its `read_mr`. -/
def start (size : Nat) : SmrState where
  smrs _ := ⟨.readMr, size, 0⟩
  fresh := dhmpServerNodeNum
  sendMrList := []
  calls _ := none

/-- `malloc` of a `dhmp_send_mr` and `ibv_reg_mr`. -/
def register (s : SmrState) (owner : MrOwner) (length : Nat) : SmrState × SmrId :=
  ({ s with smrs := Function.update s.smrs s.fresh ⟨owner, length, 0⟩, fresh := s.fresh + 1 },
    s.fresh)

/-- `ibv_dereg_mr` -/
def dereg (s : SmrState) (smr : SmrId) : SmrState :=
  let mr := s.smrs smr
  { s with smrs := Function.update s.smrs smr { mr with deregs := mr.deregs + 1 } }

/-- `list_add` to `send_mr_list`. -/
def listAdd (s : SmrState) (smr : SmrId) : SmrState :=
  { s with sendMrList := smr :: s.sendMrList }

def setCall (s : SmrState) (t : Nat) (call : Option RdmaCall) : SmrState :=
  { s with calls := Function.update s.calls t call }

/-- `dhmp_get_mr_from_send_list` -/
def dhmpGetMrFromSendList (s : SmrState) (length : Nat) : SmrState × SmrId :=
  if rdmaSendThreashold < length then s.register .caller length
  else
    match s.sendMrList.find? fun tmp => length ≤ (s.smrs tmp).length with
    | none => s.register .pool length
    | some tmp => ({ s with sendMrList := s.sendMrList.erase tmp }, tmp)

/-- `dhmp_rdma_read` up to the loop that waits. -/
def dhmpRdmaReadPost (s : SmrState) (t length : Nat) : SmrState :=
  let (s, smr) := s.dhmpGetMrFromSendList length
  s.setCall t (some ⟨smr, length, dhmpReadTaskCreate smr length, none⟩)

/-- `dhmp_rdma_write` up to the loops that wait. -/
def dhmpRdmaWritePost (s : SmrState) (t nodeId length : Nat) : SmrState :=
  let (s, smr) := s.dhmpGetMrFromSendList length
  s.setCall t (some ⟨smr, length, dhmpWriteTaskCreate smr length,
    some (dhmpReadTaskCreate (readMr nodeId) 1)⟩)

/-- `dhmp_wc_success_handler` and the task after it. -/
def dhmpWcSuccessHandler (s : SmrState) (task : RdmaTask) : SmrState × RdmaTask :=
  match task.opcode with
  | .write =>
    (if task.length ≤ rdmaSendThreashold then s.listAdd task.smr else s,
      { task with doneFlag := true })
  | .read => (s, { task with doneFlag := true })

theorem dhmpWcSuccessHandler_read {s : SmrState} {task : RdmaTask} (hop : task.opcode = .read) :
    s.dhmpWcSuccessHandler task = (s, { task with doneFlag := true }) := by
  rw [dhmpWcSuccessHandler, hop]

theorem dhmpWcSuccessHandler_write {s : SmrState} {task : RdmaTask} (hop : task.opcode = .write) :
    s.dhmpWcSuccessHandler task =
      (if task.length ≤ rdmaSendThreashold then s.listAdd task.smr else s,
        { task with doneFlag := true }) := by
  rw [dhmpWcSuccessHandler, hop]

/-- `dhmp_rdma_read` after the loop: a short read puts its region back. -/
def dhmpRdmaReadReturn (s : SmrState) (t : Nat) (call : RdmaCall) : SmrState :=
  (if rdmaSendThreashold < call.length then s.dereg call.smr else s.listAdd call.smr).setCall t none

/-- `dhmp_rdma_write` after the loops. -/
def dhmpRdmaWriteReturn (s : SmrState) (t : Nat) (call : RdmaCall) : SmrState :=
  (if rdmaSendThreashold < call.length then s.dereg call.smr else s).setCall t none

end SmrState

/-! ## Steps -/

inductive SmrAction where
  | read (t length : Nat)
  | write (t nodeId length : Nat)
  | complete (t : Nat)
  | completeProbe (t : Nat)
  | ret (t : Nat)
  deriving DecidableEq, Repr

/-- A thread calls, a task completes, or a thread finds its tasks done and returns. -/
inductive SmrStep (s : SmrState) : SmrAction → SmrState → Prop
  | read {t length : Nat} (idle : s.calls t = none) (positive : 0 < length) :
      SmrStep s (.read t length) (s.dhmpRdmaReadPost t length)
  | write {t nodeId length : Nat} (idle : s.calls t = none) (server : nodeId < dhmpServerNodeNum)
      (positive : 0 < length) : SmrStep s (.write t nodeId length)
        (s.dhmpRdmaWritePost t nodeId length)
  | complete {t : Nat} {call : RdmaCall} (hcall : s.calls t = some call)
      (posted : call.task.doneFlag = false) : SmrStep s (.complete t)
        ((s.dhmpWcSuccessHandler call.task).1.setCall t
          (some { call with task := (s.dhmpWcSuccessHandler call.task).2 }))
  | completeProbe {t : Nat} {call : RdmaCall} {probe : RdmaTask} (hcall : s.calls t = some call)
      (hprobe : call.probe = some probe) (posted : probe.doneFlag = false) :
      SmrStep s (.completeProbe t)
        ((s.dhmpWcSuccessHandler probe).1.setCall t
          (some { call with probe := some (s.dhmpWcSuccessHandler probe).2 }))
  | retRead {t : Nat} {call : RdmaCall} (hcall : s.calls t = some call)
      (hop : call.task.opcode = .read) (done : call.task.doneFlag = true) :
      SmrStep s (.ret t) (s.dhmpRdmaReadReturn t call)
  | retWrite {t : Nat} {call : RdmaCall} (hcall : s.calls t = some call)
      (hop : call.task.opcode = .write) (done : call.task.doneFlag = true)
      (probed : ∀ probe, call.probe = some probe → probe.doneFlag = true) :
      SmrStep s (.ret t) (s.dhmpRdmaWriteReturn t call)

/-- The call has not given its region back: a short write does when it completes, every other call
when it returns. -/
def RdmaCall.Uses (call : RdmaCall) : Prop :=
  ¬ (call.task.opcode = .write ∧ call.length ≤ rdmaSendThreashold ∧ call.task.doneFlag = true)

instance (call : RdmaCall) : Decidable call.Uses := inferInstanceAs (Decidable (¬ _))

/-- A region is on the list at most once and not while a call uses it, no two calls use one
region, and short calls have a region of the pool that is long enough. A region on the buffer of a
caller is never on the list; it is registered while its call lasts and deregistered once. -/
structure PoolExclusive (s : SmrState) : Prop where
  once : s.sendMrList.Nodup
  pooled : ∀ r ∈ s.sendMrList, (s.smrs r).owner = .pool ∧ (s.smrs r).deregs = 0
  unused : ∀ t call, s.calls t = some call → call.Uses → call.smr ∉ s.sendMrList
  exclusive : ∀ t call t' call', s.calls t = some call → call.Uses → s.calls t' = some call' →
    call'.Uses → call.smr = call'.smr → t = t'
  short : ∀ t call, s.calls t = some call → call.length ≤ rdmaSendThreashold →
    call.length ≤ (s.smrs call.smr).length ∧ (s.smrs call.smr).owner = .pool ∧
      (s.smrs call.smr).deregs = 0
  callerBuffer : ∀ r < s.fresh, (s.smrs r).owner = .caller → r ∉ s.sendMrList ∧
    ((∃ t call, s.calls t = some call ∧ call.smr = r) ∧ (s.smrs r).deregs = 0 ∨
      (∀ t call, s.calls t = some call → call.smr ≠ r) ∧ (s.smrs r).deregs = 1)

/-! ## The invariant -/

/-- What a call in progress keeps. -/
structure CallKept (s : SmrState) (call : RdmaCall) : Prop where
  lt : call.smr < s.fresh
  task_smr : call.task.smr = call.smr
  task_length : call.task.length = call.length
  probe : ∀ probe, call.probe = some probe → probe.opcode = .read
  long : rdmaSendThreashold < call.length → (s.smrs call.smr).owner = .caller

theorem CallKept.congr {s s' : SmrState} {call : RdmaCall} (h : CallKept s call)
    (hsmrs : s'.smrs = s.smrs) (hfresh : s'.fresh = s.fresh) : CallKept s' call := by
  obtain ⟨smrs, fresh, _, _⟩ := s
  obtain ⟨smrs', fresh', _, _⟩ := s'
  obtain rfl : smrs' = smrs := hsmrs
  obtain rfl : fresh' = fresh := hfresh
  exact ⟨h.lt, h.task_smr, h.task_length, h.probe, h.long⟩

structure SmrInv (s : SmrState) : Prop extends PoolExclusive s where
  listed : ∀ r ∈ s.sendMrList, r < s.fresh
  kept : ∀ t call, s.calls t = some call → CallKept s call

namespace SmrInv

variable {s s' : SmrState} {t length : Nat} {r : SmrId} {call call' : RdmaCall}

theorem start (size : Nat) : SmrInv (.start size) where
  once := List.nodup_nil
  pooled := by simp [SmrState.start]
  unused := by simp [SmrState.start]
  exclusive := by simp [SmrState.start]
  short := by simp [SmrState.start]
  callerBuffer := by simp [SmrState.start]
  listed := by simp [SmrState.start]
  kept := by simp [SmrState.start]

/-- Calls go on with the regions they have, or end; what is left of the buffers of callers is to be
shown. -/
theorem withCalls (h : SmrInv s) {calls : Nat → Option RdmaCall}
    (hcalls : ∀ t call', calls t = some call' → ∃ call, s.calls t = some call ∧
      call'.smr = call.smr ∧ call'.length = call.length ∧ (call'.Uses → call.Uses) ∧
      CallKept s call')
    (hbuffer : ∀ r < s.fresh, (s.smrs r).owner = .caller →
      (∃ t call, calls t = some call ∧ call.smr = r) ∧ (s.smrs r).deregs = 0 ∨
        (∀ t call, calls t = some call → call.smr ≠ r) ∧ (s.smrs r).deregs = 1) :
    SmrInv { s with calls := calls } where
  once := h.once
  pooled := h.pooled
  listed := h.listed
  unused t call' hc' huses := by
    obtain ⟨call, hc, hsmr, -, hmono, -⟩ := hcalls t call' hc'
    exact hsmr ▸ h.unused t call hc (hmono huses)
  exclusive t call' u other' hc' huses hd' huses' heq := by
    obtain ⟨call, hc, hsmr, -, hmono, -⟩ := hcalls t call' hc'
    obtain ⟨other, hd, hsmr', -, hmono', -⟩ := hcalls u other' hd'
    exact h.exclusive t call u other hc (hmono huses) hd (hmono' huses')
      (by rw [← hsmr, heq, hsmr'])
  short t call' hc' hshort := by
    obtain ⟨call, hc, hsmr, hlength, -, -⟩ := hcalls t call' hc'
    rw [hsmr, hlength]
    exact h.short t call hc (hlength ▸ hshort)
  callerBuffer r hr howner := ⟨(h.callerBuffer r hr howner).1, hbuffer r hr howner⟩
  kept t call' hc' := (hcalls t call' hc').choose_spec.2.2.2.2.congr rfl rfl

/-- A call goes on with its region. -/
theorem update (h : SmrInv s) (hcall : s.calls t = some call) (hsmr : call'.smr = call.smr)
    (hlength : call'.length = call.length) (huses : call'.Uses → call.Uses)
    (hkept : CallKept s call') : SmrInv (s.setCall t (some call')) := by
  have hcalls : ∀ u c', Function.update s.calls t (some call') u = some c' →
      ∃ c, s.calls u = some c ∧ c'.smr = c.smr ∧ c'.length = c.length ∧ (c'.Uses → c.Uses) ∧
        CallKept s c' := by
    intro u c' hc'
    rcases eq_or_ne u t with rfl | hu
    · obtain rfl : call' = c' := by simpa using hc'
      exact ⟨call, hcall, hsmr, hlength, huses, hkept⟩
    · have hc' : s.calls u = some c' := by simpa [hu] using hc'
      exact ⟨c', hc', rfl, rfl, id, h.kept u c' hc'⟩
  refine h.withCalls hcalls fun r hr howner => ?_
  rcases (h.callerBuffer r hr howner).2 with ⟨⟨u, c, hc, hcr⟩, hderegs⟩ | ⟨hnone, hderegs⟩
  · refine .inl ⟨?_, hderegs⟩
    rcases eq_or_ne u t with rfl | hu
    · obtain rfl : call = c := Option.some.inj (hcall.symm.trans hc)
      exact ⟨u, call', by simp, hsmr.trans hcr⟩
    · exact ⟨u, c, by simpa [hu] using hc, hcr⟩
  · refine .inr ⟨fun u c' hc' => ?_, hderegs⟩
    obtain ⟨c, hc, hcsmr, -⟩ := hcalls u c' hc'
    exact hcsmr ▸ hnone u c hc

/-- The calls of the other threads when a call ends. -/
theorem calls_of_end {u : Nat} {c : RdmaCall}
    (hc : Function.update s.calls t none u = some c) : u ≠ t ∧ s.calls u = some c := by
  rcases eq_or_ne u t with rfl | hu
  · simp at hc
  · exact ⟨hu, by simpa [hu] using hc⟩

/-- The buffers of callers when a call on another region ends. -/
theorem callerBuffer_of_end (h : SmrInv s) (hcall : s.calls t = some call) (hr : r < s.fresh)
    (howner : (s.smrs r).owner = .caller) (hne : call.smr ≠ r) :
    (∃ u c, Function.update s.calls t none u = some c ∧ c.smr = r) ∧ (s.smrs r).deregs = 0 ∨
      (∀ u c, Function.update s.calls t none u = some c → c.smr ≠ r) ∧ (s.smrs r).deregs = 1 := by
  rcases (h.callerBuffer r hr howner).2 with ⟨⟨u, c, hc, hcr⟩, hderegs⟩ | ⟨hnone, hderegs⟩
  · have hu : u ≠ t := by
      rintro rfl
      obtain rfl : call = c := Option.some.inj (hcall.symm.trans hc)
      exact hne hcr
    exact .inl ⟨⟨u, c, (Function.update_of_ne hu _ _).trans hc, hcr⟩, hderegs⟩
  · exact .inr ⟨fun u c hc => hnone u c (calls_of_end hc).2, hderegs⟩

/-- A short call ends. -/
theorem endShort (h : SmrInv s) (hcall : s.calls t = some call)
    (hshort : call.length ≤ rdmaSendThreashold) : SmrInv (s.setCall t none) := by
  refine h.withCalls (fun u c' hc' => ?_) fun r hr howner => ?_
  · obtain ⟨-, hc⟩ := calls_of_end hc'
    exact ⟨c', hc, rfl, rfl, id, h.kept u c' hc⟩
  · apply h.callerBuffer_of_end hcall hr howner
    rintro rfl
    have hpool := (h.short t call hcall hshort).2.1
    rw [howner] at hpool
    cases hpool

/-- A region of the pool that no call uses is put on the list. -/
theorem listAdd (h : SmrInv s) (hlt : r < s.fresh) (hpool : (s.smrs r).owner = .pool)
    (hderegs : (s.smrs r).deregs = 0) (hnew : r ∉ s.sendMrList)
    (hunused : ∀ t call, s.calls t = some call → call.Uses → call.smr ≠ r) :
    SmrInv (s.listAdd r) where
  once := List.nodup_cons.mpr ⟨hnew, h.once⟩
  pooled q hq := by
    rcases List.mem_cons.mp hq with rfl | hq
    · exact ⟨hpool, hderegs⟩
    · exact h.pooled q hq
  listed q hq := by
    rcases List.mem_cons.mp hq with rfl | hq
    · exact hlt
    · exact h.listed q hq
  unused u c hc huses hmem := by
    rcases List.mem_cons.mp hmem with heq | hmem
    · exact hunused u c hc huses heq
    · exact h.unused u c hc huses hmem
  exclusive := h.exclusive
  short := h.short
  callerBuffer q hq howner := by
    refine ⟨fun hmem => ?_, (h.callerBuffer q hq howner).2⟩
    rcases List.mem_cons.mp hmem with rfl | hmem
    · have hcontra : MrOwner.pool = .caller := hpool.symm.trans howner
      cases hcontra
    · exact (h.callerBuffer q hq howner).1 hmem
  kept u c hc := (h.kept u c hc).congr rfl rfl

/-- The region of a long call is that of no other call. -/
theorem smr_ne_of_long (h : SmrInv s) (hcall : s.calls t = some call)
    (hlong : rdmaSendThreashold < call.length) {u : Nat} {c : RdmaCall} (hu : u ≠ t)
    (hc : s.calls u = some c) : c.smr ≠ call.smr := by
  intro heq
  have howner := (h.kept t call hcall).long hlong
  have huses : call.Uses := fun hu => by omega
  by_cases hshort : c.length ≤ rdmaSendThreashold
  · have hpool := (h.short u c hc hshort).2.1
    rw [heq, howner] at hpool
    cases hpool
  · exact hu (h.exclusive u c t call hc (fun hc => hshort hc.2.1) hcall huses heq)

/-- A long call deregisters the region on its buffer and ends. -/
theorem endLong (h : SmrInv s) (hcall : s.calls t = some call)
    (hlong : rdmaSendThreashold < call.length) :
    SmrInv ((s.dereg call.smr).setCall t none) := by
  have hkept := h.kept t call hcall
  have hbuffer := h.callerBuffer call.smr hkept.lt (hkept.long hlong)
  have hframe : ∀ q ≠ call.smr, (s.dereg call.smr).smrs q = s.smrs q := fun q hq =>
    Function.update_of_ne hq _ _
  have hown : ∀ q, ((s.dereg call.smr).smrs q).owner = (s.smrs q).owner := by
    intro q
    rcases eq_or_ne q call.smr with rfl | hq
    · simp [SmrState.dereg]
    · rw [hframe q hq]
  constructor
  case toPoolExclusive =>
    constructor
    case once => exact h.once
    case pooled =>
      intro q hq
      rw [SmrState.setCall, hframe q fun heq => hbuffer.1 (heq ▸ hq)]
      exact h.pooled q hq
    case unused => exact fun u c hc => h.unused u c (calls_of_end hc).2
    case exclusive =>
      exact fun u c v d hc huses hd => h.exclusive u c v d (calls_of_end hc).2 huses
        (calls_of_end hd).2
    case short =>
      intro u c hc hshort
      obtain ⟨hu, hc⟩ := calls_of_end hc
      rw [SmrState.setCall, hframe _ (h.smr_ne_of_long hcall hlong hu hc)]
      exact h.short u c hc hshort
    case callerBuffer =>
      intro q hq hq'
      have howner : (s.smrs q).owner = .caller := (hown q).symm.trans hq'
      refine ⟨(h.callerBuffer q hq howner).1, ?_⟩
      rcases eq_or_ne q call.smr with rfl | hne
      · refine .inr ⟨fun u c hc => ?_, ?_⟩
        · obtain ⟨hu, hc⟩ := calls_of_end hc
          exact h.smr_ne_of_long hcall hlong hu hc
        · rcases hbuffer.2 with ⟨-, hderegs⟩ | ⟨hnone, -⟩
          · simp [SmrState.setCall, SmrState.dereg, hderegs]
          · exact absurd rfl (hnone t call hcall)
      · rw [SmrState.setCall, hframe q hne]
        exact h.callerBuffer_of_end hcall hq howner hne.symm
  case listed => exact h.listed
  case kept =>
    intro u c hc
    have hc' := h.kept u c (calls_of_end hc).2
    exact ⟨hc'.lt, hc'.task_smr, hc'.task_length, hc'.probe, fun hlong =>
      (hown _).trans (hc'.long hlong)⟩

/-! ### Handing a region out -/

/-- The region `r` was handed out for a transfer of `length` bytes: it is new, or it was on the
list and has left it. -/
structure Handed (s : SmrState) (length : Nat) (s' : SmrState) (r : SmrId) : Prop where
  calls : s'.calls = s.calls
  sendMrList : s'.sendMrList = s.sendMrList.erase r
  source : r = s.fresh ∧ s'.fresh = s.fresh + 1 ∨ r ∈ s.sendMrList ∧ s'.fresh = s.fresh
  frame : ∀ q < s.fresh, s'.smrs q = s.smrs q
  deregs : (s'.smrs r).deregs = 0
  short : length ≤ rdmaSendThreashold →
    length ≤ (s'.smrs r).length ∧ (s'.smrs r).owner = .pool
  long : rdmaSendThreashold < length → (s'.smrs r).owner = .caller ∧ r = s.fresh

theorem handed_register (h : SmrInv s) {owner : MrOwner}
    (hshort : length ≤ rdmaSendThreashold → owner = .pool)
    (hlong : rdmaSendThreashold < length → owner = .caller) :
    Handed s length (s.register owner length).1 (s.register owner length).2 where
  calls := rfl
  sendMrList := (List.erase_of_not_mem fun hmem => Nat.lt_irrefl _ (h.listed _ hmem)).symm
  source := .inl ⟨rfl, rfl⟩
  frame q hq := Function.update_of_ne (Nat.ne_of_lt hq) _ _
  deregs := by simp [SmrState.register]
  short hle := by simp [SmrState.register, hshort hle]
  long hlt := by simp [SmrState.register, hlong hlt]

theorem handed (h : SmrInv s) (length : Nat) :
    Handed s length (s.dhmpGetMrFromSendList length).1 (s.dhmpGetMrFromSendList length).2 := by
  unfold SmrState.dhmpGetMrFromSendList
  split
  · next hlong => exact h.handed_register (fun hle => by omega) fun _ => rfl
  · next hshort =>
    cases hfind : s.sendMrList.find? fun tmp => length ≤ (s.smrs tmp).length with
    | none => exact h.handed_register (fun _ => rfl) fun hlt => absurd hlt hshort
    | some tmp =>
      have hmem : tmp ∈ s.sendMrList := List.mem_of_find?_eq_some hfind
      have hfits : length ≤ (s.smrs tmp).length := by simpa using List.find?_some hfind
      exact {
        calls := rfl
        sendMrList := rfl
        source := .inr ⟨hmem, rfl⟩
        frame := fun _ _ => rfl
        deregs := (h.pooled tmp hmem).2
        short := fun _ => ⟨hfits, (h.pooled tmp hmem).1⟩
        long := fun hlt => absurd hlt hshort }

theorem handed_lt (h : SmrInv s) (hh : Handed s length s' r) : r < s'.fresh := by
  rcases hh.source with ⟨rfl, hf⟩ | ⟨hmem, hf⟩
  · exact hf ▸ Nat.lt_succ_self _
  · exact hf ▸ h.listed r hmem

theorem handed_not_listed (h : SmrInv s) (hh : Handed s length s' r) : r ∉ s'.sendMrList :=
  fun hr => h.once.not_mem_erase (hh.sendMrList ▸ hr)

/-- No call that still uses its region has the one handed out. -/
theorem handed_unused (h : SmrInv s) (hh : Handed s length s' r) {u : Nat} {c : RdmaCall}
    (hc : s.calls u = some c) (huses : c.Uses) : c.smr ≠ r := by
  intro heq
  rcases hh.source with ⟨rfl, -⟩ | ⟨hr, -⟩
  · exact Nat.ne_of_lt (h.kept u c hc).lt heq
  · exact h.unused u c hc huses (heq ▸ hr)

namespace Handed

theorem fresh_le (hh : Handed s length s' r) : s.fresh ≤ s'.fresh := by
  rcases hh.source with ⟨-, hf⟩ | ⟨-, hf⟩
  · exact hf ▸ Nat.le_succ _
  · exact Nat.le_of_eq hf.symm

theorem listed (hh : Handed s length s' r) {q : SmrId} (hq : q ∈ s'.sendMrList) :
    q ∈ s.sendMrList :=
  List.mem_of_mem_erase (hh.sendMrList ▸ hq)

/-- Every region but the one handed out was there before. -/
theorem lt_of_ne (hh : Handed s length s' r) {q : SmrId} (hq : q < s'.fresh) (hne : q ≠ r) :
    q < s.fresh := by
  rcases hh.source with ⟨rfl, hf⟩ | ⟨-, hf⟩
  · rw [hf] at hq
    exact Nat.lt_of_le_of_ne (Nat.le_of_lt_succ hq) hne
  · exact hf ▸ hq

/-- A call of the new state is the new one, or an old one of another thread. -/
theorem calls_cases (hh : Handed s length s' r) {u : Nat} {c : RdmaCall}
    (hc : (s'.setCall t (some call)).calls u = some c) :
    u = t ∧ c = call ∨ u ≠ t ∧ s.calls u = some c := by
  rw [SmrState.setCall, hh.calls] at hc
  rcases eq_or_ne u t with rfl | hu
  · exact .inl ⟨rfl, by simpa [eq_comm] using hc⟩
  · exact .inr ⟨hu, by simpa [hu] using hc⟩

end Handed

/-- The buffers of callers when a call begins with the region it was handed. -/
theorem callerBuffer_of_acquire (h : SmrInv s) (hh : Handed s length s' r)
    (idle : s.calls t = none) (hsmr : call.smr = r) {q : SmrId} (hq : q < s.fresh) (hne : q ≠ r)
    (howner : (s.smrs q).owner = .caller) :
    (∃ u c, (s'.setCall t (some call)).calls u = some c ∧ c.smr = q) ∧ (s.smrs q).deregs = 0 ∨
      (∀ u c, (s'.setCall t (some call)).calls u = some c → c.smr ≠ q) ∧
        (s.smrs q).deregs = 1 := by
  rcases (h.callerBuffer q hq howner).2 with ⟨⟨u, c, hc, hcq⟩, hderegs⟩ | ⟨hnone, hderegs⟩
  · have hu : u ≠ t := by
      rintro rfl
      simp [idle] at hc
    exact .inl ⟨⟨u, c, by simp [SmrState.setCall, hh.calls, hu, hc], hcq⟩, hderegs⟩
  · refine .inr ⟨fun u c hc heq => ?_, hderegs⟩
    rcases hh.calls_cases hc with ⟨rfl, rfl⟩ | ⟨-, hc⟩
    · exact hne (heq.symm.trans hsmr)
    · exact hnone u c hc heq

/-- A thread begins a call with the region it was handed. -/
theorem acquire (h : SmrInv s) (hh : Handed s length s' r) (idle : s.calls t = none)
    (hsmr : call.smr = r) (hlength : call.length = length) (htask : call.task.smr = r)
    (htask' : call.task.length = length)
    (hprobe : ∀ probe, call.probe = some probe → probe.opcode = .read) :
    SmrInv (s'.setCall t (some call)) := by
  have hnot := h.handed_not_listed hh
  have hlt := h.handed_lt hh
  constructor
  case toPoolExclusive =>
    constructor
    case once => exact hh.sendMrList ▸ h.once.erase r
    case pooled =>
      intro q hq
      rw [SmrState.setCall, hh.frame q (h.listed q (hh.listed hq))]
      exact h.pooled q (hh.listed hq)
    case unused =>
      intro u c hc huses hq
      rcases hh.calls_cases hc with ⟨rfl, rfl⟩ | ⟨-, hc⟩
      · exact hnot (hsmr ▸ hq)
      · exact h.unused u c hc huses (hh.listed hq)
    case exclusive =>
      intro u c v d hc huses hd huses' heq
      rcases hh.calls_cases hc with ⟨hu, rfl⟩ | ⟨-, hc'⟩ <;>
        rcases hh.calls_cases hd with ⟨hv, rfl⟩ | ⟨-, hd'⟩
      · exact hu.trans hv.symm
      · exact absurd (heq.symm.trans hsmr) (h.handed_unused hh hd' huses')
      · exact absurd (heq.trans hsmr) (h.handed_unused hh hc' huses)
      · exact h.exclusive u c v d hc' huses hd' huses' heq
    case short =>
      intro u c hc hshort
      rcases hh.calls_cases hc with ⟨rfl, rfl⟩ | ⟨-, hc⟩
      · obtain ⟨hle, howner⟩ := hh.short (hlength ▸ hshort)
        rw [hsmr, hlength]
        exact ⟨hle, howner, hh.deregs⟩
      · rw [SmrState.setCall, hh.frame _ (h.kept u c hc).lt]
        exact h.short u c hc hshort
    case callerBuffer =>
      intro q hq howner
      rcases eq_or_ne q r with rfl | hne
      · exact ⟨hnot, .inl ⟨⟨t, call, by simp [SmrState.setCall], hsmr⟩, hh.deregs⟩⟩
      · have hq' := hh.lt_of_ne hq hne
        have hframe : (s'.setCall t (some call)).smrs q = s.smrs q := hh.frame q hq'
        rw [hframe] at howner ⊢
        exact ⟨fun hmem => (h.callerBuffer q hq' howner).1 (hh.listed hmem),
          h.callerBuffer_of_acquire hh idle hsmr hq' hne howner⟩
  case listed => exact fun q hq => Nat.lt_of_lt_of_le (h.listed q (hh.listed hq)) hh.fresh_le
  case kept =>
    intro u c hc
    rcases hh.calls_cases hc with ⟨rfl, rfl⟩ | ⟨-, hc⟩
    · exact ⟨hsmr ▸ hlt, htask.trans hsmr.symm, htask'.trans hlength.symm, hprobe,
        fun hlong => hsmr ▸ (hh.long (hlength ▸ hlong)).1⟩
    · have hc := h.kept u c hc
      refine ⟨Nat.lt_of_lt_of_le hc.lt hh.fresh_le, hc.task_smr, hc.task_length, hc.probe, ?_⟩
      rw [SmrState.setCall, hh.frame _ hc.lt]
      exact hc.long

/-! ### Every step -/

theorem completeRead (h : SmrInv s) (hcall : s.calls t = some call)
    (hop : call.task.opcode = .read) :
    SmrInv (s.setCall t (some { call with task := { call.task with doneFlag := true } })) := by
  have hkept := h.kept t call hcall
  refine h.update hcall rfl rfl (fun _ hu => ?_)
    ⟨hkept.lt, hkept.task_smr, hkept.task_length, hkept.probe, hkept.long⟩
  rw [hop] at hu
  cases hu.1

/-- The completion of a write: a short one gives its region back. -/
theorem completeWrite (h : SmrInv s) (hcall : s.calls t = some call)
    (hop : call.task.opcode = .write) (posted : call.task.doneFlag = false) :
    SmrInv ((if call.task.length ≤ rdmaSendThreashold then s.listAdd call.task.smr else s).setCall t
      (some { call with task := { call.task with doneFlag := true } })) := by
  have hkept := h.kept t call hcall
  have huses : call.Uses := fun hu => by simp [posted] at hu
  have hdone :
      SmrInv (s.setCall t (some { call with task := { call.task with doneFlag := true } })) :=
    h.update hcall rfl rfl (fun _ => huses)
      ⟨hkept.lt, hkept.task_smr, hkept.task_length, hkept.probe, hkept.long⟩
  split
  · next hshort =>
    rw [hkept.task_smr]
    rw [hkept.task_length] at hshort
    obtain ⟨-, hpool, hderegs⟩ := h.short t call hcall hshort
    refine hdone.listAdd (r := call.smr) hkept.lt hpool hderegs (h.unused t call hcall huses) ?_
    intro u c hc huses' heq
    rcases eq_or_ne u t with rfl | hu
    · obtain rfl := Option.some.inj ((Function.update_self u _ s.calls).symm.trans hc)
      exact huses' ⟨hop, hshort, rfl⟩
    · have hc : s.calls u = some c := (Function.update_of_ne hu _ _).symm.trans hc
      exact hu (h.exclusive u c t call hc huses' hcall huses heq)
  · exact hdone

theorem step {a : SmrAction} (h : SmrInv s) (hs : SmrStep s a s') : SmrInv s' := by
  cases hs with
  | read idle positive =>
    exact h.acquire (h.handed _) idle rfl rfl rfl rfl (by simp)
  | write idle server positive =>
    refine h.acquire (h.handed _) idle rfl rfl rfl rfl ?_
    rintro probe ⟨⟩
    rfl
  | @complete t call hcall posted =>
    cases hop : call.task.opcode with
    | read =>
      rw [SmrState.dhmpWcSuccessHandler_read hop]
      exact h.completeRead hcall hop
    | write =>
      rw [SmrState.dhmpWcSuccessHandler_write hop]
      exact h.completeWrite hcall hop posted
  | @completeProbe t call probe hcall hprobe posted =>
    have hkept := h.kept t call hcall
    rw [SmrState.dhmpWcSuccessHandler_read (hkept.probe probe hprobe)]
    refine h.update hcall rfl rfl (fun huses => huses)
      ⟨hkept.lt, hkept.task_smr, hkept.task_length, ?_, hkept.long⟩
    rintro probe' ⟨⟩
    exact hkept.probe probe hprobe
  | @retRead t call hcall hop done =>
    unfold SmrState.dhmpRdmaReadReturn
    split
    · next hlong => exact h.endLong hcall hlong
    · next hshort =>
      have hshort : call.length ≤ rdmaSendThreashold := Nat.le_of_not_lt hshort
      have huses : call.Uses := fun hu => by simp [hop] at hu
      obtain ⟨-, hpool, hderegs⟩ := h.short t call hcall hshort
      refine (h.endShort hcall hshort).listAdd (r := call.smr) (h.kept t call hcall).lt hpool hderegs
        (h.unused t call hcall huses) ?_
      intro u c hc huses' heq
      obtain ⟨hu, hc⟩ := calls_of_end hc
      exact hu (h.exclusive u c t call hc huses' hcall huses heq)
  | @retWrite t call hcall hop done probed =>
    unfold SmrState.dhmpRdmaWriteReturn
    split
    · next hlong => exact h.endLong hcall hlong
    · next hshort => exact h.endShort hcall (Nat.le_of_not_lt hshort)

end SmrInv

/-! ## Runs -/

theorem calls_getMr (s : SmrState) (length : Nat) :
    (s.dhmpGetMrFromSendList length).1.calls = s.calls := by
  unfold SmrState.dhmpGetMrFromSendList
  split
  · rfl
  · cases s.sendMrList.find? fun tmp => length ≤ (s.smrs tmp).length <;> rfl

theorem calls_wcSuccess (s : SmrState) (task : RdmaTask) :
    (s.dhmpWcSuccessHandler task).1.calls = s.calls := by
  unfold SmrState.dhmpWcSuccessHandler
  split
  · split <;> rfl
  · rfl

def SmrAction.thread : SmrAction → Nat
  | .read t _ | .write t _ _ | .complete t | .completeProbe t | .ret t => t

/-- A step leaves the calls of the other threads alone. -/
theorem SmrStep.calls_frame {s s' : SmrState} {a : SmrAction} (h : SmrStep s a s') {u : Nat}
    (hu : u ≠ a.thread) : s'.calls u = s.calls u := by
  cases h with
  | read => exact (Function.update_of_ne hu _ _).trans (congrFun (calls_getMr ..) u)
  | write => exact (Function.update_of_ne hu _ _).trans (congrFun (calls_getMr ..) u)
  | complete => exact (Function.update_of_ne hu _ _).trans (congrFun (calls_wcSuccess ..) u)
  | completeProbe => exact (Function.update_of_ne hu _ _).trans (congrFun (calls_wcSuccess ..) u)
  | retRead =>
    refine (Function.update_of_ne hu _ _).trans ?_
    split <;> rfl
  | retWrite =>
    refine (Function.update_of_ne hu _ _).trans ?_
    split <;> rfl

theorem calls_frame_run {s s' : SmrState} {as : List SmrAction} {t u : Nat}
    (h : Run SmrStep s as s') (hu : u ≠ t) (has : ∀ a ∈ as, a.thread = t) :
    s'.calls u = s.calls u := by
  induction h with
  | refl => rfl
  | @snoc s₁ s₂ as a _ hs ih =>
    have ha : a.thread = t := has a (by simp)
    rw [hs.calls_frame (ha ▸ hu), ih fun b hb => has b (by simp [hb])]

/-- A thread that called and returned is where it was. -/
theorem calls_returned {s s' : SmrState} {as : List SmrAction} {t : Nat}
    (h : Run SmrStep s as s') (has : ∀ a ∈ as, a.thread = t) (idle : s.calls t = none)
    (idle' : s'.calls t = none) : s'.calls = s.calls := by
  funext u
  rcases eq_or_ne u t with rfl | hu
  · rw [idle, idle']
  · exact calls_frame_run h hu has

/-- A read runs to its end, and then the thread may call again. -/
theorem read_returns {s : SmrState} {t length : Nat} (idle : s.calls t = none)
    (positive : 0 < length) : ∃ s', Run SmrStep s [.read t length, .complete t, .ret t] s' ∧
      s'.calls = s.calls := by
  have run : ∃ s', Run SmrStep s [.read t length, .complete t, .ret t] s' ∧ s'.calls t = none :=
    ⟨_, .cons (.read idle positive) (.cons (.complete (Function.update_self ..) rfl)
      (.single (.retRead (Function.update_self ..) rfl rfl))), Function.update_self ..⟩
  obtain ⟨s', h, idle'⟩ := run
  exact ⟨s', h, calls_returned h (by simp [SmrAction.thread]) idle idle'⟩

/-- A write runs to its end, and then the thread may call again. -/
theorem write_returns {s : SmrState} {t nodeId length : Nat} (idle : s.calls t = none)
    (server : nodeId < dhmpServerNodeNum) (positive : 0 < length) :
    ∃ s', Run SmrStep s [.write t nodeId length, .complete t, .completeProbe t, .ret t] s' ∧
      s'.calls = s.calls := by
  have run : ∃ s', Run SmrStep s [.write t nodeId length, .complete t, .completeProbe t, .ret t] s' ∧
      s'.calls t = none := by
    refine ⟨_, .cons (.write idle server positive) (.cons (.complete (Function.update_self ..) rfl)
      (.cons (.completeProbe (Function.update_self ..) rfl rfl)
        (.single (.retWrite (Function.update_self ..) rfl rfl ?_)))), Function.update_self ..⟩
    rintro probe ⟨⟩
    rfl
  obtain ⟨s', h, idle'⟩ := run
  exact ⟨s', h, calls_returned h (by simp [SmrAction.thread]) idle idle'⟩

/-- In every interleaving of calls, completions and returns, no region is used twice. -/
theorem send_mr_exclusive {size : Nat} {as : List SmrAction} {s : SmrState}
    (run : Run SmrStep (.start size) as s) : PoolExclusive s :=
  (run.invariant SmrInv (fun _ _ _ h hs => h.step hs) (.start size)).toPoolExclusive

/-- A short write and a short read on two threads, and a long read after them: the region of the
write is on the list while the write still waits for its probe. -/
theorem send_mr_exclusive_overlap : ∃ s, Run SmrStep (.start 64)
    [.write 0 1 100, .read 1 8, .complete 0, .complete 1, .ret 1, .read 1 600000, .complete 1] s ∧
    PoolExclusive s := by
  have run : ∃ s, Run SmrStep (.start 64) [.write 0 1 100, .read 1 8, .complete 0, .complete 1,
      .ret 1, .read 1 600000, .complete 1] s :=
    ⟨_, .cons (.write rfl (by decide) (by decide)) (.cons (.read rfl (by decide))
      (.cons (.complete rfl rfl) (.cons (.complete rfl rfl) (.cons (.retRead rfl rfl rfl)
        (.cons (.read rfl (by decide)) (.single (.complete rfl rfl)))))))⟩
  obtain ⟨s, h⟩ := run
  exact ⟨s, h, send_mr_exclusive h⟩

end DhmpFs
