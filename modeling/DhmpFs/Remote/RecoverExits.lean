import DhmpFs.Remote.Agreement

/-!
# How a recovery ends

`fuse_recover` returns in the middle, or over one of two clean-up labels. The locks it takes are
those it gives back, but `recovery_in_use` stays set where there is no server to copy from, and
some failures leave the server that stopped taking writes in state RECOVERING.

## Main definitions

* `RecoverExit`, `Recovered`: where a call ends, and the locks it took and gave back.
* `fuseRecoverLocks`: `fuse_recover` with its locks.
* `HandsBack`: the state a call is to leave.
* `ChecksActive`, `RecoversCleanly`: when it does.
-/

namespace DhmpFs

/-- The mutexes of `fuse_recover`: `server_mutex` of a server, and `fuse_mutex`. -/
inductive Mutex where
  | server (i : Nat)
  | fuse
  deriving DecidableEq

inductive LockEvent where
  | lock (m : Mutex)
  | unlock (m : Mutex)
  deriving DecidableEq

/-- The mutexes that are held after some events. A mutex that is locked twice, or unlocked while
it is not held, has no result. -/
def lockRun : List Mutex → List LockEvent → Option (List Mutex)
  | held, [] => some held
  | held, .lock m :: rest => if m ∈ held then none else lockRun (m :: held) rest
  | held, .unlock m :: rest => if m ∈ held then lockRun (held.erase m) rest else none

/-- The labels at the end of `fuse_recover`. -/
inductive RecoverExit where
  | cleanRecover
  | cleanRecover1

/-- The servers when a call returns, and the events of its locks. -/
structure Recovered where
  remote : Remote
  events : List LockEvent

/-- What is unlocked from a label on. -/
def RecoverExit.unlocks (singleNodeRecovery : Bool) (active : Nat) : RecoverExit → List LockEvent
  | .cleanRecover =>
    .unlock .fuse :: if !singleNodeRecovery then [.unlock (.server active)] else []
  | .cleanRecover1 => if !singleNodeRecovery then [.unlock (.server active)] else []

namespace Remote

variable (env : RecoverEnv) (active recover : Nat)

/-- `goto` a label, with the locks that are held. -/
def exit (singleNodeRecovery : Bool) (r : Remote) (locks : List LockEvent) (label : RecoverExit) :
    Recovered :=
  ⟨r.cleanRecover, locks ++ label.unlocks singleNodeRecovery active⟩

/-- `fuse_recover` from its first lock on. -/
def copyAndReplayLocks (singleNodeRecovery : Bool) (r : Remote) : Option Recovered :=
  let locks : List LockEvent := [.lock (if !singleNodeRecovery then .server active else .fuse)]
  let copied :=
    if r.useBankLen = bankNum then
      copyBanks env active recover (List.range bankNum) r env.context
    else copyJournal env active recover (fun _ => false) r.journal r env.context
  let r := copied.remote
  if !copied.done then
    some (exit active singleNodeRecovery r locks
      (if !singleNodeRecovery then .cleanRecover1 else .cleanRecover))
  else if singleNodeRecovery then
    some (exit active singleNodeRecovery (r.handBack active recover) locks .cleanRecover)
  else
    let locks := locks ++ [.lock .fuse]
    if (r.sList active).rwTasksFreed then none
    else
      match replay env active recover 0 (r.sList active).rwTasks r copied.context with
      | none => none
      | some p =>
        let r := if !p.done then p.remote else (freeTasks active p.remote).handBack active recover
        some (exit active singleNodeRecovery r locks .cleanRecover)

/-- `fuse_recover` with its locks. -/
def fuseRecoverLocks (r : Remote) : Option Recovered :=
  if r.recoveryInUse then some ⟨r, []⟩
  else
    let r := { r with recoveryInUse := true }.setState recover .reconnect
    let aliveNum := r.aliveNum
    if aliveNum = 0 then some ⟨r, []⟩
    else
      let r := r.setServer recover { r.sList recover with bank := env.fresh }
      r.findAliveServer.bind fun active =>
        copyAndReplayLocks env active recover (aliveNum = 1) (r.setState active .recovering)

end Remote

/-- `recovery_in_use` is false, every mutex that was locked has been unlocked once, and no server
is recovering. -/
structure HandsBack (serverNum : Nat) (e : Recovered) : Prop where
  recoveryInUse : e.remote.recoveryInUse = false
  released : lockRun [] e.events = some []
  once : ∀ m, e.events.count (.unlock m) ≤ 1
  recovering : ∀ i < serverNum, (e.remote.sList i).serverState ≠ .recovering

/-- A remote call whose result is looked at: whether it goes to the active server, and whether it
succeeds. -/
structure CheckedCall where
  toActive : Bool
  ok : Bool

namespace RecoverEnv

variable (env : RecoverEnv)

/-- The calls of the copy of all banks. -/
def copyCalls : List Nat → List CheckedCall
  | [] => []
  | i :: rest => ⟨true, env.copyRead i⟩ :: ⟨false, env.copyWrite i⟩ :: copyCalls rest

/-- The calls of the replay of the tasks from number `k` on. -/
def replayCalls (k : Nat) : List RwTask → List CheckedCall
  | [] => []
  | _ :: rest =>
    ⟨false, env.replayRead k⟩ :: ⟨true, env.replayWriteActive k⟩ ::
      ⟨false, env.replayWriteRecover k⟩ :: replayCalls (k + 1) rest

end RecoverEnv

/-- The first call that fails, if any, goes to the active server. -/
def ChecksActive (calls : List CheckedCall) : Prop :=
  ∀ call, calls.find? (fun call => !call.ok) = some call → call.toActive = true

namespace Remote

/-- The calls a recovery checks, in order: those of the copy, once every bank is in use, and with
several survivors those of the replay. -/
def checkedCalls (env : RecoverEnv) (r : Remote) (active : Nat) (singleNodeRecovery : Bool) :
    List CheckedCall :=
  (if r.useBankLen = bankNum then env.copyCalls (List.range bankNum) else []) ++
    if singleNodeRecovery then [] else env.replayCalls 0 (r.sList active).rwTasks

/-- Some other server is connected, none is recovering, and the first call that fails, if any,
goes to the active server. -/
structure RecoversCleanly (env : RecoverEnv) (recover : Nat) (r : Remote) : Prop where
  connected : ∃ i < r.serverNum, i ≠ recover ∧ (r.sList i).serverState = .connected
  recovering : ∀ i < r.serverNum, i ≠ recover → (r.sList i).serverState ≠ .recovering
  active : ∀ active, (r.setState recover .reconnect).findAliveServer = some active →
    ChecksActive (r.checkedCalls env active ((r.setState recover .reconnect).aliveNum = 1))

/-! ## The loops -/

section

variable {env : RecoverEnv} {active recover i k : Nat} {r r' : Remote} {context : Bytes}
  {call : CheckedCall} {calls calls' : List CheckedCall} {p : Progress}

/-- The calls up to the first that fails decide how a loop ends: it is done where none does, and
otherwise one server is disconnected, the active one if the call was made to it. -/
structure LoopEnds (active : Nat) (calls : List CheckedCall) (r : Remote) (p : Progress) :
    Prop where
  serverNum : p.remote.serverNum = r.serverNum
  rwTasks : ∀ i, (p.remote.sList i).rwTasks = (r.sList i).rwTasks
  done : calls.find? (fun call => !call.ok) = none → p.done = true ∧
    ∀ i, (p.remote.sList i).serverState = (r.sList i).serverState
  failed : ∀ call, calls.find? (fun call => !call.ok) = some call → p.done = false ∧
    ∃ x, (x = active ↔ call.toActive = true) ∧
      (x ≠ active → (r.sList x).serverState ≠ .recovering) ∧
      ∀ i, (p.remote.sList i).serverState =
        if i = x then .disconnect else (r.sList i).serverState

theorem LoopEnds.nil : LoopEnds active [] r ⟨r, context, true⟩ :=
  ⟨rfl, fun _ => rfl, fun _ => ⟨rfl, fun _ => rfl⟩, by simp⟩

/-- A call fails, and its server is disconnected. -/
theorem LoopEnds.fails (hok : call.ok = false) (hto : i = active ↔ call.toActive = true)
    (hi : i ≠ active → (r.sList i).serverState ≠ .recovering) :
    LoopEnds active (call :: calls) r ⟨r.setState i .disconnect, context, false⟩ where
  serverNum := rfl
  rwTasks j := setState_rwTasks ..
  done h := by simp [hok] at h
  failed c hc := by
    obtain rfl : call = c := by simpa [hok] using hc
    exact ⟨rfl, i, hto, hi, fun j => setState_serverState ..⟩

/-- A call succeeds, and the loop goes on. -/
theorem LoopEnds.goesOn (hok : call.ok = true) (h : LoopEnds active calls r p) :
    LoopEnds active (call :: calls) r p :=
  ⟨h.serverNum, h.rwTasks, by simpa [hok] using h.done, by simpa [hok] using h.failed⟩

/-- Banks do not matter to the states. -/
theorem LoopEnds.of_setBank {j bankId : Nat} {mem : Bytes}
    (h : LoopEnds active calls (r.setBank j bankId mem) p) : LoopEnds active calls r p := by
  exact ⟨h.serverNum, by simpa using h.rwTasks, by simpa using h.done, by simpa using h.failed⟩

theorem loopEnds_copyBanks (hne : active ≠ recover)
    (hrecover : (r.sList recover).serverState ≠ .recovering) (banks : List Nat) :
    LoopEnds active (env.copyCalls banks) r (copyBanks env active recover banks r context) := by
  induction banks generalizing r context with
  | nil => exact .nil
  | cons i rest ih =>
    rw [copyBanks, RecoverEnv.copyCalls]
    cases hread : env.copyRead i with
    | false => exact .fails rfl (by simp) (by simp)
    | true =>
      refine .goesOn rfl ?_
      cases hwrite : env.copyWrite i with
      | false => exact .fails rfl (by simpa using hne.symm) fun _ => hrecover
      | true => exact .goesOn rfl (ih (by simpa using hrecover)).of_setBank

theorem loopEnds_copyJournal (bankFlag : Nat → Bool) (tasks : List RwTask) :
    LoopEnds active [] r (copyJournal env active recover bankFlag tasks r context) := by
  induction tasks generalizing r context bankFlag with
  | nil => exact .nil
  | cons task rest ih =>
    rw [copyJournal]
    dsimp only
    split
    · exact ih _
    · split
      · exact (ih _).of_setBank
      · exact ih _

/-- The third server is not the active one, which is recovering. -/
theorem loopEnds_replay (hne : active ≠ recover) {tasks : List RwTask}
    (hactive : (r.sList active).serverState = .recovering)
    (hrecover : (r.sList recover).serverState ≠ .recovering)
    (h : replay env active recover k tasks r context = some p) :
    LoopEnds active (env.replayCalls k tasks) r p := by
  induction tasks generalizing r context k with
  | nil =>
    obtain rfl : ⟨r, context, true⟩ = p := by simpa [replay] using h
    exact .nil
  | cons task rest ih =>
    rw [replay] at h
    rw [RecoverEnv.replayCalls]
    cases hlatest : r.findAliveServer with
    | none => simp [hlatest] at h
    | some latest =>
      have hconn := (findAliveServer_spec hlatest).2
      have hthird : latest ≠ active := by
        rintro rfl
        simp [hconn] at hactive
      simp only [hlatest] at h
      cases hread : env.replayRead k with
      | false =>
        obtain rfl := Option.some.inj (by simpa [hread] using h)
        exact .fails rfl (by simpa using hthird) fun _ => by simp [hconn]
      | true =>
        refine .goesOn rfl ?_
        cases hwrite : env.replayWriteActive k with
        | false =>
          obtain rfl := Option.some.inj (by simpa [hread, hwrite] using h)
          exact .fails rfl (by simp) (by simp)
        | true =>
          refine .goesOn rfl ?_
          cases hlast : env.replayWriteRecover k with
          | false =>
            obtain rfl := Option.some.inj (by simpa [hread, hwrite, hlast] using h)
            exact .of_setBank (.fails rfl (by simpa using hne.symm) fun _ => by simpa using hrecover)
          | true =>
            have hrest := by simpa [hread, hwrite, hlast] using h
            exact .goesOn rfl (.of_setBank (.of_setBank
              (ih (by simpa using hactive) (by simpa using hrecover) hrest)))

theorem LoopEnds.of_done (h : LoopEnds active calls r p) (hdone : p.done = true) :
    calls.find? (fun call => !call.ok) = none ∧
      ∀ i, (p.remote.sList i).serverState = (r.sList i).serverState := by
  cases hfind : calls.find? (fun call => !call.ok) with
  | none => exact ⟨rfl, (h.done hfind).2⟩
  | some call => simp [(h.failed call hfind).1] at hdone

/-- A loop that is done lets the next one go on. -/
theorem LoopEnds.append {p' : Progress} (h : LoopEnds active calls r p) (hdone : p.done = true)
    (g : LoopEnds active calls' p.remote p') : LoopEnds active (calls ++ calls') r p' := by
  obtain ⟨hnone, hstate⟩ := h.of_done hdone
  refine ⟨g.serverNum.trans h.serverNum, fun i => (g.rwTasks i).trans (h.rwTasks i), ?_, ?_⟩
  · simpa only [List.find?_append, hnone, Option.none_or, hstate] using g.done
  · simpa only [List.find?_append, hnone, Option.none_or, hstate] using g.failed

/-- A loop that has failed is the last one. -/
theorem LoopEnds.append_failed (h : LoopEnds active calls r p) (hdone : p.done = false) :
    LoopEnds active (calls ++ calls') r p := by
  obtain ⟨call, hsome⟩ : ∃ call, calls.find? (fun call => !call.ok) = some call := by
    cases hfind : calls.find? (fun call => !call.ok) with
    | none => simp [(h.done hfind).1] at hdone
    | some call => exact ⟨call, rfl⟩
  refine ⟨h.serverNum, h.rwTasks, ?_, ?_⟩
  · simp [List.find?_append, hsome]
  · simpa only [List.find?_append, hsome, Option.some_or] using h.failed

/-! ## The call -/

/-- The states when a recovery returns that has come to its first lock. -/
structure Ended (env : RecoverEnv) (active recover : Nat) (single : Bool) (r : Remote)
    (e : Recovered) : Prop where
  recoveryInUse : e.remote.recoveryInUse = false
  released : lockRun [] e.events = some []
  nodup : e.events.Nodup
  states : ∃ p, LoopEnds active (r.checkedCalls env active single) r p ∧
    ∀ i, (e.remote.sList i).serverState =
      if p.done = true ∧ (i = active ∨ i = recover) then .connected
      else (p.remote.sList i).serverState

theorem handBack_serverState (r : Remote) (active recover i : Nat) :
    ((r.handBack active recover).sList i).serverState =
      if i = active ∨ i = recover then .connected else (r.sList i).serverState := by
  unfold handBack
  rw [setState_serverState, setState_serverState]
  grind

theorem ended_copyAndReplayLocks {single : Bool} {e : Recovered} (hne : active ≠ recover)
    (hactive : (r.sList active).serverState = .recovering)
    (hrecover : (r.sList recover).serverState ≠ .recovering)
    (h : copyAndReplayLocks env active recover single r = some e) :
    Ended env active recover single r e := by
  unfold copyAndReplayLocks at h
  extract_lets locks copied r₁ locks₁ at h
  let copyCalls := if r.useBankLen = bankNum then env.copyCalls (List.range bankNum) else []
  have hcopy : LoopEnds active copyCalls r copied := by
    unfold copied copyCalls
    split
    · exact loopEnds_copyBanks hne hrecover _
    · exact loopEnds_copyJournal _ _
  cases hdone : copied.done with
  | false =>
    obtain rfl := Option.some.inj (by simpa [hdone] using h)
    refine ⟨rfl, ?_, ?_, copied, hcopy.append_failed hdone, by simp [hdone, exit, cleanRecover, r₁]⟩
    · cases single <;> simp [exit, locks, lockRun, RecoverExit.unlocks]
    · cases single <;> simp [exit, locks, RecoverExit.unlocks]
  | true =>
    cases single with
    | true =>
      obtain rfl := Option.some.inj (by simpa [hdone] using h)
      refine ⟨rfl, ?_, ?_, copied, by simpa [checkedCalls] using hcopy, ?_⟩
      · simp [exit, locks, lockRun, RecoverExit.unlocks]
      · simp [exit, locks, RecoverExit.unlocks]
      · intro i
        simp only [hdone, true_and]
        exact handBack_serverState r₁ active recover i
    | false =>
      simp only [hdone, Bool.not_true, Bool.false_eq_true, if_false] at h
      split at h
      · simp at h
      have hcopied : (r₁.sList active).serverState = .recovering :=
        ((hcopy.of_done hdone).2 active).trans hactive
      split at h
      · simp at h
      next p hreplay =>
        obtain rfl := Option.some.inj h
        have hloop := loopEnds_replay hne hcopied
          (by rw [(hcopy.of_done hdone).2]; exact hrecover) hreplay
        rw [hcopy.rwTasks] at hloop
        refine ⟨rfl, ?_, ?_, p, hcopy.append hdone hloop, fun i => ?_⟩
        · simp [exit, locks₁, locks, lockRun, RecoverExit.unlocks]
        · simp [exit, locks₁, locks, RecoverExit.unlocks]
        · cases hp : p.done with
          | false => simp [exit, cleanRecover]
          | true =>
            simp only [true_and]
            refine (handBack_serverState (freeTasks active p.remote) active recover i).trans ?_
            rw [freeTasks_serverState]

/-- The servers that are recovering in the end. -/
theorem Ended.recovering_iff {single : Bool} {e : Recovered} {n : Nat} (hlt : active < n)
    (hactive : (r.sList active).serverState = .recovering)
    (hrecover : (r.sList recover).serverState ≠ .recovering)
    (h : Ended env active recover single r e) :
    (∀ i < n, (e.remote.sList i).serverState ≠ .recovering) ↔
      (∀ i < n, i ≠ active → (r.sList i).serverState ≠ .recovering) ∧
        ChecksActive (r.checkedCalls env active single) := by
  obtain ⟨p, hloop, hstate⟩ := h.states
  unfold ChecksActive
  cases hfind : (r.checkedCalls env active single).find? (fun call => !call.ok) with
  | none =>
    obtain ⟨hdone, hsame⟩ := hloop.done hfind
    have hall : ∀ i, (e.remote.sList i).serverState = .recovering ↔
        i ≠ active ∧ (r.sList i).serverState = .recovering := by
      intro i
      rw [hstate, hsame]
      grind
    simp only [ne_eq, hall, not_and, reduceCtorEq, false_implies, implies_true, and_true]
  | some call =>
    obtain ⟨hdone, x, hto, hx, hsame⟩ := hloop.failed call hfind
    have hall : ∀ i, (e.remote.sList i).serverState = .recovering ↔
        i ≠ x ∧ (r.sList i).serverState = .recovering := by
      intro i
      rw [hstate, hsame]
      grind
    simp only [Option.some.injEq, forall_eq', ← hto]
    grind

/-- With its locks left out, the call is `fuse_recover`. -/
theorem fuseRecoverLocks_refines :
    (fuseRecoverLocks env recover r).map Recovered.remote = r.fuseRecover env recover := by
  have hrest : ∀ active single r,
      (copyAndReplayLocks env active recover single r).map Recovered.remote =
        copyAndReplay env active recover single r := by
    intro active single r
    unfold copyAndReplayLocks copyAndReplay
    dsimp only
    generalize (if r.useBankLen = bankNum then
      copyBanks env active recover (List.range bankNum) r env.context
      else copyJournal env active recover (fun _ => false) r.journal r env.context) = copied
    split
    · rfl
    · split
      · rfl
      · split
        · rfl
        · cases replay env active recover 0 (copied.remote.sList active).rwTasks copied.remote
            copied.context with
          | none => rfl
          | some p => cases hdone : p.done <;> simp [hdone, exit]
  unfold fuseRecoverLocks fuseRecover
  split
  · rfl
  · dsimp only
    split
    · rfl
    · rw [Option.map_bind]
      exact congrArg _ (funext fun active => hrest ..)

/-- A call that has passed the test of `recovery_in_use` leaves everything usable exactly when
some other server is connected, none is recovering, and the first remote call that fails, if any,
goes to the active server. -/
theorem fuse_recover_hands_back (hidle : r.recoveryInUse = false)
    {e : Recovered} (h : fuseRecoverLocks env recover r = some e) :
    HandsBack r.serverNum e ↔ r.RecoversCleanly env recover := by
  unfold fuseRecoverLocks at h
  rw [hidle, if_neg Bool.false_ne_true] at h
  extract_lets r₁ alive node r₂ at h
  have hother : ∀ i, (r₁.sList i).serverState = .connected ↔
      i ≠ recover ∧ (r.sList i).serverState = .connected := by
    intro i
    rcases eq_or_ne i recover with rfl | hi <;> simp [r₁, *]
  split at h
  · next hzero =>
    obtain rfl := Option.some.inj h
    refine iff_of_false (fun hb => absurd hb.recoveryInUse (by simp [r₁, setState, setServer])) ?_
    rintro ⟨⟨i, hi, hne, hc⟩, -, -⟩
    exact aliveNum_eq_zero hzero i hi ((hother i).mpr ⟨hne, hc⟩)
  · obtain ⟨active, hfind, hcall⟩ := Option.bind_eq_some_iff.mp h
    let r₃ := r₂.setState active .recovering
    have hstate₂ : ∀ i, (r₂.sList i).serverState = (r₁.sList i).serverState :=
      fun i => freshBank_serverState ..
    obtain ⟨hlt, hconn⟩ := findAliveServer_spec hfind
    obtain ⟨hne, hconn⟩ := (hother active).mp (hstate₂ active ▸ hconn)
    have hfind₁ : (r.setState recover .reconnect).findAliveServer = some active := by
      rw [← hfind]
      exact findAliveServer_congr rfl fun i => by rw [hstate₂]; rfl
    have hothers : ∀ i, i ≠ active → ((r₃.sList i).serverState = .recovering ↔
        i ≠ recover ∧ (r.sList i).serverState = .recovering) := by
      intro i hi
      rw [setState_serverState, if_neg hi, hstate₂, setState_serverState]
      grind
    have hrecover : (r₃.sList recover).serverState ≠ .recovering := by
      simp [hothers recover hne.symm]
    have hactive : (r₃.sList active).serverState = .recovering := by simp [r₃]
    have hended := ended_copyAndReplayLocks hne hactive hrecover hcall
    have hcalls : r₃.checkedCalls env active (alive = 1) =
        r.checkedCalls env active ((r.setState recover .reconnect).aliveNum = 1) := by
      have htasks : (r₃.sList active).rwTasks = (r.sList active).rwTasks := by
        simp [r₃, r₂, r₁, hne]
      unfold checkedCalls
      rw [htasks]
      rfl
    have hiff := hended.recovering_iff hlt hactive hrecover
    rw [hcalls] at hiff
    constructor
    · intro hb
      obtain ⟨hrecovering, hcalls⟩ := hiff.mp hb.recovering
      refine ⟨⟨active, hlt, hne, hconn⟩, fun i hi hi' hs => ?_, fun active' hfind' => ?_⟩
      · have hi'' : i ≠ active := by rintro rfl; simp [hconn] at hs
        exact hrecovering i hi hi'' ((hothers i hi'').mpr ⟨hi', hs⟩)
      · obtain rfl := Option.some.inj (hfind₁.symm.trans hfind')
        exact hcalls
    · intro hr
      refine ⟨hended.recoveryInUse, hended.released, fun m => ?_, ?_⟩
      · exact List.nodup_iff_count.mp hended.nodup _
      refine hiff.mpr ⟨fun i hi hi' hs => ?_, hr.active active hfind₁⟩
      obtain ⟨hi'', hs⟩ := (hothers i hi').mp hs
      exact hr.recovering i hi hi'' hs

/-- Server 2 of three is recovered with the help of server 0. -/
theorem fuse_recover_hands_back_three :
    ∃ e, fuseRecoverLocks (.succeeding fun _ => 0) 2
        ((initRemote 3 fun _ _ _ => 0).setState 2 .disconnect) = some e ∧
      (HandsBack 3 e ↔ ((initRemote 3 fun _ _ _ => 0).setState 2 .disconnect).RecoversCleanly
        (.succeeding fun _ => 0) 2) := by
  have call : ∃ e, fuseRecoverLocks (.succeeding fun _ => 0) 2
      ((initRemote 3 fun _ _ _ => 0).setState 2 .disconnect) = some e := ⟨_, rfl⟩
  obtain ⟨e, h⟩ := call
  exact ⟨e, h, fuse_recover_hands_back (r := (initRemote 3 fun _ _ _ => 0).setState 2 .disconnect)
    rfl h⟩

/-- A server of three with a queued write. -/
def queuedRemote : Remote :=
  (initRemote 3 fun _ _ _ => 0).setServer 0 ⟨true, fun _ _ => 0, [⟨0, 1, 0⟩], false, 1, .connected⟩

/-- The only server is recovered: `recovery_in_use` stays set. And server 2 is recovered, while
the server that the replay reads from fails: server 0 stays RECOVERING. -/
theorem not_hands_back :
    (∃ e, fuseRecoverLocks (.succeeding fun _ => 0) 0 (initRemote 1 fun _ _ _ => 0) = some e ∧
      ¬ HandsBack 1 e) ∧
    ∃ e, fuseRecoverLocks { RecoverEnv.succeeding fun _ => 0 with replayRead := fun _ => false } 2
        queuedRemote = some e ∧ ¬ HandsBack 3 e := by
  refine ⟨⟨_, rfl, fun h => absurd h.recoveryInUse (by decide)⟩, _, rfl, fun h => ?_⟩
  exact h.recovering 0 (by decide) rfl

end

end Remote

end DhmpFs
