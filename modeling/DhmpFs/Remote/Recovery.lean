import DhmpFs.Remote.Servers

/-!
# Taking a failed server back

`fuse_recover` gives a server new banks, copies the banks of a server that is up, replays the
writes that this server has missed meanwhile, and connects both. The whole call is one step
here: no write comes in between. Left out: the locks and the time measurement.

## Main definitions

* `RecoverEnv`: what `dhmp_malloc` returns and which remote calls succeed.
* `fuseRecover`: the recovery of one server.
-/

namespace DhmpFs

/-- What a call of `fuse_recover` meets: the content of the new banks and of the buffer, and
the outcome of the remote reads and writes, by bank for the copy and by task for the replay. -/
structure RecoverEnv where
  fresh : Nat → Bytes
  context : Bytes
  copyRead : Nat → Bool
  copyWrite : Nat → Bool
  replayRead : Nat → Bool
  replayWriteActive : Nat → Bool
  replayWriteRecover : Nat → Bool

/-- How a loop of `fuse_recover` ends: `done` is false when it jumps to a clean-up. -/
structure Progress where
  remote : Remote
  context : Bytes
  done : Bool

namespace Remote

variable (env : RecoverEnv) (active recover : Nat)

/-- The copy of all banks, once every bank is in use. -/
def copyBanks : List Nat → Remote → Bytes → Progress
  | [], r, context => ⟨r, context, true⟩
  | i :: rest, r, context =>
    if !env.copyRead i then ⟨r.setState active .disconnect, context, false⟩
    else
      let context := readBytes ((r.sList active).bank i) 0 bankSize context
      if !env.copyWrite i then ⟨r.setState recover .disconnect, context, false⟩
      else
        let mem := writeBytes ((r.sList recover).bank i) 0 bankSize context
        copyBanks rest (r.setBank recover i mem) context

/-- The copy of the banks named in the journal, each once. What the remote calls return is not
looked at. -/
def copyJournal (bankFlag : Nat → Bool) : List RwTask → Remote → Bytes → Progress
  | [], r, context => ⟨r, context, true⟩
  | task :: rest, r, context =>
    let i := task.bankId
    if bankFlag i then copyJournal bankFlag rest r context
    else
      let context :=
        if env.copyRead i then readBytes ((r.sList active).bank i) 0 bankSize context else context
      let r :=
        if env.copyWrite i then
          r.setBank recover i (writeBytes ((r.sList recover).bank i) 0 bankSize context)
        else r
      copyJournal (Function.update bankFlag i true) rest r context

/-- The replay of the tasks from number `k` on. `none`: no third server is left to read from. -/
def replay (k : Nat) : List RwTask → Remote → Bytes → Option Progress
  | [], r, context => some ⟨r, context, true⟩
  | task :: rest, r, context =>
    let i := task.bankId
    match r.findAliveServer with
    | none => none
    | some latest =>
      if !env.replayRead k then some ⟨r.setState latest .disconnect, context, false⟩
      else
        let context := readBytes ((r.sList latest).bank i) 0 bankSize context
        if !env.replayWriteActive k then some ⟨r.setState active .disconnect, context, false⟩
        else
          let mem := writeBytes ((r.sList active).bank i) task.bankOffset task.size context
          let r := r.setBank active i mem
          if !env.replayWriteRecover k then some ⟨r.setState recover .disconnect, context, false⟩
          else
            let mem := writeBytes ((r.sList recover).bank i) task.bankOffset task.size context
            replay (k + 1) rest (r.setBank recover i mem) context

/-- The tasks are freed and stay linked behind the head. -/
def freeTasks (r : Remote) : Remote :=
  let n := r.sList active
  r.setServer active { n with
    rwTasksFreed := n.rwTasksFreed || !n.rwTasks.isEmpty
    rwTasksLen := n.rwTasksLen - n.rwTasks.length }

/-- Both servers are connected again. -/
def handBack (r : Remote) : Remote :=
  (r.setState active .connected).setState recover .connected

def aliveNum (r : Remote) : Nat :=
  (List.range r.serverNum).countP fun i => (r.sList i).serverState = .connected

/-- `recovery_in_use=false` at the clean-up. -/
def cleanRecover (r : Remote) : Remote := { r with recoveryInUse := false }

/-- The part of `fuse_recover` after the active server stopped taking writes: copy, replay and
clean-up. Undefined are a walk over freed tasks and the replay without a third server. -/
def copyAndReplay (singleNodeRecovery : Bool) (r : Remote) : Option Remote :=
  let copied :=
    if r.useBankLen = bankNum then
      copyBanks env active recover (List.range bankNum) r env.context
    else copyJournal env active recover (fun _ => false) r.journal r env.context
  let r := copied.remote
  if !copied.done then some r.cleanRecover
  else if singleNodeRecovery then some (r.handBack active recover).cleanRecover
  else if (r.sList active).rwTasksFreed then none
  else
    match replay env active recover 0 (r.sList active).rwTasks r copied.context with
    | none => none
    | some p =>
      if !p.done then some p.remote.cleanRecover
      else some ((freeTasks active p.remote).handBack active recover).cleanRecover

/-- `fuse_recover`. Without a connected server it returns and leaves `recovery_in_use` set. -/
def fuseRecover (r : Remote) : Option Remote :=
  if r.recoveryInUse then some r
  else
    let r := { r with recoveryInUse := true }.setState recover .reconnect
    let aliveNum := r.aliveNum
    if aliveNum = 0 then some r
    else
      let r := r.setServer recover { r.sList recover with bank := env.fresh }
      r.findAliveServer.bind fun active =>
        copyAndReplay env active recover (aliveNum = 1) (r.setState active .recovering)

end Remote

/-! ## What an update leaves alone -/

section updates

variable {β : Type*} (r : Remote) (i j bankId : Nat) (n : ServerNode) (st : ServerState)

/-- Whatever is read off the servers after one has been replaced. -/
theorem Remote.apply_setServer (f : ServerNode → β) :
    f ((r.setServer i n).sList j) = if j = i then f n else f (r.sList j) := by
  rcases eq_or_ne j i with rfl | hj <;> simp [Remote.setServer, *]

/-- What the new server shares with the old one is as it was everywhere. -/
theorem Remote.setServer_frame (f : ServerNode → β) (h : f n = f (r.sList i)) :
    f ((r.setServer i n).sList j) = f (r.sList j) := by
  have happly := r.apply_setServer i j n f
  grind

/-! A server gets other memory. -/

theorem freshBank_serverState (bank : Nat → Bytes) :
    ((r.setServer i { r.sList i with bank := bank }).sList j).serverState =
      (r.sList j).serverState :=
  r.setServer_frame i j _ ServerNode.serverState rfl

theorem freshBank_rwTasks (bank : Nat → Bytes) :
    ((r.setServer i { r.sList i with bank := bank }).sList j).rwTasks = (r.sList j).rwTasks :=
  r.setServer_frame i j _ ServerNode.rwTasks rfl

theorem freshBank_rwTasksFreed (bank : Nat → Bytes) :
    ((r.setServer i { r.sList i with bank := bank }).sList j).rwTasksFreed =
      (r.sList j).rwTasksFreed :=
  r.setServer_frame i j _ ServerNode.rwTasksFreed rfl

@[simp] theorem setBank_rwTasks (mem : Bytes) :
    ((r.setBank i bankId mem).sList j).rwTasks = (r.sList j).rwTasks :=
  r.setServer_frame i j _ ServerNode.rwTasks rfl

@[simp] theorem setBank_rwTasksFreed (mem : Bytes) :
    ((r.setBank i bankId mem).sList j).rwTasksFreed = (r.sList j).rwTasksFreed :=
  r.setServer_frame i j _ ServerNode.rwTasksFreed rfl

@[simp] theorem setBank_serverState (mem : Bytes) :
    ((r.setBank i bankId mem).sList j).serverState = (r.sList j).serverState :=
  r.setServer_frame i j _ ServerNode.serverState rfl

@[simp] theorem Remote.freeTasks_serverState :
    ((r.freeTasks i).sList j).serverState = (r.sList j).serverState :=
  r.setServer_frame i j _ ServerNode.serverState rfl

@[simp] theorem Remote.freeTasks_rwTasks :
    ((r.freeTasks i).sList j).rwTasks = (r.sList j).rwTasks :=
  r.setServer_frame i j _ ServerNode.rwTasks rfl

@[simp] theorem setState_rwTasks :
    ((r.setState i st).sList j).rwTasks = (r.sList j).rwTasks :=
  r.setServer_frame i j _ ServerNode.rwTasks rfl

@[simp] theorem setState_rwTasksFreed :
    ((r.setState i st).sList j).rwTasksFreed = (r.sList j).rwTasksFreed :=
  r.setServer_frame i j _ ServerNode.rwTasksFreed rfl

theorem setState_serverState :
    ((r.setState i st).sList j).serverState = if j = i then st else (r.sList j).serverState :=
  r.apply_setServer i j _ ServerNode.serverState

/-- No server is connected by getting another state. -/
theorem connected_of_setState {r : Remote} {i j : Nat} {st : ServerState} (hst : st ≠ .connected)
    (h : ((r.setState i st).sList j).serverState = .connected) :
    (r.sList j).serverState = .connected := by
  rw [setState_serverState] at h
  grind

end updates

end DhmpFs
