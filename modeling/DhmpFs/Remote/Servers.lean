import DhmpFs.Fs.Basic

/-!
# The memory servers, as the client sees them

The client keeps a copy of every bank on every server. A bank is its bytes: the pointer that
`dhmp_malloc` returned is never compared. `dhmp_write` and `dhmp_read` act as plain memory when
they succeed; which of them fail is part of the environment of a call.

Left out: the address for the liveness test, `ip_addr`, and the mutexes that order whole calls.

## Main definitions

* `Remote`: the servers and the globals of the recovery.
* `dhmpFsWriteToRemote`, `dhmpFsReadFromRemote`: write to all servers, read from one.
-/

namespace DhmpFs

/-- The bytes of a bank or of a buffer. -/
abbrev Bytes := Nat → UInt8

/-- `memcpy` of `size` bytes to an offset. -/
def writeBytes (mem : Bytes) (offset size : Nat) (buf : Bytes) : Bytes := fun o =>
  if offset ≤ o ∧ o < offset + size then buf (o - offset) else mem o

/-- The first `size` bytes of a buffer, read from an offset. -/
def readBytes (mem : Bytes) (offset size : Nat) (buf : Bytes) : Bytes := fun o =>
  if o < size then mem (offset + o) else buf o

inductive ServerState where
  | connected
  | disconnect
  | recovering
  | reconnect
  deriving DecidableEq, Repr

/-- A write that a recovering server has missed. -/
structure RwTask where
  bankId : Nat
  size : Nat
  bankOffset : Nat
  deriving DecidableEq, Repr

/-- `rwTasks` is the list behind `rw_task_head`; when `rwTasksFreed` is set, its tasks have been
freed and the head still points to them. -/
structure ServerNode where
  alive : Bool
  bank : Nat → Bytes
  rwTasks : List RwTask
  rwTasksFreed : Bool
  rwTasksLen : Int
  serverState : ServerState

/-- The client's globals about its servers. -/
structure Remote where
  serverNum : Nat
  sList : Nat → ServerNode
  recoveryInUse : Bool
  useBankLen : Nat
  journal : List RwTask

namespace Remote

def setServer (r : Remote) (i : Nat) (n : ServerNode) : Remote :=
  { r with sList := Function.update r.sList i n }

def setState (r : Remote) (i : Nat) (st : ServerState) : Remote :=
  r.setServer i { r.sList i with serverState := st }

/-- `dhmp_write` to a bank of one server. -/
def setBank (r : Remote) (i bankId : Nat) (mem : Bytes) : Remote :=
  r.setServer i { r.sList i with bank := Function.update (r.sList i).bank bankId mem }

/-- The first connected server, or `NULL`. -/
def findAliveServer (r : Remote) : Option Nat :=
  (List.range r.serverNum).find? fun i => (r.sList i).serverState = .connected

end Remote

/-! ## Writing -/

/-- What a call of `dhmp_fs_write_to_remote` meets: which servers take the write, and what the
stack holds where `actual_write_servers` comes to lie. -/
structure WriteEnv where
  ok : Nat → Bool
  stack : Nat → BitVec 32

/-- `actual_write_servers[i]` after the `memset`, which sets `SERVERNUM` bytes to `0xff`. -/
def actualWriteServers (serverNum : Nat) (stack : Nat → BitVec 32) (i : Nat) : BitVec 32 :=
  stack i ||| BitVec.ofNat 32 (256 ^ (serverNum - 4 * i) - 1)

/-- What becomes of one server: a recovering one is sent the write later, and one that does not
take it is disconnected. -/
def writeServer (n : ServerNode) (ok : Bool) (bankId : Nat) (buf : Bytes) (size offset : Nat) :
    ServerNode :=
  match n.serverState with
  | .disconnect | .reconnect => n
  | .recovering =>
    { n with rwTasks := n.rwTasks ++ [⟨bankId, size, offset⟩], rwTasksLen := n.rwTasksLen + 1 }
  | .connected =>
    if ok then
      { n with bank := Function.update n.bank bankId (writeBytes (n.bank bankId) offset size buf) }
    else { n with alive := false, serverState := .disconnect }

/-- `dhmp_fs_write_to_remote`. Undefined are a task appended behind freed ones, and the join of a
server that got no thread, which the stack can bring about by a one in its place. -/
def dhmpFsWriteToRemote (r : Remote) (env : WriteEnv) (bankId : Nat) (buf : Bytes)
    (size offset : Nat) : Option Remote :=
  if (List.range r.serverNum).any fun i =>
      (r.sList i).serverState = .recovering ∧ (r.sList i).rwTasksFreed = true ∨
      (r.sList i).serverState ≠ .connected ∧ actualWriteServers r.serverNum env.stack i = 1 then
    none
  else
    let written i :=
      if i < r.serverNum then writeServer (r.sList i) (env.ok i) bankId buf size offset
      else r.sList i
    some { r with sList := written }

/-! ## Reading -/

/-- What a call of `dhmp_fs_read_from_remote` meets: `rand()`, and which servers answer. -/
structure ReadEnv where
  rand : Nat
  ok : Nat → Bool

/-- The loop of `dhmp_fs_read_from_remote`: the server that answered, if any. -/
def readRemoteLoop (ok : Nat → Bool) : Nat → Remote → Nat → Option (Remote × Option Nat)
  | 0, _, _ => none
  | rounds + 1, r, readServer =>
    let readServer? :=
      if (r.sList readServer).serverState = .reconnect ∨
          (r.sList readServer).serverState = .recovering then r.findAliveServer
      else some readServer
    match readServer? with
    | none => some (r, none)
    | some i =>
      if ok i then some (r, some i)
      else
        let r := r.setServer i { r.sList i with alive := false, serverState := .disconnect }
        match r.findAliveServer with
        | none => some (r, none)
        | some j => readRemoteLoop ok rounds r j

/-- `dhmp_fs_read_from_remote` and the buffer after it. Every failure disconnects a server. -/
def dhmpFsReadFromRemote (r : Remote) (env : ReadEnv) (bankId : Nat) (buf : Bytes)
    (size offset : Nat) : Option (Remote × Bytes) :=
  if r.serverNum = 0 then none
  else
    (readRemoteLoop env.ok (r.serverNum + 1) r (env.rand % r.serverNum)).map fun (r, served) =>
      (r, match served with
        | none => buf
        | some i => readBytes ((r.sList i).bank bankId) offset size buf)

/-! ## Start -/

/-- The servers after `dhmp_init`: the banks hold what `dhmp_malloc` returned. -/
def initRemote (serverNum : Nat) (bank : Nat → Nat → Bytes) : Remote where
  serverNum := serverNum
  sList i := ⟨true, bank i, [], false, 0, .connected⟩
  recoveryInUse := false
  useBankLen := 0
  journal := []

/-- All servers are up. -/
def Remote.AllConnected (r : Remote) : Prop :=
  ∀ i < r.serverNum, (r.sList i).serverState = .connected

/-! ## Calls that succeed -/

section succeed

variable {r : Remote} (bankId size offset : Nat) (buf : Bytes)

/-- Where every server is up and takes the write, every bank but one is unchanged. -/
theorem dhmpFsWriteToRemote_connected (h : r.AllConnected) (env : WriteEnv)
    (hok : ∀ i < r.serverNum, env.ok i = true) :
    ∃ r', dhmpFsWriteToRemote r env bankId buf size offset = some r' ∧
      r'.serverNum = r.serverNum ∧ r'.AllConnected ∧
      ∀ i < r.serverNum, (r'.sList i).bank =
        Function.update (r.sList i).bank bankId
          (writeBytes ((r.sList i).bank bankId) offset size buf) := by
  refine ⟨_, if_neg ?_, rfl, fun i hi => ?_, fun i hi => ?_⟩
  · simp only [List.any_eq_true, List.mem_range, decide_eq_true_eq, not_exists, not_and]
    intro i hi
    simp [h i hi]
  · have hi' : i < r.serverNum := hi
    simp only [hi', if_true, writeServer, h i hi', hok i hi']
  · simp only [hi, if_true, writeServer, h i hi, hok i hi]

/-- Where every server is up and answers, one of them is read and nothing changes. -/
theorem dhmpFsReadFromRemote_connected (h : r.AllConnected) (hpos : 0 < r.serverNum)
    (env : ReadEnv) (hok : ∀ i < r.serverNum, env.ok i = true) :
    ∃ i < r.serverNum, dhmpFsReadFromRemote r env bankId buf size offset =
      some (r, readBytes ((r.sList i).bank bankId) offset size buf) := by
  have hi : env.rand % r.serverNum < r.serverNum := Nat.mod_lt _ hpos
  refine ⟨env.rand % r.serverNum, hi, ?_⟩
  unfold dhmpFsReadFromRemote readRemoteLoop
  simp [Nat.ne_of_gt hpos, h _ hi, hok _ hi]

end succeed

end DhmpFs
