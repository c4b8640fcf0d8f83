import DhmpFs.Client.AddrTable
import DhmpFs.Client.Framing
import DhmpFs.Client.Reconnect

/-!
# What the remote operations return

`dhmp_read`, `dhmp_write` and `dhmp_send` hand a work item to a handler and return 0 once it is
done. The handler looks the address up and calls an RDMA helper; neither a lookup that fails nor
what the helper returns gets back to the caller.

Left out: the lists the work items and the registered buffers go through, and the contents that
are transferred. `DHMP_CACHE_POLICY` is off.

## Main definitions

* `RdmaEnv`, `Stop`: what an operation meets, and how it may end without a return.
* `dhmpRead`, `dhmpWrite`, `dhmpSend`: the operations.
* `Truthful`: the return code says whether the transfer was made.
* `Transfers`: when it is made.
-/

namespace DhmpFs

/-- The counters of a `dhmp_addr_info`. -/
structure AddrCount where
  readCnt : Nat
  writeCnt : Nat
  writeFlag : Bool

/-- The parts of `client` that an operation uses. `connectTrans index` is the state of
`connect_trans[index]`, if there is one. -/
structure OpClient where
  table : DhmpClient
  counts : AddrInfoId → AddrCount
  connectTrans : Nat → Option TransState

/-- What an operation meets: whether the memory for the work item, the registered buffer, the task
and the message is there, whether a write that is on its way completes and clears the flag, whether
the requests can be posted, and whether they complete. The fields with `read` are about the second
request of a write. -/
structure RdmaEnv where
  work : Bool
  clears : Bool
  smr : Bool
  task : Bool
  temp : Bool
  post : Bool
  completes : Bool
  readMr : Bool
  readTask : Bool
  readPost : Bool
  readCompletes : Bool

/-- An operation that does not return: it uses a null pointer or an index that is out of range,
waits for ever, or ends the process. -/
inductive Stop where
  | undefined
  | spins
  | exits
  deriving DecidableEq

/-- A transfer that was made. -/
structure Transfer where
  access : Access
  isWrite : Bool
  offset : Int
  length : Nat
  deriving DecidableEq

/-- The return code, the transfer that was made, and the state. -/
structure Reply where
  re : Int
  transfer : Option Transfer
  client : OpClient

namespace OpClient

def setCount (s : OpClient) (addrInfo : AddrInfoId) (count : AddrCount) : OpClient :=
  { s with counts := Function.update s.counts addrInfo count }

end OpClient

section operations

variable (env : RdmaEnv)

/-- `dhmp_get_trans_from_addr` -/
def dhmpGetTransFromAddr (s : OpClient) (dhmpAddr : Int) : Except Stop (Option TransState) :=
  let nodeIndex := dhmpGetNodeIndexFromAddr dhmpAddr
  if 0 ≤ nodeIndex ∧ nodeIndex < dhmpServerNodeNum then .ok (s.connectTrans nodeIndex.toNat)
  else .error .undefined

/-- The length of an RDMA request: a `size_t` that went through an `int`. -/
def sgeLength (length : Nat) : Nat := length % 2 ^ 32

/-- `dhmp_rdma_read` and the transfer it makes. -/
def dhmpRdmaRead (access : Access) (length : Nat) (offset : Int) :
    Except Stop (Int × Option Transfer) :=
  if !env.task then .ok (-1, none)
  else if !env.smr then .error .undefined
  else if !env.post then .ok (-1, none)
  else if !env.completes then .error .spins
  else .ok (0, some ⟨access, false, offset, sgeLength length⟩)

/-- `dhmp_rdma_write` and the transfer it makes. -/
def dhmpRdmaWrite (access : Access) (length : Nat) (offset : Int) :
    Except Stop (Int × Option Transfer) :=
  if !env.task then .ok (-1, none)
  else if !env.smr then .error .undefined
  else if !env.readTask then .ok (-1, none)
  else if !env.readMr then .error .undefined
  else if !env.post then .error .exits
  else if !env.readPost then .error .exits
  else if !env.completes then .error .spins
  else if !env.readCompletes then .error .spins
  else .ok (0, some ⟨access, true, offset, sgeLength length⟩)

/-- The size of a message with its header and its `dhmp_send_request`. -/
def sendSize (length : Nat) (isWrite : Bool) : Nat := 12 + (40 + if isWrite then length else 0)

/-- `dhmp_rdma_send` and the transfer it makes. A message that is not sent is waited for. -/
def dhmpRdmaSend (access : Access) (length : Nat) (isWrite : Bool) :
    Except Stop (Option Transfer) :=
  if isWrite && !env.temp then .error .undefined
  else if !env.task then .error .spins
  else if sendRegionSize < sendSize length isWrite then .error .undefined
  else if !env.post then .error .spins
  else if !env.completes then .error .spins
  else .ok (some ⟨access, isWrite, 0, length⟩)

variable (hash : Int → Nat) (s : OpClient) (dhmpAddr : Int)

/-- The lookup of the handlers. -/
def lookupAddr : Option AddrInfoId :=
  dhmpGetAddrInfoFromHt s.table (dhmpHashInClient hash dhmpAddr) dhmpAddr

/-- The request for a region that was found. -/
def accessTo (addrInfo : AddrInfoId) : Access :=
  ⟨dhmpGetNodeIndexFromAddr dhmpAddr, s.table.addrInfo addrInfo⟩

/-- `dhmp_read_work_handler` -/
def dhmpReadWorkHandler (length : Nat) (offset : Int) :
    Except Stop (Option Transfer × OpClient) :=
  match lookupAddr hash s dhmpAddr with
  | none => .ok (none, s)
  | some addrInfo =>
    if (s.counts addrInfo).writeFlag && !env.clears then .error .spins
    else
      let count := { s.counts addrInfo with writeFlag := false }
      let client := s.setCount addrInfo { count with readCnt := count.readCnt + 1 }
      (dhmpRdmaRead env (accessTo s dhmpAddr addrInfo) length offset).map fun (_, transfer) =>
        (transfer, client)

/-- `dhmp_write_work_handler`. The completion of the write clears the flag. -/
def dhmpWriteWorkHandler (length : Nat) (offset : Int) :
    Except Stop (Option Transfer × OpClient) :=
  match lookupAddr hash s dhmpAddr with
  | none => .ok (none, s)
  | some addrInfo =>
    if (s.counts addrInfo).writeFlag && !env.clears then .error .spins
    else
      let count := { s.counts addrInfo with writeFlag := true }
      let count := { count with writeCnt := count.writeCnt + 1 }
      (dhmpRdmaWrite env (accessTo s dhmpAddr addrInfo) length offset).map fun (_, transfer) =>
        (transfer, s.setCount addrInfo { count with writeFlag := transfer.isNone })

/-- `dhmp_send_work_handler`. The flag is cleared whether or not the address was found. -/
def dhmpSendWorkHandler (length : Nat) (isWrite : Bool) :
    Except Stop (Option Transfer × OpClient) :=
  match lookupAddr hash s dhmpAddr with
  | none => .error .undefined
  | some addrInfo =>
    if (s.counts addrInfo).writeFlag && !env.clears then .error .spins
    else
      let count := { s.counts addrInfo with writeFlag := true }
      let count :=
        if isWrite then { count with writeCnt := count.writeCnt + 1 }
        else { count with readCnt := count.readCnt + 1 }
      (dhmpRdmaSend env (accessTo s dhmpAddr addrInfo) length isWrite).map fun transfer =>
        (transfer, s.setCount addrInfo { count with writeFlag := false })

/-- What the three operations have in common: the test of the transport, the work item, and the
return code once the handler is done. -/
def dhmpCall (handler : Except Stop (Option Transfer × OpClient)) : Except Stop Reply :=
  (dhmpGetTransFromAddr s dhmpAddr).bind fun rdmaTrans =>
    if rdmaTrans ≠ some .connected then .ok ⟨-1, none, s⟩
    else if !env.work then .ok ⟨-1, none, s⟩
    else handler.map fun (transfer, client) => ⟨0, transfer, client⟩

/-- `dhmp_read` -/
def dhmpRead (count : Nat) (offset : Int) : Except Stop Reply :=
  dhmpCall env s dhmpAddr (dhmpReadWorkHandler env hash s dhmpAddr count offset)

/-- `dhmp_write` -/
def dhmpWrite (count : Nat) (offset : Int) : Except Stop Reply :=
  dhmpCall env s dhmpAddr (dhmpWriteWorkHandler env hash s dhmpAddr count offset)

/-- `dhmp_send` -/
def dhmpSend (length : Nat) (isWrite : Bool) : Except Stop Reply :=
  dhmpCall env s dhmpAddr (dhmpSendWorkHandler env hash s dhmpAddr length isWrite)

end operations

/-- One of the three operations, with its arguments. -/
inductive RemoteOp where
  | read (count : Nat) (offset : Int)
  | write (count : Nat) (offset : Int)
  | send (length : Nat) (isWrite : Bool)

namespace RemoteOp

/-- The operation at an address. -/
def run (op : RemoteOp) (env : RdmaEnv) (hash : Int → Nat) (s : OpClient) (dhmpAddr : Int) :
    Except Stop Reply :=
  match op with
  | .read count offset => dhmpRead env hash s dhmpAddr count offset
  | .write count offset => dhmpWrite env hash s dhmpAddr count offset
  | .send length isWrite => dhmpSend env hash s dhmpAddr length isWrite

/-- The transfer an operation is to make: all of it, to or from the region of the address. -/
def transfer (op : RemoteOp) (dhmpAddr : Int) : Transfer :=
  let nodeIndex := dhmpGetNodeIndexFromAddr dhmpAddr
  let access : Access := ⟨nodeIndex, ⟨nodeIndex, dhmpTransferNormalAddr dhmpAddr⟩⟩
  match op with
  | .read count offset => ⟨access, false, offset, count⟩
  | .write count offset => ⟨access, true, offset, count⟩
  | .send length isWrite => ⟨access, isWrite, 0, length⟩

/-- The memory and the requests of an operation are all there, and its length fits. -/
def Provided (op : RemoteOp) (env : RdmaEnv) : Prop :=
  match op with
  | .read count _ => env.task ∧ env.smr ∧ env.post ∧ env.completes ∧ count < 2 ^ 32
  | .write count _ => env.task ∧ env.smr ∧ env.post ∧ env.completes ∧ count < 2 ^ 32 ∧
      env.readTask ∧ env.readMr ∧ env.readPost ∧ env.readCompletes
  | .send length isWrite => env.task ∧ env.post ∧ env.completes ∧ (isWrite → env.temp) ∧
      sendSize length isWrite ≤ sendRegionSize

end RemoteOp

/-- The operation returns 0 after its transfer, or -1 with no transfer and the state as it was. -/
def Truthful (s : OpClient) (transfer : Transfer) : Except Stop Reply → Prop
  | .ok reply =>
      reply.re = 0 ∧ reply.transfer = some transfer ∨
      reply.re = -1 ∧ reply.transfer = none ∧ reply.client.table = s.table ∧
        reply.client.counts = s.counts
  | .error _ => False

/-- The address is in the table, with its own server, no write to it is on its way for ever, and the
operation gets all it needs. -/
def Transfers (op : RemoteOp) (env : RdmaEnv) (hash : Int → Nat) (s : OpClient) (dhmpAddr : Int) :
    Prop :=
  (∃ addrInfo, lookupAddr hash s dhmpAddr = some addrInfo ∧
    (s.table.addrInfo addrInfo).nodeIndex = dhmpGetNodeIndexFromAddr dhmpAddr ∧
    ((s.counts addrInfo).writeFlag = false ∨ env.clears = true)) ∧ op.Provided env

/-! ## The handlers -/

section proofs

variable {env : RdmaEnv} {hash : Int → Nat} {s : OpClient} {dhmpAddr : Int}

theorem sgeLength_eq_iff (length : Nat) : sgeLength length = length ↔ length < 2 ^ 32 := by
  unfold sgeLength
  omega

/-- A region that is found is at the 48-bit address. -/
theorem lookupAddr_nvmAddr {addrInfo : AddrInfoId} (h : lookupAddr hash s dhmpAddr = some addrInfo) :
    (s.table.addrInfo addrInfo).nvmAddr = dhmpTransferNormalAddr dhmpAddr := by
  have hfound := List.find?_some h
  simpa using hfound

/-- The request goes to the region of the address if the entry is of its server. -/
theorem accessTo_eq_iff {addrInfo : AddrInfoId} (h : lookupAddr hash s dhmpAddr = some addrInfo) :
    accessTo s dhmpAddr addrInfo = ⟨dhmpGetNodeIndexFromAddr dhmpAddr,
        ⟨dhmpGetNodeIndexFromAddr dhmpAddr, dhmpTransferNormalAddr dhmpAddr⟩⟩ ↔
      (s.table.addrInfo addrInfo).nodeIndex = dhmpGetNodeIndexFromAddr dhmpAddr := by
  have hnvm := lookupAddr_nvmAddr h
  unfold accessTo
  cases hentry : s.table.addrInfo addrInfo
  simp_all

/-- `dhmp_rdma_read` makes the transfer it is asked for. -/
theorem dhmpRdmaRead_transfer_iff (access : Access) (transfer : Transfer) (length : Nat)
    (offset : Int) :
    (dhmpRdmaRead env access length offset).map Prod.snd = .ok (some transfer) ↔
      (env.task ∧ env.smr ∧ env.post ∧ env.completes) ∧
        transfer = ⟨access, false, offset, sgeLength length⟩ := by
  unfold dhmpRdmaRead
  grind [Except.map]

/-- `dhmp_rdma_write` makes the transfer it is asked for. -/
theorem dhmpRdmaWrite_transfer_iff (access : Access) (transfer : Transfer) (length : Nat)
    (offset : Int) :
    (dhmpRdmaWrite env access length offset).map Prod.snd = .ok (some transfer) ↔
      (env.task ∧ env.smr ∧ env.post ∧ env.completes ∧ env.readTask ∧ env.readMr ∧
        env.readPost ∧ env.readCompletes) ∧
        transfer = ⟨access, true, offset, sgeLength length⟩ := by
  unfold dhmpRdmaWrite
  grind [Except.map]

/-- `dhmp_rdma_send` makes the transfer it is asked for. -/
theorem dhmpRdmaSend_transfer_iff (access : Access) (transfer : Transfer) (length : Nat)
    (isWrite : Bool) :
    dhmpRdmaSend env access length isWrite = .ok (some transfer) ↔
      (env.task ∧ env.post ∧ env.completes ∧ (isWrite → env.temp) ∧
        sendSize length isWrite ≤ sendRegionSize) ∧
        transfer = ⟨access, isWrite, 0, length⟩ := by
  unfold dhmpRdmaSend
  grind

/-- The handler of an operation. -/
def RemoteOp.handler (op : RemoteOp) (env : RdmaEnv) (hash : Int → Nat) (s : OpClient)
    (dhmpAddr : Int) : Except Stop (Option Transfer × OpClient) :=
  match op with
  | .read count offset => dhmpReadWorkHandler env hash s dhmpAddr count offset
  | .write count offset => dhmpWriteWorkHandler env hash s dhmpAddr count offset
  | .send length isWrite => dhmpSendWorkHandler env hash s dhmpAddr length isWrite

/-- The transfer the RDMA helper of an operation makes. -/
def RemoteOp.helper (op : RemoteOp) (env : RdmaEnv) (access : Access) :
    Except Stop (Option Transfer) :=
  match op with
  | .read count offset => (dhmpRdmaRead env access count offset).map Prod.snd
  | .write count offset => (dhmpRdmaWrite env access count offset).map Prod.snd
  | .send length isWrite => dhmpRdmaSend env access length isWrite

namespace RemoteOp

variable (op : RemoteOp)

theorem run_eq :
    op.run env hash s dhmpAddr = dhmpCall env s dhmpAddr (op.handler env hash s dhmpAddr) := by
  cases op <;> rfl

/-- A handler whose lookup fails makes no transfer. -/
theorem handler_not_found (h : lookupAddr hash s dhmpAddr = none) (transfer : Transfer) :
    (op.handler env hash s dhmpAddr).map Prod.fst ≠ .ok (some transfer) := by
  cases op <;>
    simp [handler, dhmpReadWorkHandler, dhmpWriteWorkHandler, dhmpSendWorkHandler, h, Except.map]

/-- A handler whose lookup succeeds waits for the flag and makes the transfer of its helper. -/
theorem handler_found {addrInfo : AddrInfoId} (h : lookupAddr hash s dhmpAddr = some addrInfo) :
    (op.handler env hash s dhmpAddr).map Prod.fst =
      if (s.counts addrInfo).writeFlag && !env.clears then .error .spins
      else op.helper env (accessTo s dhmpAddr addrInfo) := by
  cases op with
  | read count offset =>
    simp only [handler, helper, dhmpReadWorkHandler, h]
    cases dhmpRdmaRead env (accessTo s dhmpAddr addrInfo) count offset <;> grind [Except.map]
  | write count offset =>
    simp only [handler, helper, dhmpWriteWorkHandler, h]
    cases dhmpRdmaWrite env (accessTo s dhmpAddr addrInfo) count offset <;> grind [Except.map]
  | send length isWrite =>
    simp only [handler, helper, dhmpSendWorkHandler, h]
    cases dhmpRdmaSend env (accessTo s dhmpAddr addrInfo) length isWrite <;> grind [Except.map]

/-- The helper makes the transfer of its operation when all is provided and the request is for the
region of the address. -/
theorem helper_iff (access : Access) :
    op.helper env access = .ok (some (op.transfer dhmpAddr)) ↔
      access = ⟨dhmpGetNodeIndexFromAddr dhmpAddr,
        ⟨dhmpGetNodeIndexFromAddr dhmpAddr, dhmpTransferNormalAddr dhmpAddr⟩⟩ ∧
      op.Provided env := by
  cases op with
  | read count offset =>
    have hlength := sgeLength_eq_iff count
    simp only [helper, transfer, Provided, dhmpRdmaRead_transfer_iff]
    grind
  | write count offset =>
    have hlength := sgeLength_eq_iff count
    simp only [helper, transfer, Provided, dhmpRdmaWrite_transfer_iff]
    grind
  | send length isWrite =>
    simp only [helper, transfer, Provided, dhmpRdmaSend_transfer_iff]
    grind

theorem handler_transfer_iff :
    (op.handler env hash s dhmpAddr).map Prod.fst = .ok (some (op.transfer dhmpAddr)) ↔
      Transfers op env hash s dhmpAddr := by
  unfold Transfers
  cases hlookup : lookupAddr hash s dhmpAddr with
  | none => simp [op.handler_not_found hlookup]
  | some addrInfo =>
    have hhelper : op.helper env (accessTo s dhmpAddr addrInfo) =
          .ok (some (op.transfer dhmpAddr)) ↔ _ :=
      op.helper_iff (accessTo s dhmpAddr addrInfo)
    rw [accessTo_eq_iff hlookup] at hhelper
    rw [op.handler_found hlookup]
    cases hflag : (s.counts addrInfo).writeFlag <;> cases hclears : env.clears <;>
      simp [hflag, hhelper]

end RemoteOp

/-! ## The return codes -/

/-- Once the handler runs, the operation returns 0. -/
theorem truthful_handler_iff (transfer : Transfer)
    (handler : Except Stop (Option Transfer × OpClient)) :
    Truthful s transfer (handler.map fun result => ⟨0, result.1, result.2⟩) ↔
      handler.map Prod.fst = .ok (some transfer) := by
  cases handler <;> simp [Except.map, Truthful]

/-- An operation is truthful when the handler makes the transfer or is not reached. -/
theorem truthful_dhmpCall_iff (transfer : Transfer)
    (handler : Except Stop (Option Transfer × OpClient)) :
    Truthful s transfer (dhmpCall env s dhmpAddr handler) ↔
      (0 ≤ dhmpGetNodeIndexFromAddr dhmpAddr ∧
        dhmpGetNodeIndexFromAddr dhmpAddr < dhmpServerNodeNum) ∧
      (s.connectTrans (dhmpGetNodeIndexFromAddr dhmpAddr).toNat ≠ some .connected ∨
        env.work = false ∨ handler.map Prod.fst = .ok (some transfer)) := by
  unfold dhmpCall dhmpGetTransFromAddr
  dsimp only
  split
  next hrange =>
    simp only [Except.bind, hrange, and_self, true_and]
    split
    next hstate => simp [Truthful, hstate]
    next hstate =>
      cases hwork : env.work
      · simp [Truthful]
      · simpa [hstate] using truthful_handler_iff transfer handler
  next hrange => exact ⟨False.elim, fun h => hrange h.1⟩

end proofs

/-- `dhmp_read`, `dhmp_write` and `dhmp_send` return 0 after the transfer, and -1 with the table as
it was otherwise, just when the number of the server is in range and the transport is not connected,
or there is no memory for the work item, or nothing goes wrong after that. -/
theorem return_codes (op : RemoteOp) (env : RdmaEnv) (hash : Int → Nat) (s : OpClient)
    (dhmpAddr : Int) :
    Truthful s (op.transfer dhmpAddr) (op.run env hash s dhmpAddr) ↔
      (0 ≤ dhmpGetNodeIndexFromAddr dhmpAddr ∧
        dhmpGetNodeIndexFromAddr dhmpAddr < dhmpServerNodeNum) ∧
      (s.connectTrans (dhmpGetNodeIndexFromAddr dhmpAddr).toNat ≠ some .connected ∨
        env.work = false ∨ Transfers op env hash s dhmpAddr) := by
  rw [op.run_eq, truthful_dhmpCall_iff, op.handler_transfer_iff]

/-- A client that is connected to every server and has nothing in its table. -/
def emptyClient : OpClient := ⟨⟨fun _ => [], fun _ => ⟨0, 0⟩⟩, fun _ => ⟨0, 0, false⟩,
  fun _ => some .connected⟩

/-- Nothing goes wrong. -/
def RdmaEnv.good : RdmaEnv := ⟨true, true, true, true, true, true, true, true, true, true, true⟩

/-- `dhmp_read` at `NULL` returns 0 and transfers nothing; `dhmp_send` there uses the entry that
was not found. -/
theorem not_return_codes :
    ((dhmpRead .good hashAddr emptyClient 0 8 0).map fun reply => (reply.re, reply.transfer)) =
      .ok (0, none) ∧
    ((dhmpSend .good hashAddr emptyClient 0 8 true).map fun reply => reply.re) =
      .error .undefined ∧
    ¬ ∀ (op : RemoteOp) (env : RdmaEnv) (hash : Int → Nat) (s : OpClient) (dhmpAddr : Int),
      Truthful s (op.transfer dhmpAddr) (op.run env hash s dhmpAddr) := by
  refine ⟨rfl, rfl, fun h => ?_⟩
  have hread := h (.read 8 0) .good hashAddr emptyClient 0
  obtain ⟨-, htransfer⟩ | ⟨hre, -⟩ := hread
  · cases htransfer
  · cases hre

end DhmpFs
