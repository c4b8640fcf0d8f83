import DhmpFs.Library.RemoteCalls
import DhmpFs.Client.AddrTable
import DhmpFs.Remote.Servers
import DhmpFs.Server.Completeness

/-!
# The memory pool: callers, work thread, servers

`dhmp_malloc`, `dhmp_free`, `dhmp_read` and `dhmp_write` put a `dhmp_work` in `work_list` and wait
for its `done_flag`. `dhmp_work_handle_thread` takes the works out one by one, and waits for each
message of a server or completion of an RDMA operation, which the event thread stores in the
`dhmp_addr_info` or in the `dhmp_task` it waits for. A queue pair keeps its order.

`dhmp_rdma_write` posts two requests, the write and a read of one byte, and waits for both.
Nothing else is on its way then, so the two are one request here, with two completions.

The four calls check their arguments before they queue anything; a work here has passed them.
Left out: the recovery, transports that break, `read_cnt` and `write_cnt`, the copies that
registered memory needs, and the value of the byte that `dhmp_rdma_write` reads.

## Main definitions

* `PoolClient`: the table of addresses, with the registered memory, and the task in flight.
* `PoolNode`: the allocator of a server and its memory.
* `pool`: the four works, the messages and the servers as a `Protocol`.
-/

namespace DhmpFs

open Library

/-! ## The client -/

/-- `dhmp_addr_info` -/
structure PoolInfo where
  nvmMr : IbvMr
  nodeIndex : Int
  writeFlag : Bool

/-- `dhmp_task` of a read or a write, with the memory behind `sge`. -/
structure PoolTask where
  doneFlag : Bool
  data : Bytes

/-- `client`, and what the handler that the work thread is in has in its variables: `addr_info`,
the task, and the `done_flag` of the second task of a write. -/
structure PoolClient where
  addrInfoHt : Nat → List AddrInfoId
  addrInfo : AddrInfoId → PoolInfo
  found : AddrInfoId
  task : PoolTask
  readBackDone : Bool

namespace PoolClient

/-- What lookups see of the table. -/
def table (client : PoolClient) : DhmpClient where
  addrInfoHt := client.addrInfoHt
  addrInfo p := ⟨(client.addrInfo p).nodeIndex, (client.addrInfo p).nvmMr.addr⟩

def setInfo (client : PoolClient) (p : AddrInfoId) (info : PoolInfo) : PoolClient :=
  { client with addrInfo := Function.update client.addrInfo p info }

/-- `dhmp_get_addr_info_from_ht` in the bucket of the address. -/
def lookup (hash : Int → Nat) (client : PoolClient) (dhmpAddr : Int) : Option AddrInfoId :=
  dhmpGetAddrInfoFromHt client.table (dhmpHashInClient hash dhmpAddr) dhmpAddr

/-- `dhmp_client_init` -/
def init (addrInfo : AddrInfoId → PoolInfo) (task : PoolTask) : PoolClient :=
  ⟨fun _ => [], addrInfo, 0, task, false⟩

end PoolClient

/-! ## Works and messages -/

/-- A `dhmp_work`. `dhmp_malloc` allocates `addr_info`; what was in that memory before is still
there, apart from the length, which is set to `0`. -/
inductive PoolWork where
  | malloc (rdmaTrans length : Nat) (addrInfo : AddrInfoId) (memory : PoolInfo)
  | free (dhmpAddr : Int)
  | read (dhmpAddr : Int) (localAddr : Bytes) (length offset : Nat)
  | write (dhmpAddr : Int) (localAddr : Bytes) (length offset : Nat)

/-- What the call returns, with the buffer of a read. -/
inductive PoolRes where
  | malloc (resAddr : Int)
  | free
  | read (res : Int) (localAddr : Bytes)
  | write (res : Int)

/-- A message to a server, or an RDMA operation on its memory. Behind a write one byte is read, at
an address in the registered memory with the key. -/
inductive PoolRequest where
  | malloc (reqSize : Nat) (addrInfo : AddrInfoId)
  | free (addrInfo : AddrInfoId) (mr : IbvMr)
  | rdmaRead (remoteAddr length : Nat)
  | rdmaWrite (addrInfo : AddrInfoId) (remoteAddr length : Nat) (data : Bytes)
      (key readBackAddr : Nat)

/-- A message of a server, or a completion. The read behind a write succeeds or it does not. -/
inductive PoolReply where
  | mallocResponse (addrInfo : AddrInfoId) (mr : IbvMr)
  | mallocError (addrInfo : AddrInfoId) (reqSize : Nat)
  | freeResponse (addrInfo : AddrInfoId)
  | readCompletion (data : Bytes)
  | writeCompletion (addrInfo : AddrInfoId) (readBack : Bool)

/-- A store of the event thread. -/
inductive PoolStore where
  | nvmMr (addrInfo : AddrInfoId) (mr : IbvMr)
  | nvmLength (addrInfo : AddrInfoId) (length : Nat)
  | nvmAddrNull (addrInfo : AddrInfoId)
  | writeFlagFalse (addrInfo : AddrInfoId)
  | data (data : Bytes)
  | doneFlag
  | readBackDone

namespace PoolClient

/-! ## The work thread -/

/-- `dhmp_malloc_work_handler` up to the wait, after the assignment in `dhmp_malloc`. -/
def dhmpMallocWorkPost (client : PoolClient) (rdmaTrans length : Nat) (addrInfo : AddrInfoId)
    (memory : PoolInfo) : PoolClient × (PoolRes ⊕ (Nat × PoolRequest)) :=
  let info := { memory with nvmMr := { memory.nvmMr with length := 0 } }
  ({ client.setInfo addrInfo info with found := addrInfo },
    .inr (rdmaTrans, .malloc length addrInfo))

/-- `dhmp_transfer_dhmp_addr` of any address: the sum is a `long long`. -/
def resAddr (rdmaTrans addr : Nat) : Int := (dhmpTransferDhmpAddr rdmaTrans addr).bmod (2 ^ 64)

/-- `dhmp_malloc_work_handler` behind the wait. -/
def dhmpMallocWorkDone (hash : Int → Nat) (client : PoolClient) (rdmaTrans : Nat)
    (addrInfo : AddrInfoId) : PoolClient × PoolRes :=
  let info := client.addrInfo addrInfo
  if info.nvmMr.addr = 0 then (client, .malloc 0)
  else
    let resAddr := resAddr rdmaTrans info.nvmMr.addr
    let client := client.setInfo addrInfo
      { info with nodeIndex := dhmpGetNodeIndexFromAddr resAddr, writeFlag := false }
    let index := dhmpHashInClient hash resAddr
    ({ client with
      addrInfoHt := Function.update client.addrInfoHt index (addrInfo :: client.addrInfoHt index) },
      .malloc resAddr)

/-- `dhmp_free_work_handler` up to the wait. -/
def dhmpFreeWorkPost (hash : Int → Nat) (client : PoolClient) (dhmpAddr : Int) :
    PoolClient × (PoolRes ⊕ (Nat × PoolRequest)) :=
  let index := dhmpHashInClient hash dhmpAddr
  match client.lookup hash dhmpAddr with
  | none => (client, .inl .free)
  | some addrInfo =>
    ({ client with
      addrInfoHt := Function.update client.addrInfoHt index
        ((client.addrInfoHt index).erase addrInfo)
      found := addrInfo },
      .inr ((dhmpGetNodeIndexFromAddr dhmpAddr).toNat,
        .free addrInfo (client.addrInfo addrInfo).nvmMr))

/-- `dhmp_read_work_handler` and `dhmp_rdma_read` up to the wait; `none` if it has to wait for
`write_flag` first. -/
def dhmpReadWorkPost (hash : Int → Nat) (client : PoolClient) (dhmpAddr : Int) (localAddr : Bytes)
    (length offset : Nat) : Option (PoolClient × (PoolRes ⊕ (Nat × PoolRequest))) :=
  match client.lookup hash dhmpAddr with
  | none => some (client, .inl (.read 0 localAddr))
  | some addrInfo =>
    let info := client.addrInfo addrInfo
    if info.writeFlag then none
    else some ({ client with found := addrInfo, task := ⟨false, client.task.data⟩ },
      .inr ((dhmpGetNodeIndexFromAddr dhmpAddr).toNat,
        .rdmaRead (info.nvmMr.addr + offset) length))

/-- `dhmp_write_work_handler` and `dhmp_rdma_write` up to the waits; `none` if it has to wait for
`write_flag` first. The byte that is read is the one `length - 1` behind the start of the
region, whatever the offset. -/
def dhmpWriteWorkPost (hash : Int → Nat) (client : PoolClient) (dhmpAddr : Int) (localAddr : Bytes)
    (length offset : Nat) : Option (PoolClient × (PoolRes ⊕ (Nat × PoolRequest))) :=
  match client.lookup hash dhmpAddr with
  | none => some (client, .inl (.write 0))
  | some addrInfo =>
    let info := client.addrInfo addrInfo
    if info.writeFlag then none
    else some ({ client.setInfo addrInfo { info with writeFlag := true } with
        found := addrInfo, task := ⟨false, client.task.data⟩, readBackDone := false },
      .inr ((dhmpGetNodeIndexFromAddr dhmpAddr).toNat,
        .rdmaWrite addrInfo (info.nvmMr.addr + offset) length localAddr info.nvmMr.lkey
          (info.nvmMr.addr + length - 1)))

/-- A work up to its wait. -/
def post (hash : Int → Nat) (client : PoolClient) :
    PoolWork → Option (PoolClient × (PoolRes ⊕ (Nat × PoolRequest)))
  | .malloc rdmaTrans length addrInfo memory =>
    some (client.dhmpMallocWorkPost rdmaTrans length addrInfo memory)
  | .free dhmpAddr => some (client.dhmpFreeWorkPost hash dhmpAddr)
  | .read dhmpAddr localAddr length offset =>
    client.dhmpReadWorkPost hash dhmpAddr localAddr length offset
  | .write dhmpAddr localAddr length offset =>
    client.dhmpWriteWorkPost hash dhmpAddr localAddr length offset

/-- A work behind its wait; `none` as long as it waits. -/
def done (hash : Int → Nat) (client : PoolClient) : PoolWork → Option (PoolClient × PoolRes)
  | .malloc rdmaTrans _ addrInfo _ =>
    if (client.addrInfo addrInfo).nvmMr.length = 0 then none
    else some (client.dhmpMallocWorkDone hash rdmaTrans addrInfo)
  | .free _ =>
    if (client.addrInfo client.found).nvmMr.addr ≠ 0 then none else some (client, .free)
  | .read _ localAddr length _ =>
    if client.task.doneFlag then
      some (client, .read 0 (writeBytes localAddr 0 length client.task.data))
    else none
  | .write .. =>
    if client.task.doneFlag && client.readBackDone then some (client, .write 0) else none

/-! ## The event thread -/

/-- `dhmp_malloc_response_handler`, `dhmp_malloc_error_handler`, `dhmp_free_response_handler`,
`dhmp_wc_success_handler` and `dhmp_wc_error_handler`, which makes none, as the stores they make. -/
def storesOf : PoolReply → List PoolStore
  | .mallocResponse addrInfo mr => [.nvmMr addrInfo mr]
  | .mallocError addrInfo reqSize => [.nvmLength addrInfo reqSize, .nvmAddrNull addrInfo]
  | .freeResponse addrInfo => [.nvmAddrNull addrInfo]
  | .readCompletion data => [.data data, .doneFlag]
  | .writeCompletion addrInfo readBack =>
    .writeFlagFalse addrInfo :: .doneFlag :: if readBack then [.readBackDone] else []

def store (client : PoolClient) : PoolStore → PoolClient
  | .nvmMr p mr => client.setInfo p { client.addrInfo p with nvmMr := mr }
  | .nvmLength p length => client.setInfo p
      { client.addrInfo p with nvmMr := { (client.addrInfo p).nvmMr with length := length } }
  | .nvmAddrNull p => client.setInfo p
      { client.addrInfo p with nvmMr := { (client.addrInfo p).nvmMr with addr := 0 } }
  | .writeFlagFalse p => client.setInfo p { client.addrInfo p with writeFlag := false }
  | .data data => { client with task := { client.task with data := data } }
  | .doneFlag => { client with task := { client.task with doneFlag := true } }
  | .readBackDone => { client with readBackDone := true }

end PoolClient

/-! ## The servers -/

/-- The allocator of a server, and the memory of its process. -/
structure PoolNode where
  server : Server
  mem : Bytes

/-- `snprintf(addr, n, …)` of a text. -/
def snprintf (mem : Bytes) (addr n : Nat) (text : List UInt8) : Bytes :=
  if n = 0 then mem
  else
    let text := text.take (n - 1) ++ [0]
    writeBytes mem addr text.length fun i => text.getD i 0

/-- The text in new memory: `nvmhhhhhhhh` in a block, `welcomebj` in an area, and a pointer. -/
def mallocText (reqSize : Nat) (pointer : List UInt8) : List UInt8 :=
  (if reqSize ≤ buddySize (maxOrder - 1) then "nvmhhhhhhhh" else "welcomebj").toList.map
    (fun c => UInt8.ofNat c.toNat) ++ pointer

/-- What the host hands out has any content. -/
def PoolNode.memWithArea (node : PoolNode) (reg : Option Registration) (reqSize : Nat)
    (fill : Bytes) : Bytes :=
  match reg with
  | none => node.mem
  | some reg => writeBytes node.mem reg.addr (areaLength reqSize) fill

/-- The memory after a request; new memory is marked. -/
def PoolNode.memAfterMalloc (node : PoolNode) (reg : Option Registration) (res : Option IbvMr)
    (reqSize : Nat) (fill : Bytes) (pointer : List UInt8) : Bytes :=
  match res with
  | none => node.memWithArea reg reqSize fill
  | some mr =>
    snprintf (node.memWithArea reg reqSize fill) mr.addr reqSize (mallocText reqSize pointer)

/-- The byte at an address can be read with the key of a memory region. -/
def PoolNode.readable (node : PoolNode) (key addr : Nat) : Bool :=
  node.server.ids.any fun id =>
    let mr := (node.server.areas id).mr
    mr.lkey = key && mr.addr ≤ addr && addr < mr.addr + mr.length

/-- The host hands out memory with pointers of 48 bits. -/
def Registration.InSpace (reg : Registration) (reqSize : Nat) : Prop :=
  0 < reg.addr ∧ reg.addr + areaLength reqSize ≤ 2 ^ 48

/-- A message is handled, or an RDMA operation performed. -/
inductive PoolNode.Handle (node : PoolNode) : PoolRequest → PoolNode → PoolReply → Prop
  | malloc {reqSize : Nat} {addrInfo : AddrInfoId} {reg : Option Registration} {server : Server}
    {res : Option IbvMr} {fill : Bytes} {pointer : List UInt8}
    (fresh : ∀ r ∈ reg, r.Fresh node.server reqSize) (space : ∀ r ∈ reg, r.InSpace reqSize)
    (handle : Host.dhmpMallocRequestHandler node.server reg reqSize = some (server, res)) :
    Handle node (.malloc reqSize addrInfo)
      ⟨server, node.memAfterMalloc reg res reqSize fill pointer⟩
      (res.elim (.mallocError addrInfo reqSize) (.mallocResponse addrInfo))
  | free {addrInfo : AddrInfoId} {mr : IbvMr} {server : Server}
    (handle : dhmpFreeRequestHandler node.server mr = some server) :
    Handle node (.free addrInfo mr) ⟨server, node.mem⟩ (.freeResponse addrInfo)
  | rdmaRead {remoteAddr length : Nat} :
    Handle node (.rdmaRead remoteAddr length) node
      (.readCompletion fun i => node.mem (remoteAddr + i))
  | rdmaWrite {addrInfo : AddrInfoId} {remoteAddr length : Nat} {data : Bytes}
    {key readBackAddr : Nat} :
    Handle node (.rdmaWrite addrInfo remoteAddr length data key readBackAddr)
      { node with mem := writeBytes node.mem remoteAddr length data }
      (.writeCompletion addrInfo (node.readable key readBackAddr))

/-- The pool. -/
def pool (hash : Int → Nat) :
    Protocol Nat PoolClient PoolNode PoolWork PoolRes PoolRequest PoolReply PoolStore where
  start client work client' out := client.post hash work = some (client', out)
  handle _ node := node.Handle
  stores := PoolClient.storesOf
  store := PoolClient.store
  finish client work client' res := client.done hash work = some (client', res)

/-! ## What the pool is for -/

/-- A region of memory. -/
structure Region where
  size : Nat
  data : Bytes

/-- The regions by their addresses, and the works as they are meant. -/
inductive RegionStep {γ : Type*} (regions : Int → Option Region) :
    γ × PoolWork × PoolRes → (Int → Option Region) → Prop
  | refused {c : γ} {rdmaTrans length : Nat} {addrInfo : AddrInfoId} {memory : PoolInfo} :
    RegionStep regions (c, .malloc rdmaTrans length addrInfo memory, .malloc 0) regions
  | malloc {c : γ} {rdmaTrans length : Nat} {addrInfo : AddrInfoId} {memory : PoolInfo}
    {dhmpAddr : Int} {region : Region} (null : dhmpAddr ≠ 0)
    (node : dhmpGetNodeIndexFromAddr dhmpAddr = rdmaTrans) (fresh : regions dhmpAddr = none)
    (long : length ≤ region.size) :
    RegionStep regions (c, .malloc rdmaTrans length addrInfo memory, .malloc dhmpAddr)
      (Function.update regions dhmpAddr (some region))
  | free {c : γ} {dhmpAddr : Int} :
    RegionStep regions (c, .free dhmpAddr, .free) (Function.update regions dhmpAddr none)
  | read {c : γ} {dhmpAddr : Int} {localAddr : Bytes} {length offset : Nat} {region : Region}
    (live : regions dhmpAddr = some region) (inside : offset + length ≤ region.size) :
    RegionStep regions (c, .read dhmpAddr localAddr length offset,
      .read 0 (readBytes region.data offset length localAddr)) regions
  | readNothing {c : γ} {dhmpAddr : Int} {localAddr : Bytes} {length offset : Nat}
    (dead : regions dhmpAddr = none) :
    RegionStep regions (c, .read dhmpAddr localAddr length offset, .read 0 localAddr) regions
  | write {c : γ} {dhmpAddr : Int} {localAddr : Bytes} {length offset : Nat} {region : Region}
    (live : regions dhmpAddr = some region) (inside : offset + length ≤ region.size) :
    RegionStep regions (c, .write dhmpAddr localAddr length offset, .write 0)
      (Function.update regions dhmpAddr
        (some { region with data := writeBytes region.data offset length localAddr }))
  | writeNothing {c : γ} {dhmpAddr : Int} {localAddr : Bytes} {length offset : Nat}
    (dead : regions dhmpAddr = none) :
    RegionStep regions (c, .write dhmpAddr localAddr length offset, .write 0) regions

/-! ## Conditions -/

/-- Elements of the bucket with the 48 bits of the address are on its server. -/
def PoolClient.Unambiguous (hash : Int → Nat) (client : PoolClient) (dhmpAddr : Int) : Prop :=
  ∀ p ∈ client.addrInfoHt (dhmpHashInClient hash dhmpAddr),
    (client.addrInfo p).nvmMr.addr = dhmpTransferNormalAddr dhmpAddr →
      (client.addrInfo p).nodeIndex = dhmpGetNodeIndexFromAddr dhmpAddr

/-- The address names a server. -/
def HasTrans (dhmpAddr : Int) : Prop :=
  0 ≤ dhmpGetNodeIndexFromAddr dhmpAddr ∧ dhmpGetNodeIndexFromAddr dhmpAddr < dhmpServerNodeNum

/-- An access is inside what was allocated, and its length is an `int`. -/
def PoolClient.Inside (hash : Int → Nat) (client : PoolClient) (dhmpAddr : Int)
    (length offset : Nat) : Prop :=
  length < 2 ^ 31 ∧ ∀ p, client.lookup hash dhmpAddr = some p →
    offset + length ≤ (client.addrInfo p).nvmMr.length

/-- What the calls check, and what their callers have to see to. Memory for a `dhmp_addr_info` is
not in use. -/
def PoolClient.StartOk (hash : Int → Nat) (client : PoolClient) : PoolWork → Prop
  | .malloc rdmaTrans length addrInfo _ =>
    0 < length ∧ rdmaTrans < dhmpServerNodeNum ∧ ∀ index, addrInfo ∉ client.addrInfoHt index
  | .free dhmpAddr => dhmpAddr ≠ 0 ∧ HasTrans dhmpAddr ∧ client.Unambiguous hash dhmpAddr
  | .read dhmpAddr _ length offset | .write dhmpAddr _ length offset =>
    HasTrans dhmpAddr ∧ client.Unambiguous hash dhmpAddr ∧
      client.Inside hash dhmpAddr length offset

/-- The address that a server has answered with can be told from those in its bucket. -/
def PoolClient.FinishOk (hash : Int → Nat) (client : PoolClient) : PoolWork → Prop
  | .malloc rdmaTrans _ addrInfo _ => client.Unambiguous hash
      (resAddr rdmaTrans (client.addrInfo addrInfo).nvmMr.addr)
  | _ => True

/-- A write of no bytes reads the byte before its region, which need not be registered. -/
def PoolWork.ReadsBack : PoolWork → Prop
  | .write _ _ length _ => 0 < length
  | _ => True

/-- The work thread does not look between the two stores of `dhmp_malloc_error_handler`. -/
def LooksLate {γ : Type*}
    (s : CallState γ Nat PoolClient PoolNode PoolWork PoolRes PoolRequest PoolReply PoolStore)
    (e : CallEvent γ Nat PoolWork PoolRes) : Prop :=
  ∀ c rdmaTrans length addrInfo memory res,
    e = .done c (.malloc rdmaTrans length addrInfo memory) res → s.stores = []

end DhmpFs
