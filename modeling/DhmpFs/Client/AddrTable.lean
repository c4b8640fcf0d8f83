import DhmpFs.Library.ChainedTable
import DhmpFs.Library.Run
import Mathlib.Algebra.Group.Int.Defs
import Mathlib.Algebra.Group.Nat.Defs

/-!
# The address table of the client

The client gives out addresses that carry the number of a server in front of the 48-bit address
on that server. A hash table keeps what it knows of them. The bucket is chosen from the whole
address, but along a chain only the 48 bits are compared.

Addresses are `long long` values. `connect_trans[index]` is the transport to the server `index`;
a transport is known by that index.

## Main definitions

* `DhmpClient`: the hash table and the `dhmp_addr_info` in it.
* `AddrStep`: replies to `dhmp_malloc` and calls of `dhmp_free`.
* `TableCorrect`: the table finds what was allocated at an address, and no other region.
-/

namespace DhmpFs

open Library

/-! ## Addresses -/

/-- `DHMP_SERVER_NODE_NUM` -/
abbrev dhmpServerNodeNum : Nat := 3

/-- `DHMP_CLIENT_HT_SIZE` -/
abbrev dhmpClientHtSize : Nat := 500000

/-- `dhmp_transfer_dhmp_addr` for the transport `connect_trans[index]`. -/
def dhmpTransferDhmpAddr (index : Nat) (normalAddr : Int) : Int :=
  if index = 0 then normalAddr else normalAddr + index * 2 ^ 48

/-- `dhmp_get_node_index_from_addr`; `>>` rounds down. -/
def dhmpGetNodeIndexFromAddr (dhmpAddr : Int) : Int := dhmpAddr / 2 ^ 48

/-- `dhmp_transfer_normal_addr` -/
def dhmpTransferNormalAddr (dhmpAddr : Int) : Int :=
  let nodeIndex := dhmpAddr / 2 ^ 48
  let nodeIndex := nodeIndex * 2 ^ 48
  dhmpAddr - nodeIndex

/-- `dhmp_hash_in_client`; `hash` is the `uint32_t` hash of the eight bytes of an address. -/
def dhmpHashInClient (hash : Int → Nat) (addr : Int) : Nat :=
  (hash addr % dhmpClientHtSize + dhmpClientHtSize) % dhmpClientHtSize

/-! ### The hash -/

def rotl32 (x r : UInt32) : UInt32 := (x <<< r) ||| (x >>> (32 - r))

def fmix32 (h : UInt32) : UInt32 :=
  let h := h ^^^ (h >>> 16)
  let h := h * 0x85ebca6b
  let h := h ^^^ (h >>> 13)
  let h := h * 0xc2b2ae35
  h ^^^ (h >>> 16)

/-- `MurmurHash3_x86_32` of a key that is a number of whole blocks. -/
def murmurHash3X86 (blocks : List UInt32) (length : UInt32) : UInt32 :=
  let h1 := blocks.foldl (fun h1 k1 =>
    let k1 := k1 * 0xcc9e2d51
    let k1 := rotl32 k1 15
    let k1 := k1 * 0x1b873593
    let h1 := h1 ^^^ k1
    let h1 := rotl32 h1 13
    h1 * 5 + 0xe6546b64) 0
  fmix32 (h1 ^^^ length)

/-- `hash(&addr, sizeof(void*))` after `dhmp_hash_init`: the low half of an address comes first. -/
def hashAddr (addr : Int) : Nat :=
  (murmurHash3X86 [.ofNat (addr % 2 ^ 32).toNat, .ofNat (addr / 2 ^ 32 % 2 ^ 32).toNat] 8).toNat

theorem dhmpGetNodeIndexFromAddr_transfer {index : Nat} {addr : Int} (hpos : 0 ≤ addr)
    (hlt : addr < 2 ^ 48) : dhmpGetNodeIndexFromAddr (dhmpTransferDhmpAddr index addr) = index := by
  unfold dhmpGetNodeIndexFromAddr dhmpTransferDhmpAddr
  split <;> omega

theorem dhmpTransferNormalAddr_transfer {index : Nat} {addr : Int} (hpos : 0 ≤ addr)
    (hlt : addr < 2 ^ 48) : dhmpTransferNormalAddr (dhmpTransferDhmpAddr index addr) = addr := by
  unfold dhmpTransferNormalAddr dhmpTransferDhmpAddr
  dsimp only
  split <;> omega

/-! ## The table -/

/-- The address of a `dhmp_addr_info`. -/
abbrev AddrInfoId := Nat

/-- `dhmp_addr_info`: a registered memory region `nvm_mr` and the server it is on. -/
structure AddrInfo where
  nodeIndex : Int
  nvmAddr : Int
  deriving DecidableEq, Repr

/-- The parts of `client` that concern addresses. -/
structure DhmpClient where
  addrInfoHt : Nat → List AddrInfoId
  addrInfo : AddrInfoId → AddrInfo

/-- `dhmp_addr_info_insert_ht` -/
def dhmpAddrInfoInsertHt (hash : Int → Nat) (client : DhmpClient) (dhmpAddr : Int)
    (addrInfo : AddrInfoId) : DhmpClient :=
  let index := dhmpHashInClient hash dhmpAddr
  { client with
    addrInfoHt := Function.update client.addrInfoHt index (addrInfo :: client.addrInfoHt index) }

/-- `dhmp_get_addr_info_from_ht`; `none` is `NULL`. -/
def dhmpGetAddrInfoFromHt (client : DhmpClient) (index : Nat) (dhmpAddr : Int) :
    Option AddrInfoId :=
  (client.addrInfoHt index).find? fun addrInfo =>
    (client.addrInfo addrInfo).nvmAddr = dhmpTransferNormalAddr dhmpAddr

/-- `dhmp_malloc_work_handler` once the server has answered with the region at `addr`: the new
state and the address that is handed out. -/
def dhmpMallocWorkHandler (hash : Int → Nat) (client : DhmpClient) (rdmaTrans : Nat)
    (addrInfo : AddrInfoId) (addr : Int) : DhmpClient × Int :=
  if addr = 0 then (client, 0)
  else
    let resAddr := dhmpTransferDhmpAddr rdmaTrans addr
    let client := { client with
      addrInfo := Function.update client.addrInfo addrInfo
        ⟨dhmpGetNodeIndexFromAddr resAddr, addr⟩ }
    (dhmpAddrInfoInsertHt hash client resAddr addrInfo, resAddr)

/-- A request for a memory region, on its way through a transport. -/
structure Access where
  rdmaTrans : Int
  region : AddrInfo
  deriving DecidableEq, Repr

/-- The request of `dhmp_read_work_handler`, `dhmp_write_work_handler` and `dhmp_send_work_handler`
and of `dhmp_free_work_handler`, sent through `dhmp_get_trans_from_addr`. -/
def dhmpAccess (hash : Int → Nat) (client : DhmpClient) (dhmpAddr : Int) : Option Access :=
  (dhmpGetAddrInfoFromHt client (dhmpHashInClient hash dhmpAddr) dhmpAddr).map fun addrInfo =>
    ⟨dhmpGetNodeIndexFromAddr dhmpAddr, client.addrInfo addrInfo⟩

/-- `dhmp_free_work_handler`: the `dhmp_addr_info` that is found leaves its chain. -/
def dhmpFreeWorkHandler (hash : Int → Nat) (client : DhmpClient) (dhmpAddr : Int) : DhmpClient :=
  let index := dhmpHashInClient hash dhmpAddr
  match dhmpGetAddrInfoFromHt client index dhmpAddr with
  | none => client
  | some addrInfo =>
    { client with
      addrInfoHt := Function.update client.addrInfoHt index
        ((client.addrInfoHt index).erase addrInfo) }

/-! ## Runs -/

/-- The client, and what was allocated at an address and not freed since. -/
structure AddrState where
  client : DhmpClient
  live : Int → Option AddrInfoId

/-- `dhmp_client_init`: no chain has an element. -/
def AddrState.start : AddrState := ⟨⟨fun _ => [], fun _ => ⟨0, 0⟩⟩, fun _ => none⟩

/-- The server `node` has answered with the region at `addr`. -/
def AddrState.reply (hash : Int → Nat) (s : AddrState) (node : Nat) (addrInfo : AddrInfoId)
    (addr : Int) : AddrState where
  client := (dhmpMallocWorkHandler hash s.client node addrInfo addr).1
  live := Function.update s.live (dhmpTransferDhmpAddr node addr) (some addrInfo)

inductive AddrOp where
  | malloc (node : Nat) (addr : Int)
  | free (dhmpAddr : Int)

/-- A server answers with a 48-bit address that it has not handed out before, unless it was freed.
`dhmp_free` has to find a transport for the server in the address. -/
inductive AddrStep (hash : Int → Nat) (s : AddrState) : AddrOp → AddrState → Prop
  | malloc {node : Nat} {addr : Int} {addrInfo : AddrInfoId} (server : node < dhmpServerNodeNum)
    (pointer : 0 < addr ∧ addr < 2 ^ 48) (fresh : ∀ index, addrInfo ∉ s.client.addrInfoHt index)
    (distinct : s.live (dhmpTransferDhmpAddr node addr) = none) :
    AddrStep hash s (.malloc node addr) (s.reply hash node addrInfo addr)
  | free {dhmpAddr : Int} (null : dhmpAddr ≠ 0)
    (trans : 0 ≤ dhmpGetNodeIndexFromAddr dhmpAddr ∧
      dhmpGetNodeIndexFromAddr dhmpAddr < dhmpServerNodeNum) :
    AddrStep hash s (.free dhmpAddr)
      { client := dhmpFreeWorkHandler hash s.client dhmpAddr
        live := Function.update s.live dhmpAddr none }

/-- The table finds what was allocated at the address and not freed, and requests for the address
go to the server of the region they name. -/
structure TableCorrect (hash : Int → Nat) (s : AddrState) (dhmpAddr : Int) : Prop where
  lookup : dhmpGetAddrInfoFromHt s.client (dhmpHashInClient hash dhmpAddr) dhmpAddr =
    s.live dhmpAddr
  region : ∀ access, dhmpAccess hash s.client dhmpAddr = some access →
    access.region = ⟨access.rdmaTrans, dhmpTransferNormalAddr dhmpAddr⟩

/-- No other live address has the bucket and the 48 bits of this one. -/
def NoClash (hash : Int → Nat) (s : AddrState) (dhmpAddr : Int) : Prop :=
  ¬ Clashes (dhmpHashInClient hash) dhmpTransferNormalAddr s.live dhmpAddr

/-- The address that is allocated or freed does not clash. -/
def AddrOp.Allowed (hash : Int → Nat) (s : AddrState) : AddrOp → Prop
  | .malloc node addr => NoClash hash s (dhmpTransferDhmpAddr node addr)
  | .free dhmpAddr => NoClash hash s dhmpAddr

/-! ## The invariant -/

/-- The chains hold what is live, with its region on the server in its address. -/
structure TableInv (hash : Int → Nat) (s : AddrState) : Prop where
  chained : Chained (dhmpHashInClient hash) dhmpTransferNormalAddr s.client.addrInfoHt
    (fun addrInfo => (s.client.addrInfo addrInfo).nvmAddr) s.live
  nodeIndex : ∀ d addrInfo, s.live d = some addrInfo →
    (s.client.addrInfo addrInfo).nodeIndex = dhmpGetNodeIndexFromAddr d

namespace TableInv

variable {hash : Int → Nat} {s t : AddrState} {op : AddrOp}

theorem start (hash : Int → Nat) : TableInv hash .start :=
  ⟨Chained.empty _ _ _, by simp [AddrState.start]⟩

theorem step (h : TableInv hash s) (ok : op.Allowed hash s) (hs : AddrStep hash s op t) :
    TableInv hash t := by
  cases hs with
  | @malloc node addr addrInfo server pointer fresh distinct =>
    obtain ⟨hpos, hlt⟩ := pointer
    have hout : ∀ d p, s.live d = some p → p ≠ addrInfo := by
      rintro d p hd rfl
      exact fresh _ ((h.chained.mem_iff _ p).mpr ⟨d, hd, rfl⟩)
    have hnull : addr ≠ 0 := by omega
    simp only [AddrState.reply, dhmpMallocWorkHandler, hnull, if_false, dhmpAddrInfoInsertHt]
    constructor
    · dsimp only
      apply Chained.insert _ fresh distinct _ ok
      · refine h.chained.congr fun d p hd => ?_
        simp [hout d p hd]
      · simp [dhmpTransferNormalAddr_transfer (Int.le_of_lt hpos) hlt]
    · intro d p hd
      by_cases heq : d = dhmpTransferDhmpAddr node addr
      · subst heq
        obtain rfl : addrInfo = p := by simpa using hd
        simp
      · have hd : s.live d = some p := by simpa [heq] using hd
        simpa [hout d p hd] using h.nodeIndex d p hd
  | @free d null trans =>
    have hfind := (h.chained.find_iff d).mpr ok
    have hget : dhmpGetAddrInfoFromHt s.client (dhmpHashInClient hash d) d = s.live d := hfind
    unfold dhmpFreeWorkHandler
    simp only [hget]
    cases hlive : s.live d with
    | none =>
      have hsame : Function.update s.live d none = s.live := by
        rw [← hlive, Function.update_eq_self]
      simp only [hsame]
      exact h
    | some addrInfo =>
      constructor
      · dsimp only
        exact h.chained.erase hlive
      · intro d' p hd'
        by_cases heq : d' = d
        · simp [heq] at hd'
        · exact h.nodeIndex d' p (by simpa [heq] using hd')

/-- A lookup is right exactly when the address does not clash. -/
theorem tableCorrect_iff (h : TableInv hash s) (d : Int) :
    TableCorrect hash s d ↔ NoClash hash s d := by
  constructor
  · exact fun correct => (h.chained.find_iff d).mp correct.lookup
  · intro clash
    have hget : dhmpGetAddrInfoFromHt s.client (dhmpHashInClient hash d) d = s.live d :=
      (h.chained.find_iff d).mpr clash
    refine ⟨hget, fun access haccess => ?_⟩
    rw [dhmpAccess, hget] at haccess
    obtain ⟨p, hp, rfl⟩ := Option.map_eq_some_iff.mp haccess
    have hnode := h.nodeIndex d p hp
    have haddr := h.chained.tag_eq d p hp
    simp [← hnode, ← haddr]

end TableInv

/-- In every run in which the addresses that are allocated and freed do not clash, the table is
right about an address exactly when that address does not clash. -/
theorem addr_table_run {hash : Int → Nat} {ops : List AddrOp} {s : AddrState}
    (run : Run (guarded (fun s op => op.Allowed hash s) (AddrStep hash)) .start ops s) (d : Int) :
    TableCorrect hash s d ↔ NoClash hash s d := by
  have hinv : TableInv hash s :=
    run.invariant (TableInv hash) (fun _ _ _ h hs => h.step hs.1 hs.2) (.start hash)
  exact hinv.tableCorrect_iff d

/-- A reply adds one element. -/
theorem mem_reply {hash : Int → Nat} {s : AddrState} {node : Nat} {addrInfo p : AddrInfoId}
    {addr : Int} {index : Nat}
    (hp : p ∈ (s.reply hash node addrInfo addr).client.addrInfoHt index) :
    p = addrInfo ∨ p ∈ s.client.addrInfoHt index := by
  unfold AddrState.reply dhmpMallocWorkHandler dhmpAddrInfoInsertHt at hp
  split at hp
  · exact .inr hp
  · dsimp only at hp
    rw [Function.update_apply] at hp
    grind

/-- Two servers answer with the same address. -/
def twoReplies (addr : Int) : AddrState :=
  (AddrState.start.reply hashAddr 0 0 addr).reply hashAddr 1 1 addr

theorem twoReplies_steps {addr : Int} (hpos : 0 < addr) (hlt : addr < 2 ^ 48) :
    AddrStep hashAddr .start (.malloc 0 addr) (AddrState.start.reply hashAddr 0 0 addr) ∧
      AddrStep hashAddr (AddrState.start.reply hashAddr 0 0 addr) (.malloc 1 addr)
        (twoReplies addr) := by
  have hne : dhmpTransferDhmpAddr 1 addr ≠ dhmpTransferDhmpAddr 0 addr := by
    rw [dhmpTransferDhmpAddr, if_neg Nat.one_ne_zero, dhmpTransferDhmpAddr, if_pos rfl]
    omega
  have hnew : ∀ index, 1 ∉ (AddrState.start.reply hashAddr 0 0 addr).client.addrInfoHt index := by
    intro index hmem
    rcases mem_reply hmem with heq | hstart
    · simp at heq
    · simp [AddrState.start] at hstart
  exact ⟨.malloc (by decide) ⟨hpos, hlt⟩ (by simp [AddrState.start]) rfl,
    .malloc (by decide) ⟨hpos, hlt⟩ hnew (Function.update_of_ne hne _ _)⟩

/-- Two buckets for one address on two servers. -/
theorem addr_table_run_two :
    Run (guarded (fun s op => op.Allowed hashAddr s) (AddrStep hashAddr)) .start
      [.malloc 0 4096, .malloc 1 4096] (twoReplies 4096) ∧
    TableCorrect hashAddr (twoReplies 4096) 4096 := by
  have hbucket : dhmpHashInClient hashAddr (dhmpTransferDhmpAddr 1 4096) ≠
      dhmpHashInClient hashAddr 4096 := by decide +kernel
  have first : NoClash hashAddr .start 4096 := by
    rintro ⟨d, hd, -⟩
    exact hd rfl
  have second : NoClash hashAddr (AddrState.start.reply hashAddr 0 0 4096)
      (dhmpTransferDhmpAddr 1 4096) := by
    rintro ⟨d, hd, -, heq, -⟩
    obtain rfl : d = 4096 := by
      by_contra hne
      exact hd (Function.update_of_ne hne _ _)
    exact hbucket heq.symm
  have lookup : NoClash hashAddr (twoReplies 4096) 4096 := by
    rintro ⟨d, hd, hne, heq, -⟩
    obtain rfl : d = dhmpTransferDhmpAddr 1 4096 := by
      by_contra hne'
      refine hd ((Function.update_of_ne hne' _ _).trans (Function.update_of_ne hne _ _))
    exact hbucket heq
  obtain ⟨step1, step2⟩ := twoReplies_steps (by decide : (0 : Int) < 4096) (by decide)
  have run : Run (guarded (fun s op => op.Allowed hashAddr s) (AddrStep hashAddr)) .start
      [.malloc 0 4096, .malloc 1 4096] (twoReplies 4096) :=
    .cons ⟨first, step1⟩ (.single ⟨second, step2⟩)
  exact ⟨run, (addr_table_run run 4096).mpr lookup⟩

/-- One bucket for one address on two servers: a request for the first server goes there with the
region of the second. -/
theorem not_tableCorrect_bucket :
    Run (AddrStep hashAddr) .start [.malloc 0 0x7f0071cec000, .malloc 1 0x7f0071cec000]
      (twoReplies 0x7f0071cec000) ∧
    dhmpAccess hashAddr (twoReplies 0x7f0071cec000).client 0x7f0071cec000 =
      some ⟨0, ⟨1, 0x7f0071cec000⟩⟩ ∧
    ¬ TableCorrect hashAddr (twoReplies 0x7f0071cec000) 0x7f0071cec000 := by
  obtain ⟨step1, step2⟩ :=
    twoReplies_steps (by decide : (0 : Int) < 0x7f0071cec000) (by decide)
  have haccess : dhmpAccess hashAddr (twoReplies 0x7f0071cec000).client 0x7f0071cec000 =
      some ⟨0, ⟨1, 0x7f0071cec000⟩⟩ := by decide +kernel
  refine ⟨.cons step1 (.single step2), haccess, fun correct => ?_⟩
  have hregion := correct.region _ haccess
  simp at hregion

end DhmpFs
