import Mathlib.Logic.Function.Basic
import Mathlib.Tactic.Common

/-!
# The server's memory areas

The server hands out memory by registered areas. An area of `SINGLE_AREA_SIZE` bytes can be cut
into buddy blocks of `MAX_ORDER` orders; every order keeps its free blocks in a list. Lists are
lists of blocks, an address is a `Nat`, and an area is named by the address of its structure.

Left out: the memory counters of the watcher, and the bytes that a reply writes into the memory
it hands out.
-/

namespace DhmpFs

/-! ## Areas -/

abbrev maxOrder : Nat := 5
abbrev singleAreaSize : Nat := 2097152

def buddyNum : List Nat := [2, 1, 1, 1, 1]

/-- `buddy_size[i]`. -/
def buddySize (i : Nat) : Nat := [65536, 131072, 262144, 524288, 1048576].getD i 0

/-- The fields of a memory registration that the server reads. -/
structure IbvMr where
  addr : Nat
  length : Nat
  lkey : Nat
  deriving DecidableEq, Repr

structure FreeBlock where
  addr : Nat
  size : Nat
  mr : IbvMr
  deriving DecidableEq, Repr

structure Area where
  maxIndex : Int
  mr : IbvMr
  blockHead : Nat → List FreeBlock
  nrFree : Nat → Int

/-- The free list of one order is replaced. -/
def Area.setHead (area : Area) (i : Nat) (list : List FreeBlock) : Area :=
  { area with blockHead := Function.update area.blockHead i list }

/-- `block_head[i].nr_free += n`. -/
def Area.addFree (area : Area) (i : Nat) (n : Int) : Area :=
  { area with nrFree := Function.update area.nrFree i (area.nrFree i + n) }

/-- The orders `i`, `i + 1`, … of `dhmp_buddy_system_build`: `buddy_num` blocks of each. -/
def buildOrders (mr : IbvMr) (head : Nat → List FreeBlock) :
    List Nat → Nat → Nat → Nat → Nat → List FreeBlock
  | [], _, _, _ => head
  | num :: nums, i, size, total =>
    let blocks := (List.range num).map fun j => ⟨mr.addr + (total + j * size), size, mr⟩
    buildOrders mr (Function.update head i blocks) nums (i + 1) (size * 2) (total + num * size)

def dhmpBuddySystemBuild (area : Area) : Area :=
  { area with
    blockHead := buildOrders area.mr area.blockHead buddyNum 0 (buddySize 0) 0
    nrFree := fun i => (buddyNum[i]?.map Int.ofNat).getD (area.nrFree i) }

/-! ## Taking a block -/

/-- The first order from `index` on with a free block; `MAX_ORDER` if there is none. -/
def firstOrder (area : Area) (index : Nat) : Nat :=
  ((List.range' index (maxOrder - index)).find? fun i => !(area.blockHead i).isEmpty).getD maxOrder

/-- The last order below `i` with a free block; `-1` if there is none. -/
def lastOrder (area : Area) : Nat → Int
  | 0 => -1
  | i + 1 => if (area.blockHead i).isEmpty then lastOrder area i else i

/-- `dhmp_get_free_block`: larger blocks are halved until one of the order is free. The first
argument bounds the retries. -/
def dhmpGetFreeBlock : Nat → Area → Nat → Option (Area × Option FreeBlock)
  | 0, _, _ => none
  | rounds + 1, area, index =>
    let i := firstOrder area index
    if i = maxOrder then some (area, none)
    else
      match area.blockHead i with
      | [] => none
      | blk :: rest =>
        let area := area.setHead i rest
        if i ≠ index then
          let left := { blk with size := blk.size / 2 }
          let right : FreeBlock := ⟨left.addr + left.size, left.size, left.mr⟩
          let area := area.setHead (i - 1) (left :: right :: area.blockHead (i - 1))
          let area := (area.addFree i (-1)).addFree (i - 1) 2
          dhmpGetFreeBlock rounds area index
        else
          let area := area.addFree i (-1)
          some ({ area with maxIndex := lastOrder area (area.maxIndex + 1).toNat }, some blk)

/-! ## Returning a block -/

/-- A block is put before the first block with a larger address. -/
def insertBlock (new : FreeBlock) : List FreeBlock → List FreeBlock
  | [] => [new]
  | large :: list => if new.addr < large.addr then new :: large :: list
    else large :: insertBlock new list

/-- `dhmp_recycle_free_block`: the area, the address `*addr_ptr`, and whether the block was
merged with its buddy. -/
def dhmpRecycleFreeBlock (area : Area) (addr index : Nat) : Area × Nat × Bool :=
  let freeList := area.blockHead index
  let new : FreeBlock := ⟨addr, buddySize index, area.mr⟩
  if freeList.isEmpty then (area.setHead index [new], addr, false)
  else if index = maxOrder - 1 then
    (area.setHead index (insertBlock new freeList), addr, false)
  else
    let leftDir : Bool := (addr - area.mr.addr) % buddySize (index + 1) = 0
    let isBuddy (tmp : FreeBlock) : Bool :=
      (leftDir && addr + buddySize index = tmp.addr) ||
        (!leftDir && tmp.addr + buddySize index = addr)
    match freeList.find? isBuddy with
    | some tmp => (area.setHead index (freeList.eraseP isBuddy), min addr tmp.addr, true)
    | none => (area.setHead index (insertBlock new freeList), addr, false)

/-- The retries of `dhmp_free_one_block`. -/
def recycleLoop : Nat → Area → Nat → Nat → Option Area
  | 0, _, _, _ => none
  | rounds + 1, area, addr, index =>
    match dhmpRecycleFreeBlock area addr index with
    | (area, addr, res) =>
      if res ∧ index ≠ maxOrder - 1 then recycleLoop rounds area addr (index + 1) else some area

/-- The end of `dhmp_free_one_block`, in the area of the block. -/
def freeInArea (area : Area) (mr : IbvMr) : Option Area := do
  let index ← (List.range maxOrder).find? fun i => mr.length = buddySize i
  let area ← recycleLoop maxOrder area mr.addr index
  let i := lastOrder area maxOrder
  return if i < 0 then area else { area with maxIndex := i }

/-! ## The server -/

/-- The address of a `struct dhmp_area`. -/
abbrev AreaId := Nat

structure Server where
  areas : AreaId → Area
  areaList : List AreaId
  moreAreaList : List AreaId
  curArea : AreaId

def Server.setArea (s : Server) (id : AreaId) (area : Area) : Server :=
  { s with areas := Function.update s.areas id area }

/-- What the NUMA allocator and the device hand out for a new area: the structure, the memory
and the key of the registration. -/
structure Registration where
  area : AreaId
  addr : Nat
  lkey : Nat

def dhmpAreaCreate (s : Server) (reg : Registration) (hasBuddySys : Bool) (length : Nat) :
    Server :=
  let area : Area :=
    { s.areas reg.area with maxIndex := maxOrder - 1, mr := ⟨reg.addr, length, reg.lkey⟩ }
  if hasBuddySys then
    let s := s.setArea reg.area (dhmpBuddySystemBuild area)
    { s with areaList := reg.area :: s.areaList }
  else
    let s := s.setArea reg.area { area with maxIndex := -2 }
    { s with moreAreaList := reg.area :: s.moreAreaList }

/-- `dhmp_malloc_one_block`; the reply holds the registration with the address and the size of
the block. -/
def dhmpMallocOneBlock (s : Server) (reg : Registration) (reqSize : Nat) :
    Option (Server × Option IbvMr) := do
  let index := ((List.range maxOrder).find? fun i => reqSize ≤ buddySize i).getD maxOrder
  let s :=
    if index ≤ (s.areas s.curArea).maxIndex then s
    else match s.areaList.find? fun id => index ≤ (s.areas id).maxIndex with
      | some id => { s with curArea := id }
      | none => { dhmpAreaCreate s reg true singleAreaSize with curArea := reg.area }
  let (area, blk) ← dhmpGetFreeBlock maxOrder (s.areas s.curArea) index
  return (s.setArea s.curArea area,
    blk.map fun blk => { blk.mr with addr := blk.addr, length := blk.size })

def dhmpMallocMoreArea (s : Server) (reg : Registration) (length : Nat) :
    Server × Option IbvMr :=
  (dhmpAreaCreate s reg false length, some ⟨reg.addr, length, reg.lkey⟩)

/-- `dhmp_malloc_request_handler`; a reply without a registration is an error message. -/
def dhmpMallocRequestHandler (s : Server) (reg : Registration) (reqSize : Nat) :
    Option (Server × Option IbvMr) :=
  if reqSize ≤ buddySize (maxOrder - 1) then dhmpMallocOneBlock s reg reqSize
  else if reqSize ≤ singleAreaSize then some (dhmpMallocMoreArea s reg singleAreaSize)
  else some (dhmpMallocMoreArea s reg reqSize)

/-- The area of a list that a registration belongs to. -/
def Server.findArea (s : Server) (list : List AreaId) (mr : IbvMr) : Option AreaId :=
  list.find? fun id => mr.lkey = (s.areas id).mr.lkey

def dhmpFreeOneBlock (s : Server) (mr : IbvMr) : Option Server :=
  match s.findArea s.areaList mr with
  | none => some s
  | some id => (freeInArea (s.areas id) mr).map (s.setArea id)

/-- `dhmp_free_one_area`: the area becomes a buddy area. The guard compares with the head of
another list, so an area that is not found is used all the same. -/
def dhmpFreeOneArea (s : Server) (mr : IbvMr) : Option Server := do
  let id ← s.findArea s.moreAreaList mr
  let s := s.setArea id { dhmpBuddySystemBuild (s.areas id) with maxIndex := maxOrder - 1 }
  return { s with areaList := id :: s.areaList, moreAreaList := s.moreAreaList.erase id }

/-- `dhmp_free_more_area`, with the same guard: the area is given back. -/
def dhmpFreeMoreArea (s : Server) (mr : IbvMr) : Option Server := do
  let id ← s.findArea s.moreAreaList mr
  return { s with moreAreaList := s.moreAreaList.erase id }

def dhmpFreeRequestHandler (s : Server) (mr : IbvMr) : Option Server :=
  if mr.length ≤ buddySize (maxOrder - 1) then dhmpFreeOneBlock s mr
  else if mr.length ≤ singleAreaSize then dhmpFreeOneArea s mr
  else dhmpFreeMoreArea s mr

/-- `dhmp_server_init` creates one area. -/
def dhmpServerInit (areas : AreaId → Area) (reg : Registration) : Server :=
  { dhmpAreaCreate ⟨areas, [], [], reg.area⟩ reg true singleAreaSize with curArea := reg.area }

end DhmpFs
