import DhmpFs.Fs.Basic

/-!
# Allocation of inodes and chunks, and the four-level index

`none` is undefined behaviour: a `NULL` pointer is dereferenced. The `NULL` a function may
return is an `Option` inside the result.
-/

namespace DhmpFs

/-! ## Chunks -/

/-- The scan of `getFreeChunk`, with `left` chunks still to visit. The cursor wraps with a
bit mask. -/
def scanBitmap (chunkNum : Nat) (bitmap : Chunk → Bool) : Nat → Nat → Nat × Bool
  | 0, i => (i, false)
  | left + 1, i =>
    if bitmap i then scanBitmap chunkNum bitmap left ((i + 1) &&& (chunkNum - 1)) else (i, true)

/-- `getFreeChunk` for a pool of `chunkNum` chunks. The static cursor stays where the scan
stopped; the result is `none` for the `-1` of a full pool. -/
def getFreeChunk (chunkNum : Nat) (s : Fs) : Fs × Option Chunk :=
  match scanBitmap chunkNum s.bitmap chunkNum s.cursor with
  | (i, false) => ({ s with cursor := i }, none)
  | (i, true) => ({ s with cursor := i, bitmap := Function.update s.bitmap i true }, some i)

/-- `get_free_context` returns `context_addr[i]`, or `NULL`. -/
def getFreeContext (s : Fs) : Fs × Option Chunk := getFreeChunk chunkNum s

/-! ## The index -/

/-- Store a new context in an index slot and link it into the context list of the inode. -/
def linkContext (s : Fs) (head : InodeId) (slot : Slot) (c : Chunk) : Fs :=
  (s.modify head fun n => { n with cntId := n.cntId.set slot (some c), context := c :: n.context })
    |>.modifyContext c fun x => { x with whichInodeItIs := some (head, slot) }

/-- The part the four branches of `level3_local_index` share: return the context in a slot and
allocate one first if the slot is empty. A failed allocation is dereferenced at once. -/
def slotContext (s : Fs) (head : InodeId) (slot : Slot) (onlyRead : Bool) :
    Option (Fs × Option Chunk) :=
  match (s.inodes head).cntId.get slot with
  | some c => some (s, some c)
  | none =>
    if onlyRead then some (s, none)
    else
      match getFreeContext s with
      | (_, none) => none
      | (s, some c) => some (linkContext s head slot c, some c)

/-- Make sure an indirect block exists, or give up with `missing` when only reading. -/
def withBlock {α : Type} (s : Fs) (head : InodeId) (onlyRead exist : Bool) (init : Inode → Inode)
    (missing : α) (body : Fs → Option α) : Option α :=
  if exist then body s
  else if onlyRead then some missing
  else body (s.modify head init)

/-- `level3_local_index`: the context of the chunk that holds a file offset, and the offset
within the chunk that it leaves in `*offset`. A read that finds no indirect block returns before
the offset is touched. -/
def level3LocalIndex (s : Fs) (offset : Nat) (head : InodeId) (onlyRead : Bool) :
    Option (Fs × Nat × Option Chunk) :=
  let index := (s.inodes head).cntId
  if offset < sizeDirectEnd then
    let in0 := offset / sizeDirectUnit
    let offset := offset % sizeDirectUnit
    (slotContext s head (.direct in0) onlyRead).map fun (s, cnt) => (s, offset, cnt)
  else if offset < sizeFirstDirectEnd then
    withBlock s head onlyRead index.in1addr.isSome
      (fun n => { n with cntId := { n.cntId with in1addr := some fun _ => none } })
      (s, offset, none) fun s =>
        let offset := offset - sizeDirectEnd
        let in1 := offset / sizeFirstDirectUnit
        let offset := offset % sizeFirstDirectUnit
        (slotContext s head (.single in1) onlyRead).map fun (s, cnt) => (s, offset, cnt)
  else if offset < sizeSecondDirectEnd then
    withBlock s head onlyRead index.in2addr.isSome
      (fun n => { n with cntId := { n.cntId with in2addr := some fun _ _ => none } })
      (s, offset, none) fun s =>
        let offset := offset - sizeFirstDirectEnd
        let in2 := offset / sizeSecondDirectUnit
        let offset := offset % sizeSecondDirectUnit
        let in1 := offset / sizeFirstDirectUnit
        let offset := offset % sizeFirstDirectUnit
        (slotContext s head (.double in2 in1) onlyRead).map fun (s, cnt) => (s, offset, cnt)
  else if offset < sizeThirdDirectEnd then
    withBlock s head onlyRead index.in3addr.isSome
      (fun n => { n with cntId := { n.cntId with in3addr := some fun _ _ _ => none } })
      (s, offset, none) fun s =>
        let offset := offset - sizeSecondDirectEnd
        let in3 := offset / sizeThirdDirectUnit
        let offset := offset % sizeThirdDirectUnit
        let in2 := offset / sizeSecondDirectUnit
        let offset := offset % sizeSecondDirectUnit
        let in1 := offset / sizeFirstDirectUnit
        let offset := offset % sizeFirstDirectUnit
        (slotContext s head (.triple in3 in2 in1) onlyRead).map fun (s, cnt) => (s, offset, cnt)
  else
    -- past the largest file: nothing is looked up and the result is `NULL`
    some (s, offset, none)

/-! ## Inodes -/

/-- `get_free_inode`: the first inode on the slab, or a new one. -/
def getFreeInode (s : Fs) : Fs × InodeId :=
  match s.freeInodeSlab with
  | i :: rest => ({ s with freeInodeSlab := rest }, i)
  | [] =>
    let i := s.mallocTimes + 1
    ({ s with mallocTimes := i, inodes := Function.update s.inodes i .fresh }, i)

/-- Give one chunk back: the index slot that points to it is cleared through the pointer kept
in the context. -/
def releaseContext (s : Fs) (c : Chunk) : Option Fs :=
  match (s.contextAddr c).whichInodeItIs with
  | none => none
  | some (i, slot) =>
    let s := s.modify i fun n => { n with cntId := n.cntId.set slot none }
    let s := s.modifyContext c fun _ => { size := 0, whichInodeItIs := none }
    some { s with bitmap := Function.update s.bitmap c false }

/-- `reset_indoe`: wipe an inode, release its chunks and put it at the end of the slab. The
counter `son_nums` is not reset. -/
def resetIndoe (s : Fs) (now : InodeId) : Option Fs :=
  let n := s.inodes now
  -- `d_hash->clear` on the map of a directory
  if n.isDirectories ∧ n.dHash = none then none
  else
    let s := s.modify now fun n =>
      { n with
        dHash := if n.isDirectories then none else n.dHash
        isDirectories := false
        son := none
        bro := none
        size := 0
        context := [] }
    match n.context.foldlM releaseContext s with
    | none => none
    | some s =>
      let s := s.modify now fun n => { n with filename := [] }
      some { s with freeInodeSlab := s.freeInodeSlab ++ [now] }

end DhmpFs
