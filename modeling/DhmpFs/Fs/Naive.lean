import DhmpFs.Fs.Io

/-!
# The file system without an index

`fuse_back.c` keeps the chunks of a file in a linked list: a write walks to the chunk of its
offset, a read walks the list along. The list is a list here. The position of a chunk stands for
the pointer to it in the functions that change the list, the rest of the list in the others.

`none` is undefined behaviour. Left out: the names and the directories, since the path of a file
leads to the same inode in every call.

## Main definitions

* `dhmpFsWrite`, `dhmpFsRead`: the operations on the inode that `get_father_inode` finds.
-/

namespace DhmpFs.Naive

/-! ## The state -/

/-- `TOTOL_SIZE`, 10 GB. -/
abbrev totolSize : Nat := 1024 * 1024 * 1024 * 10
abbrev bankNum : Nat := totolSize / bankSize
abbrev chunkNum : Nat := totolSize / chunkSize

structure Context where
  chunkIndex : Nat
  size : Nat
  deriving DecidableEq, Repr

structure Inode where
  size : Nat
  isDirectories : Bool
  context : List Context

/-- The globals. Every bank is a block of memory, addressed by bank and offset. -/
structure State where
  inodes : InodeId → Inode
  bitmap : Nat → Bool
  bank : Nat → Nat → UInt8

/-- Write to fields of one inode. -/
def State.modify (n : State) (i : InodeId) (f : Inode → Inode) : State :=
  { n with inodes := Function.update n.inodes i (f (n.inodes i)) }

section modify

variable (n : State) (i : InodeId) (f : Inode → Inode)

@[simp] theorem State.modify_inodes_self : (n.modify i f).inodes i = f (n.inodes i) :=
  Function.update_self ..
@[simp] theorem State.modify_bitmap : (n.modify i f).bitmap = n.bitmap := rfl

end modify

/-- The loop of `getFreeChunk`, with `left` chunks still to visit. -/
def firstFree (bitmap : Nat → Bool) : Nat → Nat → Nat
  | 0, i => i
  | left + 1, i => if bitmap i then firstFree bitmap left (i + 1) else i

/-- `getFreeChunk`. When every chunk is taken it writes behind the bitmap. -/
def getFreeChunk (n : State) : Option (State × Nat) :=
  let i := firstFree n.bitmap chunkNum 0
  if i = chunkNum then none
  else some ({ n with bitmap := Function.update n.bitmap i true }, i)

/-- `dhmp_fs_write_to_bank`. -/
def writeToBank (n : State) (chunkIndex : Nat) (buf : List UInt8) (chunkOffset : Nat) : State :=
  let tbank := chunkIndex / (chunkNum / bankNum)
  let times := chunkIndex % (chunkNum / bankNum)
  let offset := chunkOffset + times * chunkSize
  { n with bank := fun b o =>
      if b = tbank ∧ offset ≤ o ∧ o < offset + buf.length then buf.getD (o - offset) 0
      else n.bank b o }

/-- `dhmp_fs_read_from_bank`. -/
def readFromBank (n : State) (chunkIndex size chunkOffset : Nat) : List UInt8 :=
  let tbank := chunkIndex / (chunkNum / bankNum)
  let times := chunkIndex % (chunkNum / bankNum)
  let offset := chunkOffset + times * chunkSize
  (List.range size).map fun k => n.bank tbank (offset + k)

/-! ## Writing -/

/-- A new chunk at the end of the list. -/
def append (n : State) (head : InodeId) : Option State :=
  (getFreeChunk n).map fun (n, i) =>
    n.modify head fun x => { x with context := x.context ++ [⟨i, 0⟩] }

/-- The updates of `head->size` and `cnt->size`. -/
def resize (n : State) (head : InodeId) (cnt : Nat) (x : Context) (newSize : Nat) : State :=
  n.modify head fun y =>
    { y with
      size := addU64 (subU64 y.size x.size) newSize
      context := y.context.set cnt { x with size := newSize } }

section resize

variable (n : State) (head : InodeId) (cnt : Nat) (x : Context) (newSize : Nat)

@[simp] theorem resize_inodes : (resize n head cnt x newSize).inodes head =
    { n.inodes head with
      size := addU64 (subU64 (n.inodes head).size x.size) newSize
      context := (n.inodes head).context.set cnt { x with size := newSize } } :=
  State.modify_inodes_self ..
@[simp] theorem resize_bitmap : (resize n head cnt x newSize).bitmap = n.bitmap := rfl

@[simp] theorem writeToBank_inodes (c : Nat) (buf : List UInt8) (offset : Nat) :
    (writeToBank n c buf offset).inodes = n.inodes := rfl
@[simp] theorem writeToBank_bitmap (c : Nat) (buf : List UInt8) (offset : Nat) :
    (writeToBank n c buf offset).bitmap = n.bitmap := rfl

end resize

/-- The first loop of `dhmp_fs_write`. The position is `none` where the call returns 0. -/
def skipWrite (n : State) (head : InodeId) (writeOffset : Nat) :
    Nat → Nat → Option (State × Option Nat)
  | 0, cnt => some (n, some cnt)
  | i + 1, cnt =>
    match (n.inodes head).context[cnt]? with
    | none => some (n, none)
    | some x =>
      if x.size ≠ chunkSize then some (n, none)
      -- at the end of the list, and the write starts a chunk
      else if i = 0 ∧ writeOffset = 0 ∧ (n.inodes head).context[cnt + 1]? = none then
        (append n head).map fun n => (n, some (cnt + 1))
      else skipWrite n head writeOffset i (cnt + 1)

/-- The second loop of `dhmp_fs_write`; `rest` is the part of the buffer not written yet. -/
def writeLoop : Nat → State → InodeId → List UInt8 → Nat → Nat → Option State
  | 0, n, _, _, _, _ => some n
  | rounds + 1, n, head, rest, cnt, writeOffset =>
    if rest = [] then some n
    else
      match (n.inodes head).context[cnt]? with
      -- `cnt->chunk_index` of a `NULL` context
      | none => none
      | some x =>
        if subU64 chunkSize writeOffset ≤ rest.length then
          -- fill the chunk
          let now := subU64 chunkSize writeOffset
          let n := writeToBank n x.chunkIndex (rest.take now) writeOffset
          let n := resize n head cnt x chunkSize
          if (n.inodes head).context[cnt + 1]? = none ∧ rest.drop now ≠ [] then
            (append n head).bind fun n => writeLoop rounds n head (rest.drop now) (cnt + 1) 0
          else writeLoop rounds n head (rest.drop now) (cnt + 1) 0
        else
          let n := writeToBank n x.chunkIndex rest writeOffset
          if x.size ≠ chunkSize then some (resize n head cnt x (rest.length + writeOffset))
          else some n

/-- The first chunk of a file that has none. -/
def firstChunk (n : State) (head : InodeId) : Option State :=
  if (n.inodes head).context = [] then append n head else some n

/-- `dhmp_fs_write`. The number of chunks to skip is an `int`. -/
def dhmpFsWrite (n : State) (head : Option InodeId) (buf : List UInt8) (offset : Nat) :
    Option (State × Int) :=
  match head with
  | none => some (n, -1)
  | some head =>
    if (n.inodes head).isDirectories then some (n, -1)
    else do
      let n ← firstChunk n head
      let i := (toInt (offset / chunkSize)).toNat
      let (n, cnt) ← skipWrite n head (offset % chunkSize) i 0
      match cnt with
      | none => some (n, 0)
      | some cnt =>
        let n ← writeLoop buf.length n head buf cnt (offset % chunkSize)
        some (n, toInt buf.length)

/-! ## Reading -/

/-- The first loop of `dhmp_fs_read`; `none` where the call returns 0. -/
def skipRead : List Context → Nat → Option (List Context)
  | cnt, 0 => some cnt
  | [], _ + 1 => none
  | x :: rest, i + 1 => if x.size = chunkSize then skipRead rest i else none

/-- The second loop of `dhmp_fs_read`: the bytes it places in `bbuf`. -/
def readLoop (n : State) : List Context → Nat → Nat → List UInt8
  | [], _, _ => []
  | x :: rest, readOffset, unRead =>
    if unRead = 0 then []
    else
      let now := subU64 x.size readOffset
      if now ≤ unRead then
        readFromBank n x.chunkIndex now readOffset ++ readLoop n rest 0 (unRead - now)
      else readFromBank n x.chunkIndex unRead readOffset

/-- `dhmp_fs_read`: the bytes placed in the buffer and the result. The bytes get a terminator in
`bbuf`, a block of `malloc(size)`; `mallocSize size` bytes of it can be written. -/
def dhmpFsRead (mallocSize : Nat → Nat) (n : State) (head : Option InodeId) (size offset : Nat) :
    Option (List UInt8 × Int) :=
  match head with
  | none => some ([], -1)
  | some head =>
    if (n.inodes head).isDirectories then some ([], -1)
    else if (n.inodes head).context = [] then some ([], 0)
    else
      let i := (toInt (offset / chunkSize)).toNat
      match skipRead (n.inodes head).context i with
      | none => some ([], 0)
      | some cnt =>
        let bytes := readLoop n cnt (offset % chunkSize) size
        -- `bbuf[read_size] = 0`
        if bytes.length < mallocSize size then some (bytes, toInt bytes.length) else none

end DhmpFs.Naive
