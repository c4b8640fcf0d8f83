import DhmpFs.HashMap.Basic

/-!
# The state of the file system

Inodes, chunk contexts and the chunk bitmap as `dhmp_fs.h` declares them. Pointers are
`Option`s of addresses and `none` is `NULL`. The doubly linked slab list and the singly linked
context list of an inode are lists; the son/bro chain of a directory stays a chain of pointers.

Left out: `space` and the indirect blocks' `level`, which nothing reads, the time stamps, and
the mutexes, which no single-threaded run can observe.
-/

namespace DhmpFs

/-! ## Sizes -/

/-- `TOTOL_SIZE`, 8 GB. -/
abbrev totolSize : Nat := 1024 * 1024 * 1024 * 8
abbrev bankSize : Nat := 1024 * 1024 * 4
abbrev bankNum : Nat := totolSize / bankSize
abbrev chunkSize : Nat := 1024 * 4
abbrev chunkNum : Nat := totolSize / chunkSize
abbrev fileNameLen : Nat := 512
abbrev indirectIndexNums : Nat := 256
abbrev directIndexNums : Nat := 100
abbrev slabNums : Nat := 1000

/-- `'/'`. -/
abbrev slash : UInt8 := 47

abbrev sizeDirectUnit : Nat := chunkSize
abbrev sizeFirstDirectUnit : Nat := chunkSize
abbrev sizeSecondDirectUnit : Nat := chunkSize * indirectIndexNums
abbrev sizeThirdDirectUnit : Nat := chunkSize * indirectIndexNums * indirectIndexNums

abbrev sizeDirectEnd : Nat := directIndexNums * chunkSize
abbrev sizeFirstDirectEnd : Nat := sizeDirectEnd + indirectIndexNums * chunkSize
abbrev sizeSecondDirectEnd : Nat :=
  sizeFirstDirectEnd + indirectIndexNums * indirectIndexNums * chunkSize
abbrev sizeThirdDirectEnd : Nat :=
  sizeSecondDirectEnd + indirectIndexNums * indirectIndexNums * indirectIndexNums * chunkSize

theorem chunkSize_pos : 0 < chunkSize := by decide

/-! ## 64-bit arithmetic

`size_t` and `off_t` operands are compared and subtracted as unsigned 64-bit values. -/

def addU64 (a b : Nat) : Nat := (a + b) % 2 ^ 64

def subU64 (a b : Nat) : Nat := (a + (2 ^ 64 - b % 2 ^ 64)) % 2 ^ 64

/-- The conversion of a `size_t` to the `int` a FUSE operation returns. -/
def toInt (n : Nat) : Int := Int.bmod n (2 ^ 32)

theorem subU64_eq {a b : Nat} (ha : a < 2 ^ 64) (h : b ≤ a) : subU64 a b = a - b := by
  unfold subU64
  omega

theorem addU64_eq {a b : Nat} (h : a + b < 2 ^ 64) : addU64 a b = a + b :=
  Nat.mod_eq_of_lt h

theorem toInt_eq {n : Nat} (h : n < 2 ^ 31) : toInt n = n := by
  unfold toInt
  exact Int.bmod_eq_of_le (by omega) (by omega)

/-! ## Inodes and contexts -/

/-- The address of an inode. -/
abbrev InodeId := Nat

/-- A chunk and its context `context_addr[chunk_index]`. -/
abbrev Chunk := Nat

/-- The place of a context pointer in the index of an inode. -/
inductive Slot where
  | direct (in0 : Nat)
  | single (in1 : Nat)
  | double (in2 in1 : Nat)
  | triple (in3 in2 in1 : Nat)
  deriving DecidableEq, Repr

/-- `file_context_index`: a direct array and three optional indirect blocks. -/
structure FileIndex where
  addr : Nat → Option Chunk
  in1addr : Option (Nat → Option Chunk)
  in2addr : Option (Nat → Nat → Option Chunk)
  in3addr : Option (Nat → Nat → Nat → Option Chunk)

namespace FileIndex

/-- The context pointer in a slot; a block that does not exist holds none. -/
def get (f : FileIndex) : Slot → Option Chunk
  | .direct in0 => f.addr in0
  | .single in1 => f.in1addr.bind (· in1)
  | .double in2 in1 => f.in2addr.bind (· in2 in1)
  | .triple in3 in2 in1 => f.in3addr.bind (· in3 in2 in1)

/-- The block a slot lies in exists. -/
def HasBlock (f : FileIndex) : Slot → Prop
  | .direct _ => True
  | .single _ => f.in1addr.isSome
  | .double _ _ => f.in2addr.isSome
  | .triple _ _ _ => f.in3addr.isSome

def set (f : FileIndex) (slot : Slot) (c : Option Chunk) : FileIndex :=
  match slot with
  | .direct in0 => { f with addr := Function.update f.addr in0 c }
  | .single in1 => { f with in1addr := f.in1addr.map (Function.update · in1 c) }
  | .double in2 in1 =>
    { f with in2addr := f.in2addr.map fun b =>
        Function.update b in2 (Function.update (b in2) in1 c) }
  | .triple in3 in2 in1 =>
    { f with in3addr := f.in3addr.map fun b =>
        Function.update b in3 (Function.update (b in3) in2 (Function.update (b in3 in2) in1 c)) }

/-- `malloc_inode` allocates the first two indirect blocks and leaves the third out. -/
def initial : FileIndex := ⟨fun _ => none, some fun _ => none, some fun _ _ => none, none⟩

@[simp] theorem get_initial (slot : Slot) : initial.get slot = none := by
  cases slot <;> rfl

theorem hasBlock_of_get {f : FileIndex} {slot : Slot} {c : Chunk} (h : f.get slot = some c) :
    f.HasBlock slot := by
  cases slot with
  | direct => trivial
  | single in1 => cases hb : f.in1addr <;> simp_all [get, HasBlock]
  | double in2 in1 => cases hb : f.in2addr <;> simp_all [get, HasBlock]
  | triple in3 in2 in1 => cases hb : f.in3addr <;> simp_all [get, HasBlock]

theorem get_set {f : FileIndex} {slot : Slot} (h : f.HasBlock slot) (c : Option Chunk)
    (slot' : Slot) : (f.set slot c).get slot' = if slot' = slot then c else f.get slot' := by
  cases slot with
  | direct i => cases slot' <;> simp [get, set, Function.update_apply]
  | single i =>
    obtain ⟨b, hb⟩ := Option.isSome_iff_exists.mp h
    cases slot' <;> simp [get, set, hb, Function.update_apply]
  | double i j =>
    obtain ⟨b, hb⟩ := Option.isSome_iff_exists.mp h
    cases slot' with
    | double i' j' => by_cases hi : i' = i <;> simp [get, set, hb, Function.update_apply, hi]
    | _ => simp [get, set]
  | triple i j k =>
    obtain ⟨b, hb⟩ := Option.isSome_iff_exists.mp h
    cases slot' with
    | triple i' j' k' =>
      by_cases hi : i' = i <;> by_cases hj : j' = j <;>
        simp [get, set, hb, Function.update_apply, hi, hj]
    | _ => simp [get, set]

end FileIndex

structure Inode where
  filename : Str
  size : Nat
  isDirectories : Bool
  sonNums : Int
  cntId : FileIndex
  dHash : Option (HashMap InodeId InodeId)
  context : List Chunk
  son : Option InodeId
  bro : Option InodeId

/-- `malloc_inode`: a fresh regular inode. Its `d_hash` is not initialised. -/
def Inode.fresh : Inode where
  filename := []
  size := 0
  isDirectories := false
  sonNums := 0
  cntId := .initial
  dHash := none
  context := []
  son := none
  bro := none

structure Context where
  size : Nat
  whichInodeItIs : Option (InodeId × Slot)
  deriving DecidableEq, Repr

/-- The globals of the file system. `bank` is the byte store behind
`dhmp_fs_read_from_cache` and `dhmp_fs_write_to_cache`, a flat memory addressed by bank and
offset. -/
structure Fs where
  inodes : InodeId → Inode
  mallocTimes : Nat
  freeInodeSlab : List InodeId
  bitmap : Chunk → Bool
  cursor : Nat
  contextAddr : Chunk → Context
  bank : Nat → Nat → UInt8

/-- The address of `root`; `malloc_inode` hands out the addresses after it. -/
abbrev rootId : InodeId := 0

namespace Fs

/-- Write to fields of one inode. -/
def modify (s : Fs) (i : InodeId) (f : Inode → Inode) : Fs :=
  { s with inodes := Function.update s.inodes i (f (s.inodes i)) }

/-- Write to fields of one context. -/
def modifyContext (s : Fs) (c : Chunk) (f : Context → Context) : Fs :=
  { s with contextAddr := Function.update s.contextAddr c (f (s.contextAddr c)) }

/-- The strings that the hash maps' keys, pointers to `filename` buffers, point to. -/
def names (s : Fs) (i : InodeId) : Str := (s.inodes i).filename

/-- `dhmp_fs_write_to_cache` on the flat store. -/
def writeToCache (s : Fs) (bankId : Nat) (buf : List UInt8) (offset : Nat) : Fs :=
  { s with bank := fun b o =>
      if b = bankId ∧ offset ≤ o ∧ o < offset + buf.length then buf.getD (o - offset) 0
      else s.bank b o }

/-- `dhmp_fs_read_from_cache` on the flat store. -/
def readFromCache (s : Fs) (bankId size offset : Nat) : List UInt8 :=
  (List.range size).map fun k => s.bank bankId (offset + k)

section modify

variable (s : Fs) (i j : InodeId) (f : Inode → Inode) (c : Chunk) (g : Context → Context)

theorem modify_inodes : (s.modify i f).inodes = Function.update s.inodes i (f (s.inodes i)) := rfl
@[simp] theorem modify_inodes_self : (s.modify i f).inodes i = f (s.inodes i) := by simp [modify]
theorem modify_inodes_ne {i j : InodeId} (h : j ≠ i) (f : Inode → Inode) :
    (s.modify i f).inodes j = s.inodes j := by simp [modify, h]
@[simp] theorem modify_mallocTimes : (s.modify i f).mallocTimes = s.mallocTimes := rfl
@[simp] theorem modify_freeInodeSlab : (s.modify i f).freeInodeSlab = s.freeInodeSlab := rfl
@[simp] theorem modify_bitmap : (s.modify i f).bitmap = s.bitmap := rfl
@[simp] theorem modify_cursor : (s.modify i f).cursor = s.cursor := rfl
@[simp] theorem modify_contextAddr : (s.modify i f).contextAddr = s.contextAddr := rfl
@[simp] theorem modify_bank : (s.modify i f).bank = s.bank := rfl

@[simp] theorem modifyContext_inodes : (s.modifyContext c g).inodes = s.inodes := rfl
@[simp] theorem modifyContext_bitmap : (s.modifyContext c g).bitmap = s.bitmap := rfl
@[simp] theorem modifyContext_cursor : (s.modifyContext c g).cursor = s.cursor := rfl
@[simp] theorem modifyContext_bank : (s.modifyContext c g).bank = s.bank := rfl
theorem modifyContext_contextAddr : (s.modifyContext c g).contextAddr =
    Function.update s.contextAddr c (g (s.contextAddr c)) := rfl

@[simp] theorem writeToCache_inodes (b : Nat) (buf : List UInt8) (o : Nat) :
    (s.writeToCache b buf o).inodes = s.inodes := rfl
@[simp] theorem writeToCache_contextAddr (b : Nat) (buf : List UInt8) (o : Nat) :
    (s.writeToCache b buf o).contextAddr = s.contextAddr := rfl
@[simp] theorem writeToCache_bitmap (b : Nat) (buf : List UInt8) (o : Nat) :
    (s.writeToCache b buf o).bitmap = s.bitmap := rfl

end modify

end Fs

/-- `dhmp_init`: a root directory, a slab of fresh inodes and every chunk free. The banks hold
whatever the servers handed out. -/
def dhmpInit (bank : Nat → Nat → UInt8) : Fs where
  inodes i :=
    if i = rootId then
      { Inode.fresh with filename := [slash], isDirectories := true,
                         dHash := some createHashMap }
    else .fresh
  mallocTimes := slabNums
  freeInodeSlab := List.range' 1 slabNums
  bitmap _ := false
  cursor := 0
  contextAddr _ := ⟨0, none⟩
  bank := bank

end DhmpFs
