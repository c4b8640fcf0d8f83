import Mathlib.Algebra.Group.Int.Defs
import Mathlib.Algebra.GroupWithZero.Nat
import Mathlib.Logic.Function.Basic
import Mathlib.Tactic.Common

/-!
# The chained hash map of the directories

A bucket stores its first entry inline and chains the others. Keys are pointers to
NUL-terminated strings owned by the caller; `mem` reads the string a stored key points to at
the time of the call. Only the content of a probe key is ever read, so `get`, `exists` and
`remove` take the content itself.

`put` and `resetHashMap` call each other. The recursion is cut at an explicit depth, and
`size` and `listSize` are C `int`s whose overflow is undefined: `none` is undefined behaviour.
-/

namespace DhmpFs

/-- The bytes of a NUL-terminated string, without the NUL. -/
abbrev Str := List UInt8

/-- The largest C `int`. -/
abbrev intMax : Nat := 2147483647

/-- `DEFAULT_MAP_SIZE`. -/
abbrev defaultMapSize : Nat := 50

/-- A cell of `hash_list` with the entries chained behind it; `none` is `NULL`. -/
structure Entry (K V : Type) where
  key : Option K
  value : Option V
  next : List (K × Option V)
  deriving DecidableEq, Repr

structure HashMap (K V : Type) where
  size : Nat
  listSize : Nat
  changeSize : Bool
  hashList : Nat → Entry K V

variable {K V : Type}

/-- An initialised cell. -/
def Entry.empty : Entry K V := ⟨none, none, []⟩

/-- The entries the loops visit: a cell without a key ends the walk at once. -/
def Entry.toList (b : Entry K V) : List (K × Option V) :=
  match b.key with
  | none => []
  | some k => (k, b.value) :: b.next

/-- One round of the hash loop. `char` is signed, so a byte above 127 is sign-extended. -/
def hashByte (h : UInt64) (c : UInt8) : UInt64 :=
  let h := (h <<< 4) + c.toInt8.toInt64.toUInt64
  let g := h &&& 0xF0000000
  let h := if g ≠ 0 then h ^^^ (g >>> 24) else h
  h &&& ~~~g

def defaultHashCode (hashMap : HashMap K V) (key : Str) : Nat :=
  (key.foldl hashByte 0).toNat % hashMap.listSize

/-- `strcmp(key1, key2) ? 0 : 1`. -/
def defaultEqual (key1 key2 : Str) : Bool := key1 == key2

@[simp] theorem defaultEqual_iff {key1 key2 : Str} : defaultEqual key1 key2 ↔ key1 = key2 := by
  simp [defaultEqual]

theorem defaultEqual_eq_decide (key1 key2 : Str) :
    defaultEqual key1 key2 = decide (key1 = key2) := beq_eq_decide ..

namespace HashMap

variable (mem : K → Str)

/-- Every entry in the table, in the order in which `resetHashMap` copies them. -/
def entries (m : HashMap K V) : List (K × Option V) :=
  (List.range m.listSize).flatMap fun i => (m.hashList i).toList

/-- The bucket a key belongs to. -/
def bucket (m : HashMap K V) (key : Str) : Entry K V := m.hashList (defaultHashCode m key)

def setBucket (m : HashMap K V) (key : Str) (b : Entry K V) : HashMap K V :=
  { m with hashList := Function.update m.hashList (defaultHashCode m key) b }

end HashMap

/-- `createHashMap(NULL, NULL, -1)`. -/
def createHashMap : HashMap K V where
  size := 0
  listSize := defaultMapSize
  changeSize := true
  hashList _ := .empty

section Operations

variable (mem : K → Str)

def defaultExists (hashMap : HashMap K V) (key : Str) : Bool :=
  (hashMap.bucket key).toList.any fun e => defaultEqual (mem e.1) key

/-- The value of the first entry with an equal key; `none` is `NULL`. -/
def defaultGet (hashMap : HashMap K V) (key : Str) : Option V :=
  if defaultExists mem hashMap key then
    ((hashMap.bucket key).toList.find? fun e => defaultEqual (mem e.1) key).bind (·.2)
  else none

/-- Overwrite the value of the first entry with an equal key. -/
def overwrite (key : Str) (value : Option V) : List (K × Option V) → List (K × Option V)
  | [] => []
  | e :: rest =>
    if defaultEqual key (mem e.1) then (e.1, value) :: rest else e :: overwrite key value rest

/-- Unlink the first chained entry with an equal key. -/
def unlink (key : Str) : List (K × Option V) → List (K × Option V)
  | [] => []
  | e :: rest => if defaultEqual (mem e.1) key then rest else e :: unlink key rest

/-- Copy the entries out, clear a table of the new size and put them back. The temporary
array has room for `size` entries, and `size` of them are put back. -/
def resetHashMap (put : HashMap K V → K → Option V → Option (HashMap K V))
    (hashMap : HashMap K V) (newListSize : Nat) : Option (HashMap K V) :=
  if newListSize < defaultMapSize then some hashMap
  else
    let tempList := hashMap.entries
    if tempList.length ≠ hashMap.size then none
    else
      tempList.foldlM (fun m e => put m e.1 e.2)
        { hashMap with size := 0, listSize := newListSize, hashList := fun _ => .empty }

/-- Growth at the end of `put`, after a new entry was stored. -/
def growIfFull (put : HashMap K V → K → Option V → Option (HashMap K V))
    (hashMap : HashMap K V) : Option (HashMap K V) :=
  if intMax < hashMap.size then none
  else if hashMap.listSize ≤ hashMap.size ∧ hashMap.changeSize then
    if intMax < hashMap.listSize * 2 then none
    else resetHashMap put hashMap (hashMap.listSize * 2)
  else some hashMap

/-- `put`, with at most `depth` calls of `put` inside each other. -/
def defaultPut : Nat → HashMap K V → K → Option V → Option (HashMap K V)
  | 0, _, _, _ => none
  | depth + 1, hashMap, key, value =>
    let b := hashMap.bucket (mem key)
    match b.key with
    | none =>
      growIfFull (defaultPut depth)
        { hashMap.setBucket (mem key) { b with key := some key, value := value } with
          size := hashMap.size + 1 }
    | some head =>
      -- the key pointer of an entry that is overwritten stays the old one
      if defaultEqual (mem key) (mem head) then
        some (hashMap.setBucket (mem key) { b with value := value })
      else if b.next.any fun e => defaultEqual (mem key) (mem e.1) then
        some (hashMap.setBucket (mem key)
          { b with next := overwrite mem (mem key) value b.next })
      else
        growIfFull (defaultPut depth)
          { hashMap.setBucket (mem key) { b with next := (key, value) :: b.next } with
            size := hashMap.size + 1 }

/-- Release at the end of `remove`, after an entry was taken out. -/
def shrinkIfSparse (put : HashMap K V → K → Option V → Option (HashMap K V))
    (hashMap : HashMap K V) : Option (HashMap K V) :=
  if hashMap.size < hashMap.listSize / 2 ∧ hashMap.changeSize then
    resetHashMap put hashMap (hashMap.listSize / 2)
  else some hashMap

/-- `remove` returns the key pointer found at the head of the bucket, or `NULL`. -/
def defaultRemove (depth : Nat) (hashMap : HashMap K V) (key : Str) :
    Option (HashMap K V × Option K) :=
  let b := hashMap.bucket key
  match b.key with
  | none => some (hashMap, none)
  | some entryKey =>
    if defaultEqual (mem entryKey) key then
      let b' : Entry K V := match b.next with
        | temp :: rest => ⟨some temp.1, temp.2, rest⟩
        | [] => { b with key := none, value := none }
      (shrinkIfSparse (defaultPut mem depth)
        { hashMap.setBucket key b' with size := hashMap.size - 1 }).map (·, some entryKey)
    else if b.next.any fun e => defaultEqual (mem e.1) key then
      (shrinkIfSparse (defaultPut mem depth)
        { hashMap.setBucket key { b with next := unlink mem key b.next } with
          size := hashMap.size - 1 }).map (·, some entryKey)
    else some (hashMap, some entryKey)

/-- `put` before it thinks about growing, and whether it goes on to do so. -/
def putEntry (hashMap : HashMap K V) (key : K) (value : Option V) : HashMap K V × Bool :=
  let b := hashMap.bucket (mem key)
  match b.key with
  | none =>
    ({ hashMap.setBucket (mem key) { b with key := some key, value := value } with
        size := hashMap.size + 1 }, true)
  | some head =>
    if defaultEqual (mem key) (mem head) then
      (hashMap.setBucket (mem key) { b with value := value }, false)
    else if b.next.any fun e => defaultEqual (mem key) (mem e.1) then
      (hashMap.setBucket (mem key) { b with next := overwrite mem (mem key) value b.next }, false)
    else
      ({ hashMap.setBucket (mem key) { b with next := (key, value) :: b.next } with
          size := hashMap.size + 1 }, true)

/-- `remove` before it thinks about releasing memory; the flag is its `result`. -/
def removeEntry (hashMap : HashMap K V) (key : Str) : HashMap K V × Bool :=
  let b := hashMap.bucket key
  match b.key with
  | none => (hashMap, false)
  | some entryKey =>
    if defaultEqual (mem entryKey) key then
      let b' : Entry K V := match b.next with
        | temp :: rest => ⟨some temp.1, temp.2, rest⟩
        | [] => { b with key := none, value := none }
      ({ hashMap.setBucket key b' with size := hashMap.size - 1 }, true)
    else if b.next.any fun e => defaultEqual (mem e.1) key then
      ({ hashMap.setBucket key { b with next := unlink mem key b.next } with
          size := hashMap.size - 1 }, true)
    else (hashMap, false)

theorem defaultPut_eq (depth : Nat) (hashMap : HashMap K V) (key : K) (value : Option V) :
    defaultPut mem (depth + 1) hashMap key value =
      if (putEntry mem hashMap key value).2 then
        growIfFull (defaultPut mem depth) (putEntry mem hashMap key value).1
      else some (putEntry mem hashMap key value).1 := by
  rw [defaultPut, putEntry]
  dsimp only
  split
  · rfl
  · split
    · rfl
    · split <;> rfl

theorem defaultRemove_eq (depth : Nat) (hashMap : HashMap K V) (key : Str) :
    defaultRemove mem depth hashMap key =
      (if (removeEntry mem hashMap key).2 then
        shrinkIfSparse (defaultPut mem depth) (removeEntry mem hashMap key).1
      else some (removeEntry mem hashMap key).1).map (·, (hashMap.bucket key).key) := by
  rw [defaultRemove, removeEntry]
  dsimp only
  split
  · next hb => simp [hb]
  · next head hb =>
    split
    · simp [hb]
    · split <;> simp [hb]

namespace HashMap

/-- `hashMap->get`. -/
abbrev get (m : HashMap K V) (key : Str) : Option V := defaultGet mem m key

/-- `hashMap->exists`. -/
abbrev «exists» (m : HashMap K V) (key : Str) : Bool := defaultExists mem m key

/-- `hashMap->put`; a resize inside a resize would need a greater depth. -/
def put (m : HashMap K V) (key : K) (value : Option V) : Option (HashMap K V) :=
  defaultPut mem 2 m key value

/-- `hashMap->remove`. -/
def remove (m : HashMap K V) (key : Str) : Option (HashMap K V × Option K) :=
  defaultRemove mem 1 m key

end HashMap

end Operations

end DhmpFs
