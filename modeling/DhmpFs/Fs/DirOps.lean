import DhmpFs.Fs.Io

/-!
# Directory operations

Paths are NUL-terminated byte strings, and the functions copy them into stack buffers of
`FILE_NAME_LEN` bytes. `none` is undefined behaviour: a write past such a buffer, a `NULL`
pointer that is dereferenced, an `int` counter that overflows, or a walk along pointers that
does not end.
-/

namespace DhmpFs

/-! ## Paths -/

/-- The scan of `deal`: the last slash that is not the end of the path. -/
def lastSlash : Nat → Nat → Str → Nat
  | _, j, [] => j
  | i, j, ch :: rest => lastSlash (i + 1) (if ch = slash ∧ rest ≠ [] then i else j) rest

/-- `deal`: the directory part of a path, with its slash, and the file name without a slash
at its end. A path of one byte reads before the start of `filename`. -/
def deal (path : Str) : Option (Str × Str) :=
  if fileNameLen < path.length ∨ path.length ≤ 1 then none
  else
    let m := lastSlash 0 0 path
    let filename := path.drop (m + 1)
    some (path.take (m + 1),
      if filename.getLast? = some slash then filename.dropLast else filename)

theorem length_le_of_deal {path : Str} {r : Str × Str} (h : deal path = some r) :
    path.length ≤ fileNameLen := by
  unfold deal at h
  grind

theorem length_ne_one_of_deal {path : Str} {r : Str × Str} (h : deal path = some r) :
    path.length ≠ 1 := by
  intro hone
  simp [deal, hone] at h

/-- The loop of `search_d_hash`: `name` is the part of the component read so far, and
`first` is `i == 0`. -/
def searchLoop (s : Fs) (first : Bool) (nowNode : InodeId) (name : Str) :
    Str → Option (Option InodeId)
  | [] => some (some nowNode)
  | ch :: rest =>
    if fileNameLen ≤ name.length then none
    else if ch = slash ∨ rest = [] then
      if first then searchLoop s false nowNode name rest
      else
        let name := if ch = slash then name else name ++ [ch]
        if fileNameLen ≤ name.length then none
        else
          match (s.inodes nowNode).dHash with
          | none => none
          | some dHash =>
            match dHash.get s.names name with
            | none => some none
            | some nextInode => searchLoop s false nextInode [] rest
    else searchLoop s false nowNode (name ++ [ch]) rest

/-- `search_d_hash`; the result `some none` is `NULL`. -/
def searchDHash (s : Fs) (path : Str) : Option (Option InodeId) :=
  if path.length = 1 then some (some rootId) else searchLoop s true rootId [] path

/-! ## The son/bro chain -/

def addToFather (s : Fs) (father now : InodeId) : Option Fs :=
  if intMax ≤ (s.inodes father).sonNums then none
  else
    let tmp := (s.inodes father).son
    let s := s.modify father fun n => { n with son := some now }
    let s := s.modify now fun n => { n with bro := tmp }
    some (s.modify father fun n => { n with sonNums := n.sonNums + 1 })

/-- The loop of `del_from_father`. -/
def delLoop (father del : InodeId) : Nat → Fs → InodeId → Option InodeId → Option Fs
  | _, s, _, none => some s
  | 0, _, _, some _ => none
  | rounds + 1, s, bef, some now =>
    if now = del then
      let s := s.modify bef fun n => { n with bro := (s.inodes now).bro }
      some (s.modify father fun n => { n with sonNums := n.sonNums - 1 })
    else delLoop father del rounds s now (s.inodes now).bro

/-- `del_from_father`. A chain visits every inode at most once. -/
def delFromFather (s : Fs) (father del : InodeId) : Option Fs :=
  match (s.inodes father).son with
  | none => some s
  | some son =>
    if son = del then
      some (s.modify father fun n =>
        { n with son := (s.inodes son).bro, sonNums := n.sonNums - 1 })
    else delLoop father del (s.mallocTimes + 1) s son (s.inodes son).bro

/-- Store an inode under its own `filename` buffer in the hash map of a directory. -/
def putSon (s : Fs) (father now : InodeId) : Option Fs :=
  match (s.inodes father).dHash with
  | none => none
  | some dHash =>
    (dHash.put s.names now (some now)).map fun dHash =>
      s.modify father fun n => { n with dHash := some dHash }

/-! ## Creation -/

/-- The end of `dhmpCreateDirectory`: a free inode becomes a directory of `father`. -/
def newDirectory (s : Fs) (father : InodeId) (filename : Str) : Option Fs := do
  let (s, now) := getFreeInode s
  let s := s.modify now fun n =>
    { n with isDirectories := true, dHash := some createHashMap, filename := filename }
  let s ← addToFather s father now
  putSon s father now

def dhmpCreateDirectory (s : Fs) (path : Str) : Option (Fs × Int) :=
  if path.length = 1 then some (s, 0)
  else do
    let (dirname, filename) ← deal path
    match ← searchDHash s dirname with
    | none => return (s, -1)
    | some father =>
      if (s.inodes father).isDirectories = false then return (s, -1)
      let dHash ← (s.inodes father).dHash
      match dHash.get s.names filename with
      | some _ => return (s, -1)
      | none =>
        let s ← newDirectory s father filename
        return (s, 1)

/-- The end of `dhmpMknod`: a free inode becomes a file of `father`. -/
def newFile (s : Fs) (father : InodeId) (filename : Str) : Option Fs := do
  let (s, now) := getFreeInode s
  let s := s.modify now fun n => { n with filename := filename }
  let s ← putSon s father now
  addToFather s father now

/-- `dhmpMknod`. The father is not checked to be a directory, and a `NULL` father only
reaches the error log. -/
def dhmpMknod (s : Fs) (path : Str) : Option (Fs × Int) :=
  if path.length = 1 then some (s, 0)
  else do
    let (dirname, filename) ← deal path
    match ← searchDHash s dirname with
    | none => return (s, -1)
    | some father =>
      let dHash ← (s.inodes father).dHash
      match dHash.get s.names filename with
      | some _ => return (s, -1)
      | none =>
        let s ← newFile s father filename
        return (s, 1)

/-! ## Deletion -/

/-- The loop of `dhmpDeleteALL` over the inodes from `son` on. The recursive call is the loop
over the sons of `son`. -/
def deleteSons : Nat → Fs → Option InodeId → Option Fs
  | _, s, none => some s
  | 0, _, some _ => none
  | rounds + 1, s, some son =>
    let n := s.inodes son
    let below := if n.isDirectories ∧ n.sonNums ≠ 0 then deleteSons rounds s n.son else some s
    below.bind fun s =>
      let next := (s.inodes son).bro
      (resetIndoe s son).bind fun s => deleteSons rounds s next

/-- `dhmpDeleteALL`: recycle every inode below a directory. -/
def dhmpDeleteALL (s : Fs) (father : InodeId) : Option Fs :=
  deleteSons (s.mallocTimes + 1) s (s.inodes father).son

/-- The end of `dhmpDelFromInode`, once the name is known to stand for `toDel`. -/
def removeSon (s : Fs) (father toDel : InodeId) (filename : Str) : Option (Fs × Int) := do
  let s ← delFromFather s father toDel
  let dHash ← (s.inodes father).dHash
  let (dHash, removed) ← dHash.remove s.names filename
  let s := s.modify father fun n => { n with dHash := some dHash }
  if removed = none then return (s, -1)
  let below := if (s.inodes toDel).isDirectories then dhmpDeleteALL s toDel else some s
  let s ← below
  let s ← resetIndoe s toDel
  return (s, 1)

def dhmpDelFromInode (s : Fs) (father : Option InodeId) (filename : Str) : Option (Fs × Int) :=
  match father with
  | none => some (s, -1)
  | some father =>
    if (s.inodes father).isDirectories = false then some (s, -1)
    else do
      let dHash ← (s.inodes father).dHash
      match dHash.get s.names filename with
      | none => return (s, -1)
      | some toDel => removeSon s father toDel filename

def dhmpDelete (s : Fs) (path : Str) : Option (Fs × Int) :=
  if path.length = 1 then some (s, 0)
  else do
    let (dirname, filename) ← deal path
    let father ← searchDHash s dirname
    dhmpDelFromInode s father filename

/-! ## Attributes -/

/-- `struct attr` without the time stamp. -/
structure Attr where
  isDirectories : Bool
  size : Int
  deriving DecidableEq

/-- `dhmpGetAttr`; the attributes are written only if the path is found. -/
def dhmpGetAttr (s : Fs) (path : Str) (attr : Attr) : Option (Int × Attr) := do
  match ← searchDHash s path with
  | none => return (-1, attr)
  | some head => return (0, ⟨(s.inodes head).isDirectories, toInt (s.inodes head).size⟩)

/-! ## Reading a directory -/

/-- The loop of `dhmpReadDir`: the first son heads the list and the others follow it in
reverse order. -/
def readSons : Nat → Fs → List (Str × Bool) → Option InodeId → Option (List (Str × Bool))
  | _, _, list, none => some list
  | 0, _, _, some _ => none
  | rounds + 1, s, list, some son =>
    let li := ((s.inodes son).filename, (s.inodes son).isDirectories)
    let list := match list with
      | [] => [li]
      | head :: tp => head :: li :: tp
    readSons rounds s list (s.inodes son).bro

/-- `dhmpReadDir`: the names and kinds in a directory; the empty list is `NULL`. -/
def dhmpReadDir (s : Fs) (path : Str) : Option (List (Str × Bool)) := do
  match ← if path.length ≠ 1 then searchDHash s path else some (some rootId) with
  | none => return []
  | some father =>
    if path.length ≠ 1 ∧ (s.inodes father).isDirectories = false then return []
    readSons (s.mallocTimes + 1) s [] (s.inodes father).son

/-! ## The FUSE operations -/

/-- `dhmp_fs_rename` moves the entry within the directory of `from`; of `to` only the last
component counts. -/
def dhmpFsRename (s : Fs) (src dst : Str) : Option (Fs × Int) := do
  let (dirname, filename) ← deal src
  let father ← (← searchDHash s dirname)
  let dHash ← (s.inodes father).dHash
  match dHash.get s.names filename with
  | none => return (s, -17)
  | some head =>
    let (dHash, _) ← dHash.remove s.names filename
    let s := s.modify father fun n => { n with dHash := some dHash }
    let (_, toname) ← deal dst
    let s := s.modify head fun n => { n with filename := toname }
    let s ← putSon s father head
    return (s, 0)

/-- An operation FUSE asks for; a file is written and read through its handle. -/
inductive FsOp where
  | mknod (path : Str)
  | mkdir (path : Str)
  | unlink (path : Str)
  | rmdir (path : Str)
  | rename (src dst : Str)
  | write (fh : InodeId) (buf : List UInt8) (offset : Nat)
  | read (fh : InodeId) (size offset : Nat)

/-- The state after an operation and its result. -/
def FsOp.run (s : Fs) : FsOp → Option (Fs × Int)
  | mknod path => (dhmpMknod s path).map fun (s, res) => (s, if res < 0 then -1 else 0)
  | mkdir path => (dhmpCreateDirectory s path).map fun (s, res) => (s, if res < 0 then -1 else 0)
  | unlink path => (dhmpDelete s path).map fun (s, res) => (s, if res < 0 then -2 else 0)
  | rmdir path => (dhmpDelete s path).map fun (s, res) => (s, if res < 0 then -2 else 0)
  | rename src dst => dhmpFsRename s src dst
  | write fh buf offset => dhmpFsWrite s fh buf offset
  | read fh size offset => (dhmpFsRead s fh size offset).map fun (_, res) => (s, res)

end DhmpFs
