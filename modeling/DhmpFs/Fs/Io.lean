import DhmpFs.Fs.Index

/-!
# `dhmp_fs_write` and `dhmp_fs_read`

Both loops map one chunk at a time. The loop state is the file offset and what is left of the
request; every round handles at least one byte, so the length of the request bounds the
rounds.
-/

namespace DhmpFs

/-- The bank a chunk lies in, and its place there. -/
def bankId (c : Chunk) : Nat := c * chunkSize / bankSize
def bankOffset (c : Chunk) : Nat := c * chunkSize % bankSize

/-- The locked update of `head->size` and `cnt->size` to the new end of the chunk's data. -/
def growChunk (s : Fs) (head : InodeId) (c : Chunk) (newSize : Nat) : Fs :=
  (s.modify head fun n => { n with size := n.size + (newSize - (s.contextAddr c).size) })
    |>.modifyContext c fun x => { x with size := newSize }

/-- The loop of `dhmp_fs_write`; `rest` is the part of the buffer not written yet. -/
def writeLoop : Nat → Fs → InodeId → List UInt8 → Nat → Option Fs
  | 0, s, _, _, _ => some s
  | rounds + 1, s, head, rest, offset =>
    if rest = [] then some s
    else
      match level3LocalIndex s offset head false with
      | none => none
      -- `cnt->chunk_index` of a `NULL` context
      | some (_, _, none) => none
      | some (s, chunkOffset, some c) =>
        if subU64 chunkSize chunkOffset ≤ rest.length then
          -- fill the chunk
          let now := subU64 chunkSize chunkOffset
          let s := s.writeToCache (bankId c) (rest.take now) (bankOffset c + chunkOffset)
          let s := growChunk s head c chunkSize
          writeLoop rounds s head (rest.drop now) (addU64 offset now)
        else
          let s := s.writeToCache (bankId c) rest (bankOffset c + chunkOffset)
          let endOffset := rest.length + chunkOffset
          if (s.contextAddr c).size < endOffset then some (growChunk s head c endOffset)
          else some s

/-- `dhmp_fs_write` through the handle `fh`. -/
def dhmpFsWrite (s : Fs) (fh : InodeId) (buf : List UInt8) (offset : Nat) : Option (Fs × Int) :=
  if (s.inodes fh).isDirectories then some (s, -1)
  else (writeLoop buf.length s fh buf offset).map fun s => (s, toInt buf.length)

/-- A range `dhmp_fs_read` asks the cache for. -/
structure Range where
  chunk : Chunk
  chunkOffset : Nat
  length : Nat
  deriving DecidableEq, Repr

/-- The loop of `dhmp_fs_read`: the ranges it reads, in order, for a request of `unRead`
more bytes. The state is only looked at. -/
def readLoop (s : Fs) (head : InodeId) : Nat → Nat → Nat → Option (List Range)
  | 0, _, _ => some []
  | rounds + 1, unRead, offset =>
    if unRead = 0 then some []
    else
      match level3LocalIndex s offset head true with
      | none => none
      | some (_, _, none) => some []
      | some (_, chunkOffset, some c) =>
        -- an unsigned difference: an offset past the data of the chunk wraps around
        let now := subU64 (s.contextAddr c).size chunkOffset
        if now ≤ unRead then
          if now = 0 then some []
          else
            (readLoop s head rounds (unRead - now) (addU64 offset now)).map
              (⟨c, chunkOffset, now⟩ :: ·)
        else some [⟨c, chunkOffset, unRead⟩]

/-- The bytes of a range. -/
def Range.bytes (s : Fs) (r : Range) : List UInt8 :=
  s.readFromCache (bankId r.chunk) r.length (bankOffset r.chunk + r.chunkOffset)

/-- `dhmp_fs_read` through the handle `fh`: the bytes placed in the buffer and the result. -/
def dhmpFsRead (s : Fs) (fh : InodeId) (size offset : Nat) : Option (List UInt8 × Int) :=
  if (s.inodes fh).isDirectories then some ([], -1)
  else
    (readLoop s fh size size offset).map fun ranges =>
      (ranges.flatMap (Range.bytes s), toInt (ranges.map Range.length).sum)

end DhmpFs
