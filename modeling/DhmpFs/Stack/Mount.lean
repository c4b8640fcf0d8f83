import DhmpFs.Cache.Transparent
import DhmpFs.Fs.Leak

/-!
# The file system over its cache

`dhmp_fs_write` and `dhmp_fs_read` with their calls of the bank cache. The file system proper is
`Fs`, whose banks are a flat memory; here the banks are the cache and the servers behind it. What
a cache has to offer for the two to agree is stated once, as `Absorbs` and `Serves`.

## Main definitions

* `Mount`: the file system and its cache.
* `Mount.dhmpFsWrite`, `Mount.dhmpFsRead`: the calls of FUSE.
* `MountStep`: the operations of FUSE and the passes that write dirty banks back.
* `LastWritten.fill`: the flat banks that a cache stands for.
-/

namespace DhmpFs

open Library

/-- The file system over its cache. The banks of `fs` are not looked at. -/
structure Mount where
  fs : Fs
  client : Client

namespace Mount

/-- `dhmp_init` of the client and of the file system. -/
def init (serverNum : Nat) (bank : Nat → Nat → Bytes) : Mount where
  fs := dhmpInit fun _ _ => 0
  client := initClient serverNum bank

/-- The loop of `dhmp_fs_write`, and the buffer after it: a call that misses overwrites its piece
of the buffer. Every call of the cache has an environment of its own. -/
def writeLoop : Nat → Mount → (Nat → ExpelEnv) → InodeId → List UInt8 → Nat →
    Option (Mount × List UInt8)
  | 0, m, _, _, rest, _ => some (m, rest)
  | rounds + 1, m, env, head, rest, offset =>
    if rest = [] then some (m, [])
    else
      match level3LocalIndex m.fs offset head false with
      | none => none
      | some (_, _, none) => none
      | some (fs, chunkOffset, some c) =>
        let buf : Bytes := fun k => rest.getD k 0
        if subU64 chunkSize chunkOffset ≤ rest.length then
          -- fill the chunk
          let now := subU64 chunkSize chunkOffset
          (m.client.dhmpFsWriteToCache (env 0) (bankId c) buf now
            (bankOffset c + chunkOffset)).bind fun (client, after) =>
          (writeLoop rounds ⟨growChunk fs head c chunkSize, client⟩ (fun i => env (i + 1)) head
            (rest.drop now) (addU64 offset now)).map fun (m, tail) =>
          (m, (List.range now).map after ++ tail)
        else
          (m.client.dhmpFsWriteToCache (env 0) (bankId c) buf rest.length
            (bankOffset c + chunkOffset)).map fun (client, after) =>
          let endOffset := rest.length + chunkOffset
          let fs := if (fs.contextAddr c).size < endOffset then growChunk fs head c endOffset else fs
          (⟨fs, client⟩, (List.range rest.length).map after)

/-- `dhmp_fs_write` through the handle `fh`, and the buffer after it. -/
def dhmpFsWrite (m : Mount) (env : Nat → ExpelEnv) (fh : InodeId) (buf : List UInt8)
    (offset : Nat) : Option (Mount × List UInt8 × Int) :=
  if (m.fs.inodes fh).isDirectories then some (m, buf, -1)
  else (writeLoop buf.length m env fh buf offset).map fun (m, buf') => (m, buf', toInt buf.length)

/-- The loop of `dhmp_fs_read` and the bytes it places; `buf` is the rest of the buffer. -/
def readLoop (fs : Fs) : Nat → Client → (Nat → ExpelEnv) → InodeId → Bytes → Nat → Nat →
    Option (Client × List UInt8)
  | 0, client, _, _, _, _, _ => some (client, [])
  | rounds + 1, client, env, head, buf, unRead, offset =>
    if unRead = 0 then some (client, [])
    else
      match level3LocalIndex fs offset head true with
      | none => none
      | some (_, _, none) => some (client, [])
      | some (_, chunkOffset, some c) =>
        let now := subU64 (fs.contextAddr c).size chunkOffset
        if now ≤ unRead then
          if now = 0 then some (client, [])
          else
            (client.dhmpFsReadFromCache (env 0) (bankId c) buf now
              (bankOffset c + chunkOffset)).bind fun (client, after) =>
            (readLoop fs rounds client (fun i => env (i + 1)) head (fun k => after (now + k))
              (unRead - now) (addU64 offset now)).map fun (client, tail) =>
            (client, (List.range now).map after ++ tail)
        else
          (client.dhmpFsReadFromCache (env 0) (bankId c) buf unRead
            (bankOffset c + chunkOffset)).map fun (client, after) =>
          (client, (List.range unRead).map after)

/-- `dhmp_fs_read` through the handle `fh`: the client, the bytes placed in the buffer, and the
result. -/
def dhmpFsRead (m : Mount) (env : Nat → ExpelEnv) (fh : InodeId) (buf : Bytes) (size offset : Nat) :
    Option (Client × List UInt8 × Int) :=
  if (m.fs.inodes fh).isDirectories then some (m.client, [], -1)
  else
    (readLoop m.fs size m.client env fh buf size offset).map fun (client, bytes) =>
      (client, bytes, toInt bytes.length)

end Mount

/-- An operation of FUSE, or a pass of `rewrite_dirty_cache`. Each cache call of an operation has
its environment, and a read finds `buf` in its buffer. -/
inductive MountOp where
  | call (op : FsOp) (env : Nat → ExpelEnv) (buf : Bytes)
  | rewrite (env : Nat → WriteEnv)

/-- The state after an operation and its result. -/
def Mount.run (m : Mount) : MountOp → Option (Mount × Int)
  | .call (.write fh buf offset) env _ =>
    (m.dhmpFsWrite env fh buf offset).map fun (m, _, res) => (m, res)
  | .call (.read fh size offset) env buf =>
    (m.dhmpFsRead env fh buf size offset).map fun (client, _, res) =>
      ({ m with client := client }, res)
  | .call op _ _ => (op.run m.fs).map fun (fs, res) => ({ m with fs := fs }, res)
  | .rewrite env =>
    (m.client.rewriteDirtyCache env).map fun client => ({ m with client := client }, 0)

/-- An operation that returns. -/
def MountStep (m : Mount) (op : MountOp) (m' : Mount) : Prop :=
  (∀ call env buf, op = .call call env buf → call.Handle m.fs) ∧ ∃ res, m.run op = some (m', res)

/-! ## The flat banks of a cache -/

/-- The banks that hold what was written last, and `x` elsewhere. -/
def LastWritten.fill (w : LastWritten) (x : UInt8) : Banks := fun b o => (w b o).getD x

/-- A position that is known whatever stands elsewhere was written. -/
theorem LastWritten.eq_some_of_fill {w : LastWritten} {b o : Nat} {v : UInt8}
    (h : ∀ x, w.fill x b o = v) : w b o = some v := by
  have h0 := h 0
  have h1 := h 1
  unfold fill at h0 h1
  cases hw : w b o with
  | some u => simpa [hw] using h0
  | none =>
    rw [hw, Option.getD_none] at h0 h1
    exact absurd (h0.trans h1.symm) (by decide)

/-- A write call on the flat banks. -/
theorem writeToCache_fill (s : Fs) (w : LastWritten) (x : UInt8) (b offset : Nat)
    (bytes : List UInt8) {buf : Bytes} (h : ∀ k < bytes.length, buf k = bytes.getD k 0) :
    (s.withBank (w.fill x)).writeToCache b bytes offset =
      s.withBank ((w.write b buf bytes.length offset).fill x) := by
  unfold Fs.writeToCache Fs.withBank
  congr 1
  funext k o
  simp only [LastWritten.fill, LastWritten.write]
  split
  · next hin => rw [Option.getD_some, h _ (by omega)]
  · rfl

/-- The places of a range in the banks. -/
def Range.places (r : Range) : List (Nat × Nat) :=
  (List.range r.length).map fun k => (bankId r.chunk, bankOffset r.chunk + r.chunkOffset + k)

theorem Range.bytes_eq (s : Fs) (r : Range) : r.bytes s = r.places.map fun p => s.bank p.1 p.2 := by
  simp [Range.bytes, Fs.readFromCache, Range.places, Function.comp_def]

/-- A chunk lies in one bank. -/
theorem bankOffset_add_le (c : Chunk) : bankOffset c + chunkSize ≤ bankSize := by
  unfold bankOffset
  simp only [chunkSize, bankSize]
  omega

/-! ## What a cache has to offer -/

/-- Write calls to the banks of `ok` are stored and leave the buffer alone. -/
structure Absorbs (R : Client → LastWritten → Prop) (ok : Nat → Prop) : Prop where
  write : ∀ {c w b size offset}, R c w → ok b → offset + size ≤ bankSize →
    ∀ (env : ExpelEnv) (buf : Bytes), ∃ c',
      c.dhmpFsWriteToCache env b buf size offset = some (c', buf) ∧
        R c' (w.write b buf size offset)

/-- Read calls to the banks of `ok` return what was written last, for the environments of `E`. -/
structure Serves (E : ExpelEnv → Prop) (R : Client → LastWritten → Prop) (ok : Nat → Prop) :
    Prop where
  read : ∀ {c w b size offset env}, R c w → ok b → offset + size ≤ bankSize → E env →
    ∀ buf : Bytes, ∃ c' after, c.dhmpFsReadFromCache env b buf size offset = some (c', after) ∧
      R c' w ∧ ∀ o < size, ∀ v, w b (offset + o) = some v → after o = v

namespace Mount

variable {R : Client → LastWritten → Prop} {ok : Nat → Prop} {m m' : Mount} {s' s1 : Fs}
  {w : LastWritten} {head : InodeId} {offset : Nat} {rest : List UInt8} {c : Chunk}

/-! ## Writes -/

/-- The metadata of a round that places `n` bytes. -/
def grown (s : Fs) (head : InodeId) (c : Chunk) (chunkOffset n : Nat) : Fs :=
  growChunk s head c (max (s.contextAddr c).size (chunkOffset + n))

theorem grown_part (s : Fs) (head : InodeId) (c : Chunk) (chunkOffset n : Nat) :
    grown s head c chunkOffset n = if (s.contextAddr c).size < n + chunkOffset then
      growChunk s head c (n + chunkOffset) else s := by
  rw [grown, Nat.add_comm chunkOffset]
  split
  · rw [Nat.max_eq_right (by omega)]
  · rw [Nat.max_eq_left (by omega)]
    exact growChunk_self s head c

theorem owned_withBank {s : Fs} (o : Owned s) (b : Banks) : Owned (s.withBank b) :=
  o.congr (fun i => ⟨o.complete i, fun _ => rfl, rfl, rfl⟩) rfl rfl rfl

/-- The piece of a round, and the state after it. -/
theorem owned_grown {s : Fs} (o : Owned s) (hne : rest ≠ []) (hlt : offset < sizeThirdDirectEnd)
    (loc : Located s head (slotOf (offset / chunkSize)) c s1) {piece : List UInt8}
    (hpiece : piece = rest.take (chunkSize - offset % chunkSize)) :
    piece.length = min (chunkSize - offset % chunkSize) rest.length ∧
      Owned (grown s1 head c (offset % chunkSize) piece.length) := by
  have hpos := List.length_pos_iff.mpr hne
  have hmod := Nat.mod_lt offset chunkSize_pos
  have hlen : piece.length = min (chunkSize - offset % chunkSize) rest.length := by
    rw [hpiece, List.length_take]
  have hw : ChunkWrite head s offset piece (placeBytes s1 head c (offset % chunkSize) piece) :=
    ⟨List.ne_nil_of_length_pos (by omega), hlt, by omega, s1, c, loc, rfl⟩
  exact ⟨hlen, owned_withBank (hw.owned o) s1.bank⟩

/-- A round on the flat banks. -/
theorem placeBytes_fill (s : Fs) (w : LastWritten) (x : UInt8) (head : InodeId) (c : Chunk)
    (chunkOffset : Nat) (bytes : List UInt8) {buf : Bytes}
    (h : ∀ k < bytes.length, buf k = bytes.getD k 0) :
    placeBytes (s.withBank (w.fill x)) head c chunkOffset bytes =
      (grown s head c chunkOffset bytes.length).withBank
        ((w.write (bankId c) buf bytes.length (bankOffset c + chunkOffset)).fill x) := by
  rw [placeBytes, writeToCache_fill s w x _ _ _ h]
  rfl

theorem writeLoop_nil (rounds : Nat) (m : Mount) (env : Nat → ExpelEnv) (head : InodeId)
    (offset : Nat) : writeLoop rounds m env head [] offset = some (m, []) := by
  cases rounds <;> rfl

/-- One round of the loop that finds its chunk. -/
theorem writeLoop_succ (rounds : Nat) (env : Nat → ExpelEnv) (o : Owned m.fs) (hne : rest ≠ [])
    (hlt : offset < sizeThirdDirectEnd)
    (hreach : reach m.fs head false (slotOf (offset / chunkSize)) = some (s1, some c))
    (o1 : Owned s1) {piece : List UInt8}
    (hpiece : piece = rest.take (chunkSize - offset % chunkSize)) :
    writeLoop (rounds + 1) m env head rest offset =
      (m.client.dhmpFsWriteToCache (env 0) (bankId c) (fun k => rest.getD k 0) piece.length
        (bankOffset c + offset % chunkSize)).bind fun r =>
      (writeLoop rounds ⟨grown s1 head c (offset % chunkSize) piece.length, r.1⟩
        (fun i => env (i + 1)) head (rest.drop (chunkSize - offset % chunkSize))
        (offset + piece.length)).map fun t => (t.1, (List.range piece.length).map r.2 ++ t.2) := by
  have hmod : offset % chunkSize < chunkSize := Nat.mod_lt _ chunkSize_pos
  have hsub : subU64 chunkSize (offset % chunkSize) = chunkSize - offset % chunkSize :=
    subU64_eq (by decide) (Nat.le_of_lt hmod)
  have htake : piece.length = min (chunkSize - offset % chunkSize) rest.length := by
    rw [hpiece, List.length_take]
  rw [writeLoop, if_neg hne, level3LocalIndex_write (o.complete head) hlt, hreach]
  simp only [Option.map_some, hsub]
  split
  · next hfull =>
    have hlen : piece.length = chunkSize - offset % chunkSize := by omega
    have hgrown : grown s1 head c (offset % chunkSize) (chunkSize - offset % chunkSize) =
        growChunk s1 head c chunkSize := by
      have := o1.size_le c
      rw [grown, Nat.max_eq_right (by omega)]
      congr 1
      omega
    have hadd : addU64 offset (chunkSize - offset % chunkSize) =
        offset + (chunkSize - offset % chunkSize) := by
      apply addU64_eq
      have : sizeThirdDirectEnd + chunkSize < 2 ^ 64 := by decide
      omega
    rw [hlen, hgrown, hadd]
  · next hpart =>
    have hlen : piece.length = rest.length := by omega
    rw [hlen, List.drop_eq_nil_of_le (by omega), grown_part]
    simp only [writeLoop_nil, Option.map_some, List.append_nil]
    rw [Option.map_eq_bind]
    rfl

/-- The loop over the cache does what the loop on the flat banks does, if all the banks that are
written are absorbed. -/
theorem writeLoop_absorbs (hR : Absorbs R ok) {rounds : Nat} (env : Nat → ExpelEnv)
    (o : Owned m.fs) (h : R m.client w) (hr : rest.length ≤ rounds)
    (hs : DhmpFs.writeLoop rounds (m.fs.withBank (w.fill 0)) head rest offset = some s')
    (hok : ∀ x ∈ (FsOp.write head rest offset).places s', ok (bankId x.1)) :
    ∃ m' w', writeLoop rounds m env head rest offset = some (m', rest) ∧ R m'.client w' ∧
      ∀ x, DhmpFs.writeLoop rounds (m.fs.withBank (w.fill x)) head rest offset =
        some (m'.fs.withBank (w'.fill x)) := by
  induction rounds generalizing m w rest offset env with
  | zero =>
    obtain rfl : rest = [] := by simpa using hr
    exact ⟨m, w, rfl, h, fun _ => rfl⟩
  | succ rounds ih =>
    by_cases hne : rest = []
    · subst hne
      exact ⟨m, w, by simp [writeLoop_nil], h, fun x => by simp [DhmpFs.writeLoop]⟩
    have hpos := List.length_pos_iff.mpr hne
    have hmod := Nat.mod_lt offset chunkSize_pos
    have hlt : offset < sizeThirdDirectEnd := by
      by_contra hend
      simp [DhmpFs.writeLoop, hne, level3LocalIndex_end (Nat.le_of_not_lt hend)] at hs
    cases hreach : reach m.fs head false (slotOf (offset / chunkSize)) with
    | none =>
      have hnone : reach (m.fs.withBank (w.fill 0)) head false (slotOf (offset / chunkSize)) =
          none := by
        rw [reach_withBank, hreach]
        rfl
      simp [DhmpFs.writeLoop, hne, level3LocalIndex_write ((owned_withBank o _).complete head) hlt,
        hnone] at hs
    | some r =>
      obtain ⟨s1, cnt⟩ := r
      obtain ⟨c, rfl, loc⟩ := reach_write (o.complete head) hreach
      have o1 := loc.owned o
      have hreachAt : ∀ x, reach (m.fs.withBank (w.fill x)) head false
          (slotOf (offset / chunkSize)) = some (s1.withBank (w.fill x), some c) := by
        intro x
        rw [reach_withBank, hreach]
        rfl
      -- the piece of this round, and the same round on all flat banks
      obtain ⟨piece, hpiece⟩ : ∃ piece, piece = rest.take (chunkSize - offset % chunkSize) :=
        ⟨_, rfl⟩
      obtain ⟨hlen, og⟩ := owned_grown o hne hlt loc hpiece
      have hbuf : ∀ k < piece.length, rest.getD k 0 = piece.getD k 0 := by
        intro k hk
        rw [hpiece]
        simp [List.getD, show k < chunkSize - offset % chunkSize by omega]
      have hround : ∀ x, DhmpFs.writeLoop (rounds + 1) (m.fs.withBank (w.fill x)) head rest offset =
          DhmpFs.writeLoop rounds ((grown s1 head c (offset % chunkSize) piece.length).withBank
            ((w.write (bankId c) (fun k => rest.getD k 0) piece.length
              (bankOffset c + offset % chunkSize)).fill x)) head
            (rest.drop (chunkSize - offset % chunkSize)) (offset + piece.length) := by
        intro x
        rw [DhmpFs.writeLoop_succ (owned_withBank o _) rounds hne hlt (hreachAt x)
          (owned_withBank o1 _), ← hpiece, placeBytes_fill s1 w x head c _ piece hbuf]
      have hself : (s'.inodes head).cntId.get (slotOf (offset / chunkSize)) = some c := by
        rw [hround 0] at hs
        apply writeLoop_get (owned_withBank og _) (by rw [List.length_drop]; omega) hs
        exact (Holds.placeBytes_index s1 head head c (offset % chunkSize) piece).symm ▸ loc.get
      have hbank : ok (bankId c) :=
        hok (c, offset % chunkSize) ⟨offset, Nat.le_refl _, by omega, hself, rfl⟩
      have hfit : bankOffset c + offset % chunkSize + piece.length ≤ bankSize := by
        have := bankOffset_add_le c
        omega
      obtain ⟨client, hcall, h'⟩ := hR.write h hbank hfit (env 0) fun k => rest.getD k 0
      rw [hround 0] at hs
      have hokRest : ∀ x ∈ (FsOp.write head (rest.drop (chunkSize - offset % chunkSize))
          (offset + piece.length)).places s', ok (bankId x.1) := by
        intro x hx
        have hsub := places_round (W := ∅) hlen hself (.inr hx)
        exact hok x (by simpa using hsub)
      obtain ⟨m', w', hloop, hR', hflat⟩ := ih
        (m := ⟨grown s1 head c (offset % chunkSize) piece.length, client⟩) (fun i => env (i + 1)) og
        h' (by rw [List.length_drop]; omega) hs hokRest
      refine ⟨m', w', ?_, hR', fun x => (hround x).trans (hflat x)⟩
      have hbytes : (List.range piece.length).map (fun k => rest.getD k 0) = piece := by
        apply List.ext_getElem (by simp)
        intro k hk _
        have hk : k < piece.length := by simpa using hk
        rw [List.getElem_map, List.getElem_range, hbuf k hk]
        simp [hk]
      rw [writeLoop_succ rounds env o hne hlt hreach o1 hpiece, hcall, Option.bind_some, hloop,
        Option.map_some, hbytes, hpiece, List.take_append_drop]

/-- What becomes of the metadata does not depend on the cache. -/
theorem writeLoop_flat {rounds : Nat} (env : Nat → ExpelEnv) (o : Owned m.fs)
    {after : List UInt8} (h : writeLoop rounds m env head rest offset = some (m', after))
    (b : Banks) :
    ∃ b', DhmpFs.writeLoop rounds (m.fs.withBank b) head rest offset = some (m'.fs.withBank b') := by
  induction rounds generalizing m rest offset env after b with
  | zero =>
    obtain ⟨rfl, -⟩ := Prod.mk.inj (Option.some.inj h)
    exact ⟨b, rfl⟩
  | succ rounds ih =>
    by_cases hne : rest = []
    · rw [hne, writeLoop_nil] at h
      obtain ⟨rfl, -⟩ := Prod.mk.inj (Option.some.inj h)
      exact ⟨b, by simp [DhmpFs.writeLoop, hne]⟩
    have hlt : offset < sizeThirdDirectEnd := by
      by_contra hend
      simp [writeLoop, hne, level3LocalIndex_end (Nat.le_of_not_lt hend)] at h
    cases hreach : reach m.fs head false (slotOf (offset / chunkSize)) with
    | none =>
      simp [writeLoop, hne, level3LocalIndex_write (o.complete head) hlt, hreach] at h
    | some r =>
      obtain ⟨s1, cnt⟩ := r
      obtain ⟨c, rfl, loc⟩ := reach_write (o.complete head) hreach
      have o1 := loc.owned o
      have hreachAt : reach (m.fs.withBank b) head false (slotOf (offset / chunkSize)) =
          some (s1.withBank b, some c) := by
        rw [reach_withBank, hreach]
        rfl
      obtain ⟨piece, hpiece⟩ : ∃ piece, piece = rest.take (chunkSize - offset % chunkSize) :=
        ⟨_, rfl⟩
      obtain ⟨-, og⟩ := owned_grown o hne hlt loc hpiece
      rw [writeLoop_succ rounds env o hne hlt hreach o1 hpiece, Option.bind_eq_some_iff] at h
      obtain ⟨⟨client, now⟩, -, h⟩ := h
      obtain ⟨⟨m1, tail⟩, hrest, heq⟩ := Option.map_eq_some_iff.mp h
      obtain rfl : m1 = m' := (Prod.mk.inj heq).1
      rw [DhmpFs.writeLoop_succ (owned_withBank o b) rounds hne hlt hreachAt (owned_withBank o1 b),
        ← hpiece]
      exact ih _ og hrest _

theorem dhmpFsWrite_absorbs (hR : Absorbs R ok) (env : Nat → ExpelEnv) (o : Owned m.fs)
    (h : R m.client w) {fh : InodeId} {buf : List UInt8} {res : Int}
    (hs : DhmpFs.dhmpFsWrite (m.fs.withBank (w.fill 0)) fh buf offset = some (s', res))
    (hok : ∀ x ∈ (FsOp.write fh buf offset).places s', ok (bankId x.1)) :
    ∃ m' w', dhmpFsWrite m env fh buf offset = some (m', buf, res) ∧ R m'.client w' ∧
      ∀ x, DhmpFs.dhmpFsWrite (m.fs.withBank (w.fill x)) fh buf offset =
        some (m'.fs.withBank (w'.fill x), res) := by
  have hdirs : ∀ b, ((m.fs.withBank b).inodes fh).isDirectories = (m.fs.inodes fh).isDirectories :=
    fun _ => rfl
  cases hdir : (m.fs.inodes fh).isDirectories with
  | true =>
    rw [DhmpFs.dhmpFsWrite, if_pos ((hdirs _).trans hdir), Option.some.injEq, Prod.mk.injEq] at hs
    obtain ⟨-, rfl⟩ := hs
    exact ⟨m, w, if_pos hdir, h, fun _ => if_pos ((hdirs _).trans hdir)⟩
  | false =>
    have hfile : ∀ b, ¬ ((m.fs.withBank b).inodes fh).isDirectories = true := by simp [hdir]
    rw [DhmpFs.dhmpFsWrite, if_neg (hfile _), Option.map_eq_some_iff] at hs
    obtain ⟨t, ht, he⟩ := hs
    obtain ⟨rfl, rfl⟩ := Prod.mk.inj he
    obtain ⟨m', w', hloop, h', hflat⟩ := writeLoop_absorbs hR env o h (Nat.le_refl _) ht hok
    refine ⟨m', w', ?_, h', fun x => ?_⟩
    · rw [dhmpFsWrite, if_neg (by simp [hdir]), hloop]
      rfl
    · rw [DhmpFs.dhmpFsWrite, if_neg (hfile _), hflat x]
      rfl

theorem dhmpFsWrite_flat {env : Nat → ExpelEnv} (o : Owned m.fs) {fh : InodeId}
    {buf after : List UInt8} {res : Int}
    (h : dhmpFsWrite m env fh buf offset = some (m', after, res)) (b : Banks) :
    ∃ b', DhmpFs.dhmpFsWrite (m.fs.withBank b) fh buf offset = some (m'.fs.withBank b', res) := by
  cases hdir : (m.fs.inodes fh).isDirectories with
  | true =>
    rw [dhmpFsWrite, if_pos hdir, Option.some.injEq, Prod.mk.injEq, Prod.mk.injEq] at h
    obtain ⟨rfl, -, rfl⟩ := h
    exact ⟨b, if_pos hdir⟩
  | false =>
    rw [dhmpFsWrite, if_neg (by simp [hdir]), Option.map_eq_some_iff] at h
    obtain ⟨⟨t, tail⟩, ht, he⟩ := h
    obtain ⟨rfl, -, rfl⟩ : t = m' ∧ tail = after ∧ toInt buf.length = res := by simpa using he
    obtain ⟨b', hb'⟩ := writeLoop_flat env o ht b
    refine ⟨b', ?_⟩
    rw [DhmpFs.dhmpFsWrite, if_neg (by simp [hdir]), hb']
    rfl

/-! ## Reads -/

/-- The calls for the ranges of a read. -/
def readRanges : List Range → Client → (Nat → ExpelEnv) → Bytes → Option (Client × List UInt8)
  | [], client, _, _ => some (client, [])
  | r :: ranges, client, env, buf =>
    (client.dhmpFsReadFromCache (env 0) (bankId r.chunk) buf r.length
      (bankOffset r.chunk + r.chunkOffset)).bind fun (client, after) =>
    (readRanges ranges client (fun i => env (i + 1)) fun k => after (r.length + k)).map
      fun (client, tail) => (client, (List.range r.length).map after ++ tail)

/-- The loop makes its calls for the ranges of the loop on the flat banks. -/
theorem readLoop_eq (s : Fs) (head : InodeId) (rounds : Nat) (client : Client)
    (env : Nat → ExpelEnv) (buf : Bytes) (unRead offset : Nat) :
    readLoop s rounds client env head buf unRead offset =
      (DhmpFs.readLoop s head rounds unRead offset).bind fun ranges =>
        readRanges ranges client env buf := by
  induction rounds generalizing client env buf unRead offset with
  | zero => rfl
  | succ rounds ih =>
    unfold readLoop DhmpFs.readLoop
    by_cases hzero : unRead = 0
    · rw [if_pos hzero, if_pos hzero]
      rfl
    rw [if_neg hzero, if_neg hzero]
    rcases level3LocalIndex s offset head true with _ | ⟨t, chunkOffset, _ | c⟩
    · rfl
    · rfl
    · dsimp only
      split
      · split
        · rfl
        · simp only [ih, Option.bind_map]
          cases hloop : DhmpFs.readLoop s head rounds
              (unRead - subU64 (s.contextAddr c).size chunkOffset)
              (addU64 offset (subU64 (s.contextAddr c).size chunkOffset)) with
          | none => simp
          | some ranges => rfl
      · simp [readRanges, Option.map_eq_bind]

/-- What a served read returns, place by place. -/
theorem readRanges_serves {E : ExpelEnv → Prop} (hR : Serves E R ok) {env : Nat → ExpelEnv}
    (hE : ∀ i, E (env i)) {ranges : List Range} {client : Client} (h : R client w)
    (hok : ∀ r ∈ ranges, ok (bankId r.chunk) ∧
      bankOffset r.chunk + r.chunkOffset + r.length ≤ bankSize) (buf : Bytes) :
    ∃ client' bytes, readRanges ranges client env buf = some (client', bytes) ∧ R client' w ∧
      List.Forall₂ (fun p b => ∀ v, w p.1 p.2 = some v → b = v)
        (ranges.flatMap Range.places) bytes := by
  induction ranges generalizing client env buf with
  | nil => exact ⟨client, [], rfl, h, .nil⟩
  | cons r ranges ih =>
    obtain ⟨hbank, hfit⟩ := hok r (List.mem_cons_self ..)
    obtain ⟨c₁, after, hread, h₁, hlast⟩ := hR.read h hbank hfit (hE 0) buf
    obtain ⟨c₂, tail, hrest, h₂, hall⟩ := ih (fun i => hE (i + 1)) h₁
      (fun r' hr' => hok r' (List.mem_cons_of_mem _ hr')) (fun k => after (r.length + k))
    refine ⟨c₂, (List.range r.length).map after ++ tail, ?_, h₂, ?_⟩
    · simp [readRanges, hread, hrest]
    · rw [List.flatMap_cons]
      apply List.rel_append _ hall
      rw [Range.places, List.forall₂_map_left_iff, List.forall₂_map_right_iff,
        List.forall₂_same]
      exact fun k hk v hv => hlast k (List.mem_range.mp hk) v hv

/-- What a read over the cache returns, against the reads on the flat banks: as many bytes, and
those that are the same on all of them. -/
structure ReadsFlat (m : Mount) (w : LastWritten) (fh : InodeId) (size offset : Nat)
    (bytes : List UInt8) (res : Int) (flat : UInt8 → List UInt8) : Prop where
  read : ∀ x, DhmpFs.dhmpFsRead (m.fs.withBank (w.fill x)) fh size offset = some (flat x, res)
  length : ∀ x, (flat x).length = bytes.length
  known : ∀ (i : Nat) (v : UInt8), (∀ x, (flat x)[i]? = some v) → bytes[i]? = some v

theorem dhmpFsRead_serves {E : ExpelEnv → Prop} (hR : Serves E R ok) {env : Nat → ExpelEnv}
    (hE : ∀ i, E (env i)) (o : Owned m.fs) (h : R m.client w) {fh : InodeId} {size : Nat}
    (hok : ∀ slot c, (m.fs.inodes fh).cntId.get slot = some c → ok (bankId c))
    (hstart : StartsInData m.fs fh size offset) (buf : Bytes) :
    ∃ client bytes res flat, dhmpFsRead m env fh buf size offset = some (client, bytes, res) ∧
      R client w ∧ ReadsFlat m w fh size offset bytes res flat := by
  cases hdir : (m.fs.inodes fh).isDirectories with
  | true =>
    refine ⟨m.client, [], -1, fun _ => [], if_pos hdir, h, fun _ => if_pos hdir, fun _ => rfl, ?_⟩
    intro i v hv
    simp at hv
  | false =>
    obtain ⟨ranges, n, hloop, hd⟩ := readLoop_delivers o size (Nat.le_refl _) hstart
    have hranges : ∀ r ∈ ranges, ok (bankId r.chunk) ∧
        bankOffset r.chunk + r.chunkOffset + r.length ≤ bankSize := by
      intro r hr
      obtain ⟨⟨slot, hslot⟩, hfits⟩ := hd.inside r hr
      have := o.size_le r.chunk
      have := bankOffset_add_le r.chunk
      exact ⟨hok slot _ hslot, by omega⟩
    obtain ⟨client, bytes, hread, h', hall⟩ := readRanges_serves hR hE h hranges buf
    have hlen : (ranges.map Range.length).sum = bytes.length := by
      rw [← hall.length_eq, List.length_flatMap]
      congr 1
      apply List.map_congr_left
      intro r _
      simp [Range.places]
    refine ⟨client, bytes, toInt bytes.length,
      fun x => (ranges.flatMap Range.places).map fun p => w.fill x p.1 p.2, ?_, h',
      fun x => ?_, fun x => by rw [List.length_map, hall.length_eq], fun i v hv => ?_⟩
    · rw [dhmpFsRead, if_neg (by simp [hdir]), readLoop_eq, hloop, Option.bind_some, hread]
      rfl
    · rw [DhmpFs.dhmpFsRead, if_neg (by simp [hdir]), readLoop_withBank, hloop, ← hlen,
        List.map_flatMap, funext (Range.bytes_eq _)]
      rfl
    · have h0 := hv 0
      rw [List.getElem?_map, Option.map_eq_some_iff] at h0
      obtain ⟨p, hp, -⟩ := h0
      have hw : w p.1 p.2 = some v := by
        apply LastWritten.eq_some_of_fill
        intro x
        simpa [hp] using hv x
      obtain ⟨hi, rfl⟩ := List.getElem?_eq_some_iff.mp hp
      have hi' : i < bytes.length := hall.length_eq ▸ hi
      rw [List.getElem?_eq_getElem hi']
      exact congrArg some (hall.get hi hi' v hw)

end Mount

end DhmpFs
