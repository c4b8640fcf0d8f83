import DhmpFs.Fs.Banks
import DhmpFs.Fs.Ownership
import DhmpFs.Fs.WriteFailure

/-!
# Data of deleted files

Two runs of the same operations that write different bytes. Chunks are recycled without being
cleared, and a chunk counts as data up to its last written byte: a gap in it shows what a deleted
file wrote there. Two runs in which no write leaves such a gap read the same, once the files that
were written differently are gone.

## Main definitions

* `PairStep`: the same operation in both runs.
* `FsOp.CoversOld`: the condition on a write.
* `Agree`: where the banks of the two runs may differ.
-/

namespace DhmpFs

open Library

/-! ## Two runs -/

/-- The same operation on the same paths, offsets and lengths. -/
inductive SameShape : FsOp → FsOp → Prop
  | names {op : FsOp} (h : op.OnNames) : SameShape op op
  | read (fh : InodeId) (size offset : Nat) :
    SameShape (.read fh size offset) (.read fh size offset)
  | write (fh : InodeId) (buf buf' : List UInt8) (offset : Nat)
    (length : buf.length = buf'.length) : SameShape (.write fh buf offset) (.write fh buf' offset)

/-- Two runs side by side. `differing` are the files, still in the tree, that were not written
alike; `touched` are the places of the chunks that were ever written. -/
structure Pair where
  left : Fs
  right : Fs
  differing : Set InodeId
  touched : Set (Chunk × Nat)

/-- Both runs start from the same banks. -/
def Pair.start (bank : Banks) : Pair := ⟨dhmpInit bank, dhmpInit bank, ∅, ∅⟩

/-- The places an operation has written, seen in the state after it. -/
def FsOp.places (s' : Fs) : FsOp → Set (Chunk × Nat)
  | .write fh buf offset => {x | ∃ p, offset ≤ p ∧ p < offset + buf.length ∧
      (s'.inodes fh).cntId.get (slotOf (p / chunkSize)) = some x.1 ∧ x.2 = p % chunkSize}
  | _ => ∅

/-- The operations write different bytes to `f`. -/
def DifferAt (op op' : FsOp) (f : InodeId) : Prop :=
  op ≠ op' ∧ ∃ buf offset, op = .write f buf offset

/-- One operation in both runs. -/
structure PairStep (p : Pair) (ops : FsOp × FsOp) (q : Pair) : Prop where
  shape : SameShape ops.1 ops.2
  left : FsStep p.left ops.1 q.left
  right : FsStep p.right ops.2 q.right
  differing : ∀ f, f ∈ q.differing ↔
    InTree q.left f ∧ (f ∈ p.differing ∨ DifferAt ops.1 ops.2 f)
  touched : q.touched = p.touched ∪ ops.1.places q.left

/-- The state of both runs after an operation that returns. -/
def Pair.next (p : Pair) (ops : FsOp × FsOp) : Pair where
  left := ops.1.next p.left
  right := ops.2.next p.right
  differing := {f | InTree (ops.1.next p.left) f ∧ (f ∈ p.differing ∨ DifferAt ops.1 ops.2 f)}
  touched := p.touched ∪ ops.1.places (ops.1.next p.left)

theorem PairStep.next {p : Pair} {op op' : FsOp} (shape : SameShape op op')
    (handle : op.Handle p.left ∧ op'.Handle p.right)
    (returns : (op.run p.left).isSome = true ∧ (op'.run p.right).isSome = true) :
    PairStep p (op, op') (p.next (op, op')) :=
  ⟨shape, .next handle.1 returns.1, .next handle.2 returns.2, fun _ => Iff.rfl, rfl⟩

/-- The chunk a write starts in: that of its slot, or else the next free one. -/
def startChunk (s : Fs) (f : InodeId) (offset : Nat) : Option Chunk :=
  match (s.inodes f).cntId.get (slotOf (offset / chunkSize)) with
  | some c => some c
  | none => (getFreeContext s).2

/-- Between the data of the chunk a write starts in and the offset nothing was ever written. -/
def FsOp.CoversOld (p : Pair) : FsOp → Prop
  | .write fh buf offset => buf = [] ∨ ∀ c, startChunk p.left fh offset = some c →
      ∀ k, (p.left.contextAddr c).size ≤ k → k < offset % chunkSize → (c, k) ∉ p.touched
  | _ => True

/-! ## Where the banks differ -/

/-- The banks `b` agree with those of `s`, but for places that were written, and these either lie
behind the data of their chunk or belong to a file in `D`. -/
def Agree (D : Set InodeId) (W : Set (Chunk × Nat)) (s : Fs) (b : Banks) : Prop :=
  ∀ c k, k < chunkSize → chunkByte s c k ≠ chunkByte (s.withBank b) c k →
    (c, k) ∈ W ∧ ((s.contextAddr c).size ≤ k ∨
      ∃ f ∈ D, ∃ slot, (s.inodes f).cntId.get slot = some c)

section

variable {D D' : Set InodeId} {W W' : Set (Chunk × Nat)} {s s' s1 : Fs} {b : Banks} {f : InodeId}

theorem Agree.mono (h : Agree D W s b) (hD : D ⊆ D') (hW : W ⊆ W') : Agree D' W' s b := by
  intro c k hk hne
  obtain ⟨hw, hor⟩ := h c k hk hne
  exact ⟨hW hw, hor.imp_right fun ⟨g, hg, hown⟩ => ⟨g, hD hg, hown⟩⟩

/-- Operations on names. -/
theorem Agree.names (h : Agree D W s b) (o : Owned s) (o' : Owned s') (hbank : s'.bank = s.bank)
    (hkeep : KeepsContexts s s') : Agree D W s' b := by
  intro c k hk hne
  obtain ⟨hw, hor⟩ := h c k hk (by simpa [chunkByte, hbank] using hne)
  refine ⟨hw, ?_⟩
  rcases hkeep c with hsame | hblank
  · rw [hsame]
    refine hor.imp_right ?_
    rintro ⟨g, hg, slot, hget⟩
    refine ⟨g, hg, slot, ?_⟩
    rw [o'.which_iff, hsame, ← o.which_iff]
    exact hget
  · exact .inl (by simp [hblank])

/-! ## Writes -/

theorem getFreeContext_withBank :
    getFreeContext (s.withBank b) = Prod.map (·.withBank b) id (getFreeContext s) := by
  unfold getFreeContext getFreeChunk
  rw [Fs.withBank_bitmap, Fs.withBank_cursor]
  rcases scanBitmap chunkNum s.bitmap chunkNum s.cursor with ⟨i, _ | _⟩ <;> rfl

theorem slotContext_withBank (slot : Slot) :
    slotContext (s.withBank b) f slot false =
      (slotContext s f slot false).map (Prod.map (·.withBank b) id) := by
  unfold slotContext
  rw [Fs.withBank_inodes]
  cases (s.inodes f).cntId.get slot with
  | some c => rfl
  | none =>
    simp only [getFreeContext_withBank]
    rcases getFreeContext s with ⟨t, _ | c⟩ <;> rfl

theorem reach_withBank (slot : Slot) :
    reach (s.withBank b) f false slot =
      (reach s f false slot).map (Prod.map (·.withBank b) id) := by
  cases slot with
  | triple in3 in2 in1 =>
    simp only [reach, withBlock, Fs.withBank_inodes, Fs.withBank_modify, slotContext_withBank]
    split <;> rfl
  | _ => exact slotContext_withBank _

theorem getFreeContext_slotContext {slot : Slot} {c : Chunk}
    (hget : (s.inodes f).cntId.get slot = none)
    (h : slotContext s f slot false = some (s1, some c)) : (getFreeContext s).2 = some c := by
  unfold slotContext at h
  rw [hget] at h
  rcases hc : getFreeContext s with ⟨t, _ | d⟩
  · simp [hc] at h
  · simpa [hc] using congrArg (Option.map Prod.snd) h

/-- A lookup finds the chunk the write starts in. -/
theorem startChunk_of_reach {offset : Nat} {c : Chunk}
    (h : reach s f false (slotOf (offset / chunkSize)) = some (s1, some c)) :
    startChunk s f offset = some c := by
  unfold startChunk
  generalize slotOf (offset / chunkSize) = slot at h
  cases hget : (s.inodes f).cntId.get slot with
  | some d =>
    rw [reach_hit hget] at h
    simp only [Option.some.injEq, Prod.mk.injEq] at h
    rw [h.2]
  | none =>
    cases slot with
    | triple in3 in2 in1 =>
      simp only [reach, withBlock] at h
      split at h
      · exact getFreeContext_slotContext hget h
      · have hfree := getFreeContext_slotContext (by simp [FileIndex.get]) h
        rw [← hfree]
        unfold getFreeContext getFreeChunk
        rw [Fs.modify_bitmap, Fs.modify_cursor]
        rcases scanBitmap chunkNum s.bitmap chunkNum s.cursor with ⟨i, _ | _⟩ <;> rfl
    | _ => exact getFreeContext_slotContext hget h

theorem placeBytes_withBank {c : Chunk} {co : Nat} {bytes bytes' : List UInt8}
    (h : bytes.length = bytes'.length) :
    placeBytes (s.withBank b) f c co bytes' = (placeBytes s f c co bytes).withBank
      (placeBytes (s.withBank b) f c co bytes').bank := by
  unfold placeBytes
  rw [h]
  rfl

/-- One round. -/
theorem Agree.placeBytes (h : Agree D W s b) {offset : Nat} {c : Chunk}
    (loc : Located s f (slotOf (offset / chunkSize)) c s1) {bytes bytes' : List UInt8}
    (hlen : bytes.length = bytes'.length) (hfit : offset % chunkSize + bytes.length ≤ chunkSize)
    (hgap : ∀ k, (s.contextAddr c).size ≤ k → k < offset % chunkSize → (c, k) ∉ W)
    (hD : f ∈ D ∨ bytes = bytes') :
    Agree D (W ∪ {x | x.1 = c ∧ offset % chunkSize ≤ x.2 ∧ x.2 < offset % chunkSize + bytes.length})
      (DhmpFs.placeBytes s1 f c (offset % chunkSize) bytes)
      (DhmpFs.placeBytes (s1.withBank b) f c (offset % chunkSize) bytes').bank := by
  intro d k hk hne
  have hself : ((DhmpFs.placeBytes s1 f c (offset % chunkSize) bytes).inodes f).cntId.get
      (slotOf (offset / chunkSize)) = some c := by
    rw [Holds.placeBytes_index, loc.get]
  rw [← placeBytes_withBank hlen, Holds.placeBytes_byte f hk hfit,
    Holds.placeBytes_byte f hk (hlen ▸ hfit), ← hlen] at hne
  by_cases hin : d = c ∧ offset % chunkSize ≤ k ∧ k < offset % chunkSize + bytes.length
  · rw [if_pos hin, if_pos hin] at hne
    rcases hD with hD | rfl
    · exact ⟨.inr hin, .inr ⟨f, hD, _, by rw [hin.1]; exact hself⟩⟩
    · exact absurd rfl hne
  · rw [if_neg hin, if_neg hin] at hne
    have hold : chunkByte s d k ≠ chunkByte (s.withBank b) d k := by
      simpa [chunkByte, loc.bank] using hne
    obtain ⟨hw, hor⟩ := h d k hk hold
    refine ⟨.inl hw, ?_⟩
    rw [Holds.placeBytes_size, loc.size]
    have hkept : (∃ g ∈ D, ∃ slot, (s.inodes g).cntId.get slot = some d) → ∃ g ∈ D, ∃ slot,
        ((DhmpFs.placeBytes s1 f c (offset % chunkSize) bytes).inodes g).cntId.get slot =
          some d := by
      rintro ⟨g, hg, slot, hget⟩
      exact ⟨g, hg, slot, by rw [Holds.placeBytes_index, loc.get_of_get hget]⟩
    by_cases hd : d = c
    · subst hd
      rw [if_pos rfl]
      rcases hor with hsize | hown
      · have hgap' : ¬ k < offset % chunkSize := fun hlt => hgap k hsize hlt hw
        have : ¬ (offset % chunkSize ≤ k ∧ k < offset % chunkSize + bytes.length) :=
          fun h => hin ⟨rfl, h⟩
        exact .inl (by omega)
      · exact .inr (hkept hown)
    · rw [if_neg hd, loc.size]
      exact hor.imp_right hkept

/-- A write takes no slot away. -/
theorem writeLoop_get (o : Owned s) {rounds offset : Nat} {rest : List UInt8} {slot : Slot}
    {c : Chunk} (hr : rest.length ≤ rounds) (h : writeLoop rounds s f rest offset = some s')
    (hget : (s.inodes f).cntId.get slot = some c) : (s'.inodes f).cntId.get slot = some c := by
  have hrule := writeLoop_rule offset
    (fun _ t => Owned t ∧ (t.inodes f).cntId.get slot = some c) (fun _ _ => And.left) ?_ [] hr
    ⟨o, hget⟩ (by simpa using h)
  · exact hrule.2
  · rintro done t piece u ⟨ot, ht⟩ hw
    refine ⟨hw.owned ot, ?_⟩
    obtain ⟨-, -, -, t1, d, loc, rfl⟩ := hw
    rw [Holds.placeBytes_index, loc.get_of_get ht]

/-- After its first round a write is over or at the start of a chunk. -/
theorem drop_or_starts_chunk (rest : List UInt8) (offset : Nat) :
    rest.drop (chunkSize - offset % chunkSize) = [] ∨
      (offset + (rest.take (chunkSize - offset % chunkSize)).length) % chunkSize = 0 := by
  by_cases hrest : rest.length ≤ chunkSize - offset % chunkSize
  · exact .inl (List.drop_eq_nil_of_le hrest)
  · right
    rw [List.length_take]
    simp only [chunkSize] at *
    omega

/-- The places of a write are those of its first round and those of the rest. -/
theorem places_round {c : Chunk} {rest : List UInt8} {offset n : Nat}
    (hn : n = min (chunkSize - offset % chunkSize) rest.length)
    (hself : (s'.inodes f).cntId.get (slotOf (offset / chunkSize)) = some c) :
    (W ∪ {x | x.1 = c ∧ offset % chunkSize ≤ x.2 ∧ x.2 < offset % chunkSize + n}) ∪
        (FsOp.write f (rest.drop (chunkSize - offset % chunkSize)) (offset + n)).places s' ⊆
      W ∪ (FsOp.write f rest offset).places s' := by
  rintro ⟨d, k⟩ ((hW | ⟨rfl, hlo, hhi⟩) | ⟨p, hlo, hhi, hget, rfl⟩)
  · exact .inl hW
  · simp only at hlo hhi
    obtain ⟨hdiv, hmod⟩ := div_mod_add
      (by omega : offset % chunkSize + (k - offset % chunkSize) < chunkSize)
    refine .inr ⟨offset + (k - offset % chunkSize), by omega, by omega, ?_, ?_⟩
    · rw [hdiv]
      exact hself
    · simp only
      omega
  · refine .inr ⟨p, by omega, ?_, hget, rfl⟩
    rw [List.length_drop] at hhi
    omega

/-- The loop of a write in both runs. -/
theorem Agree.writeLoop (o : Owned s) (h : Agree D W s b) {rounds offset : Nat}
    {rest rest' : List UInt8} (hlen : rest.length = rest'.length) (hr : rest.length ≤ rounds)
    (hgap : rest = [] ∨ ∀ c, startChunk s f offset = some c →
      ∀ k, (s.contextAddr c).size ≤ k → k < offset % chunkSize → (c, k) ∉ W)
    (hD : f ∈ D ∨ rest = rest') {t' : Fs} (hs : DhmpFs.writeLoop rounds s f rest offset = some s')
    (ht : DhmpFs.writeLoop rounds (s.withBank b) f rest' offset = some t') :
    t' = s'.withBank t'.bank ∧
      Agree D (W ∪ (FsOp.write f rest offset).places s') s' t'.bank := by
  induction rounds generalizing s b W rest rest' offset with
  | zero =>
    obtain rfl : s = s' := Option.some.inj hs
    obtain rfl : s.withBank b = t' := Option.some.inj ht
    exact ⟨rfl, h.mono subset_rfl Set.subset_union_left⟩
  | succ rounds ih =>
    by_cases hne : rest = []
    · obtain rfl : rest' = [] := by simpa [hne] using hlen.symm
      obtain rfl : s = s' := by simpa [DhmpFs.writeLoop, hne] using hs
      obtain rfl : s.withBank b = t' := by simpa [DhmpFs.writeLoop] using ht
      exact ⟨rfl, h.mono subset_rfl Set.subset_union_left⟩
    have hne' : rest' ≠ [] := by
      rintro rfl
      simp [hne] at hlen
    have hpos := List.length_pos_iff.mpr hne
    have hlt : offset < sizeThirdDirectEnd := by
      by_contra hend
      simp [DhmpFs.writeLoop, hne, level3LocalIndex_end (Nat.le_of_not_lt hend)] at hs
    have hmod := Nat.mod_lt offset chunkSize_pos
    cases hreach : reach s f false (slotOf (offset / chunkSize)) with
    | none =>
      simp [DhmpFs.writeLoop, hne, level3LocalIndex_write (o.complete f) hlt, hreach] at hs
    | some r =>
      obtain ⟨s1, cnt⟩ := r
      obtain ⟨c, rfl, loc⟩ := reach_write (o.complete f) hreach
      have o1 := loc.owned o
      have ob : ∀ u : Fs, Owned u → Owned (u.withBank b) := fun u ou =>
        ou.congr (fun i => ⟨ou.complete i, fun _ => rfl, rfl, rfl⟩) rfl rfl rfl
      have hreach' : reach (s.withBank b) f false (slotOf (offset / chunkSize)) =
          some (s1.withBank b, some c) := by
        rw [reach_withBank, hreach]
        rfl
      have htake : (rest.take (chunkSize - offset % chunkSize)).length =
          min (chunkSize - offset % chunkSize) rest.length := List.length_take
      have hpiece : (rest.take (chunkSize - offset % chunkSize)).length =
          (rest'.take (chunkSize - offset % chunkSize)).length := by
        rw [htake, List.length_take, hlen]
      rw [writeLoop_succ o rounds hne hlt hreach o1] at hs
      rw [writeLoop_succ (ob s o) rounds hne' hlt hreach' (ob s1 o1), ← hpiece,
        placeBytes_withBank hpiece] at ht
      have hround := h.placeBytes loc hpiece (by omega)
        (hgap.resolve_left hne c (startChunk_of_reach hreach))
        (hD.imp_right fun h => by rw [h])
      have hw : ChunkWrite f s offset (rest.take (chunkSize - offset % chunkSize)) _ :=
        ⟨List.ne_nil_of_length_pos (by omega), hlt, by omega, s1, c, loc, rfl⟩
      have hgap' := drop_or_starts_chunk rest offset
      obtain ⟨hsame, hagree⟩ := ih (hw.owned o) hround (by simp [hlen])
        (by rw [List.length_drop]; omega)
        (hgap'.imp_right fun hzero d _ k _ hk => absurd hk (by omega))
        (hD.imp_right fun h => by rw [h]) hs ht
      refine ⟨hsame, hagree.mono subset_rfl ?_⟩
      have hself : (s'.inodes f).cntId.get (slotOf (offset / chunkSize)) = some c := by
        refine writeLoop_get (hw.owned o) (by rw [List.length_drop]; omega) hs ?_
        rw [Holds.placeBytes_index, loc.get]
      exact places_round htake hself

/-- Only files in the tree own chunks. -/
theorem Agree.inTree (h : Agree D W s b) (hinv : FsInv s)
    (hD : ∀ g, g ∈ D → InTree s g → g ∈ D') : Agree D' W s b := by
  obtain ⟨o, kids, ht⟩ := hinv
  intro c k hk hne
  obtain ⟨hw, hor⟩ := h c k hk hne
  refine ⟨hw, hor.imp_right fun ⟨g, hg, slot, hget⟩ => ⟨g, hD g hg ?_, slot, hget⟩⟩
  exact (ht.owner_of_get o hget).inTree

/-- A write in both runs. -/
theorem Agree.dhmpFsWrite (o : Owned s) (h : Agree D W s b) {offset : Nat} {buf buf' : List UInt8}
    (hlen : buf.length = buf'.length)
    (hgap : buf = [] ∨ ∀ c, startChunk s f offset = some c →
      ∀ k, (s.contextAddr c).size ≤ k → k < offset % chunkSize → (c, k) ∉ W)
    (hD : f ∈ D ∨ buf = buf') {t' : Fs} {res res' : Int}
    (hs : DhmpFs.dhmpFsWrite s f buf offset = some (s', res))
    (ht : DhmpFs.dhmpFsWrite (s.withBank b) f buf' offset = some (t', res')) :
    t' = s'.withBank t'.bank ∧
      Agree D (W ∪ (FsOp.write f buf offset).places s') s' t'.bank := by
  unfold DhmpFs.dhmpFsWrite at hs ht
  rw [Fs.withBank_inodes] at ht
  cases hdir : (s.inodes f).isDirectories with
  | true =>
    rw [hdir, if_pos rfl, Option.some.injEq, Prod.mk.injEq] at hs ht
    obtain ⟨rfl, -⟩ := hs
    obtain ⟨rfl, -⟩ := ht
    exact ⟨rfl, h.mono subset_rfl Set.subset_union_left⟩
  | false =>
    rw [hdir, if_neg Bool.false_ne_true, Option.map_eq_some_iff] at hs ht
    obtain ⟨u, hu, he⟩ := hs
    obtain ⟨v, hv, he'⟩ := ht
    obtain ⟨rfl, -⟩ := Prod.mk.inj he
    obtain ⟨rfl, -⟩ := Prod.mk.inj he'
    exact h.writeLoop o hlen (Nat.le_refl _) hgap hD hu (hlen ▸ hv)

/-! ## Reads -/

theorem readLoop_withBank (rounds unRead offset : Nat) :
    readLoop (s.withBank b) f rounds unRead offset = readLoop s f rounds unRead offset := by
  induction rounds generalizing unRead offset with
  | zero => rfl
  | succ rounds ih =>
    by_cases hpos : unRead = 0
    · simp [readLoop, hpos]
    by_cases hend : sizeThirdDirectEnd ≤ offset
    · simp [readLoop, level3LocalIndex_end hend]
    rw [readLoop_succ (Nat.not_le.mp hend) hpos, readLoop_succ (Nat.not_le.mp hend) hpos]
    simp only [Fs.withBank_inodes, Fs.withBank_contextAddr, ih]

/-- Data that no differing file owns reads the same. -/
theorem Agree.dhmpFsRead (o : Owned s) (h : Agree ∅ W s b) {size offset : Nat}
    (hstart : StartsInData s f size offset) :
    DhmpFs.dhmpFsRead (s.withBank b) f size offset = DhmpFs.dhmpFsRead s f size offset := by
  obtain ⟨ranges, n, hloop, hd⟩ := readLoop_delivers o size (Nat.le_refl _) hstart
  have hbytes : ∀ r ∈ ranges, Range.bytes (s.withBank b) r = Range.bytes s r := by
    intro r hr
    have hfits := (hd.inside r hr).fits
    refine List.map_congr_left fun k hk => ?_
    have hk := List.mem_range.mp hk
    have hle := o.size_le r.chunk
    by_contra hne
    rw [Nat.add_assoc] at hne
    obtain ⟨-, hsize | ⟨g, hg, -⟩⟩ := h r.chunk (r.chunkOffset + k) (by omega) (Ne.symm hne)
    · omega
    · exact hg
  have hflat : ranges.flatMap (Range.bytes (s.withBank b)) = ranges.flatMap (Range.bytes s) := by
    rw [List.flatMap_def, List.flatMap_def, List.map_congr_left hbytes]
  simp only [DhmpFs.dhmpFsRead, readLoop_withBank, hloop, Option.map_some, hflat]
  rfl

end

/-! ## Runs -/

/-- The runs differ in nothing but the bytes of places that are not data, or belong to a file that
was written differently. -/
structure PairInv (p : Pair) : Prop where
  inv : FsInv p.left
  same : p.right = p.left.withBank p.right.bank
  agree : Agree p.differing p.touched p.left p.right.bank

theorem PairInv.step {p q : Pair} {ops : FsOp × FsOp} (h : PairInv p)
    (hgap : ops.1.CoversOld p) (hs : PairStep p ops q) : PairInv q := by
  obtain ⟨op, op'⟩ := ops
  obtain ⟨shape, left, right, differing, touched⟩ := hs
  simp only at shape left right differing touched hgap
  have inv := fsInv_step h.inv left
  have handle := left.1
  have hleft := left
  obtain ⟨-, res, hr⟩ := left
  obtain ⟨-, res', hr'⟩ := right
  rw [h.same] at hr'
  have inTree : ∀ {W : Set (Chunk × Nat)} {b : Banks}, Agree p.differing W q.left b →
      Agree q.differing W q.left b := fun hagree =>
    hagree.inTree inv fun g hg hin => (differing g).mpr ⟨hin, .inl hg⟩
  cases shape with
  | names hop =>
    rw [FsOp.run_withBank hop, hr, Option.map_some, Option.some.injEq, Prod.mk.injEq] at hr'
    have hright : q.right = q.left.withBank p.right.bank := hr'.1.symm
    have hplaces : op.places q.left = ∅ := by cases op <;> first | rfl | exact hop.elim
    refine ⟨inv, by rw [hright]; rfl, ?_⟩
    rw [hright, touched, hplaces, Set.union_empty]
    exact inTree (h.agree.names h.inv.1 inv.1 (FsOp.run_bank hop hr)
      (hleft.keepsContexts h.inv hop))
  | read fh size offset =>
    obtain ⟨x, -, hx⟩ := Option.map_eq_some_iff.mp hr
    obtain ⟨y, -, hy⟩ := Option.map_eq_some_iff.mp hr'
    have hq : p.left = q.left := (Prod.mk.inj hx).1
    have hq' : p.left.withBank p.right.bank = q.right := (Prod.mk.inj hy).1
    refine ⟨inv, by rw [← hq', hq]; rfl, ?_⟩
    rw [← hq', touched]
    refine inTree ?_
    rw [← hq]
    exact h.agree.mono subset_rfl Set.subset_union_left
  | write fh buf buf' offset hlen =>
    have hwritten : fh ∈ p.differing ∪ {g | DifferAt (.write fh buf offset)
        (.write fh buf' offset) g} ∨ buf = buf' := by
      by_cases hbuf : buf = buf'
      · exact .inr hbuf
      · exact .inl (.inr ⟨by simpa using hbuf, buf, offset, rfl⟩)
    obtain ⟨hsame, hagree⟩ := (h.agree.mono Set.subset_union_left subset_rfl).dhmpFsWrite h.inv.1
      hlen hgap hwritten hr hr'
    refine ⟨inv, hsame, ?_⟩
    rw [touched]
    refine hagree.inTree inv fun g hg hin => (differing g).mpr ⟨hin, ?_⟩
    exact hg

/-- In two runs of the same operations, in which no write leaves a gap over bytes written before,
a read that does not start behind the data of its chunk returns the same in both runs, once no
file is left that was written differently. -/
theorem noLeak_run {bank : Banks} {ops : List (FsOp × FsOp)} {p : Pair}
    (run : Run (guarded (fun p ops => ops.1.CoversOld p) PairStep) (.start bank) ops p)
    (hd : p.differing = ∅) (f : InodeId) (size offset : Nat)
    (hstart : StartsInData p.left f size offset) :
    dhmpFsRead p.right f size offset = dhmpFsRead p.left f size offset := by
  have hinv : PairInv p := by
    refine run.invariant PairInv (fun p ops q h hs => h.step hs.1 hs.2) ?_
    exact ⟨⟨owned_dhmpInit bank, _, tree_dhmpInit bank⟩, rfl, fun c k _ hne => absurd rfl hne⟩
  obtain ⟨inv, same, agree⟩ := hinv
  rw [hd] at agree
  rw [same]
  exact agree.dhmpFsRead inv.1 hstart

/-- A file is written differently and unlinked, and a new one takes its chunk. -/
def recycledPair : List (FsOp × FsOp) :=
  [(.mknod [47, 97], .mknod [47, 97]), (.write 1 [1] 0, .write 1 [2] 0),
    (.unlink [47, 97], .unlink [47, 97]), (.mknod [47, 98], .mknod [47, 98])]

/-- A byte is written to the new file. -/
def newWrite (offset : Nat) : FsOp × FsOp := (.write 2 [7] offset, .write 2 [7] offset)

def recycledState : Pair := recycledPair.foldl Pair.next (.start fun _ _ => 0)

theorem recycledState_run (offset : Nat) (ok : Pair → FsOp × FsOp → Prop)
    (hok : ∀ p ops, ops ∈ recycledPair ++ [newWrite offset] → ok p ops)
    (returns : ((newWrite offset).1.run recycledState.left).isSome = true ∧
      ((newWrite offset).2.run recycledState.right).isSome = true) :
    Run (guarded ok PairStep) (.start fun _ _ => 0) (recycledPair ++ [newWrite offset])
      (recycledState.next (newWrite offset)) := by
  have file : ∀ (s : Fs) (i : InodeId), s.son rootId = some i → s.bro i = none → InTree s i :=
    fun s i hson hbro => .son .root ⟨[i], ⟨hson, hbro⟩, by simp⟩
  refine .cons ⟨hok _ _ (by simp [recycledPair]),
    .next (.names trivial) ⟨trivial, trivial⟩ ⟨rfl, rfl⟩⟩ ?_
  refine .cons ⟨hok _ _ (by simp [recycledPair]),
    .next (.write 1 [1] [2] 0 rfl) ⟨file _ 1 rfl rfl, file _ 1 rfl rfl⟩ ⟨rfl, rfl⟩⟩ ?_
  refine .cons ⟨hok _ _ (by simp [recycledPair]),
    .next (.names trivial) ⟨trivial, trivial⟩ ⟨rfl, rfl⟩⟩ ?_
  refine .cons ⟨hok _ _ (by simp [recycledPair]),
    .next (.names trivial) ⟨trivial, trivial⟩ ⟨rfl, rfl⟩⟩ ?_
  exact .single ⟨hok _ _ (by simp [newWrite]),
    .next (.write 2 [7] [7] offset rfl) ⟨file _ 2 rfl rfl, file _ 2 rfl rfl⟩ returns⟩

/-- No file is left that was written differently. -/
theorem recycledState_differing (offset : Nat) :
    (recycledState.next (newWrite offset)).differing = ∅ := by
  -- after the unlink only the root is in the tree
  have root : ∀ f, InTree ([.mknod [47, 97], .write 1 [1] 0, .unlink [47, 97]].foldl FsOp.next
      (dhmpInit fun _ _ => 0)) f → f = rootId := by
    intro f hf
    induction hf with
    | root => rfl
    | son _ hc ih =>
      subst ih
      obtain ⟨_ | ⟨i, l⟩, hl, hcount⟩ := hc
      · simp at hcount
      · have hson : (none : Option InodeId) = some i := hl.1
        simp at hson
  ext f
  simp only [Set.mem_empty_iff_false, iff_false]
  rintro ⟨-, ⟨-, ⟨htree, (⟨-, (⟨-, h | h⟩ | ⟨-, buf, o, heq⟩)⟩ | ⟨hne, -⟩)⟩ | ⟨hne, -⟩⟩ | ⟨hne, -⟩⟩
  · exact h
  · exact h.1 rfl
  · obtain rfl := root f htree
    simp at heq
  · exact hne rfl
  · exact hne rfl
  · exact hne rfl

/-- The new file is written from its start. -/
theorem noLeak_run_start :
    dhmpFsRead (recycledState.next (newWrite 0)).right 2 1 0 =
      dhmpFsRead (recycledState.next (newWrite 0)).left 2 1 0 := by
  have run := recycledState_run 0 (fun p ops => ops.1.CoversOld p) (by
    intro p ops hops
    have hzero : ∀ fh buf, (FsOp.write fh buf 0).CoversOld p :=
      fun fh buf => .inr fun _ _ k _ hk => absurd hk (Nat.not_lt_zero k)
    simp only [recycledPair, newWrite, List.cons_append, List.nil_append, List.mem_cons,
      List.not_mem_nil, or_false] at hops
    rcases hops with rfl | rfl | rfl | rfl | rfl <;> first | trivial | exact hzero _ _)
    (by decide +kernel)
  exact noLeak_run run (recycledState_differing 0) 2 1 0 (.inr (.inr fun _ _ => Nat.zero_le _))

/-- The new file is written from its second byte on: its first byte reads as that of the deleted
file. -/
theorem not_noLeak_gap :
    Run PairStep (.start fun _ _ => 0) (recycledPair ++ [newWrite 1])
      (recycledState.next (newWrite 1)) ∧
    (recycledState.next (newWrite 1)).differing = ∅ ∧
    ((recycledState.next (newWrite 1)).left.inodes 2).size = 2 ∧
    dhmpFsRead (recycledState.next (newWrite 1)).left 2 1 0 = some ([1], 1) ∧
    dhmpFsRead (recycledState.next (newWrite 1)).right 2 1 0 = some ([2], 1) :=
  ⟨(recycledState_run 1 (fun _ _ => True) (fun _ _ _ => trivial) (by decide +kernel)).mono
      fun _ _ _ h => h.2,
    recycledState_differing 1, by decide +kernel, by decide +kernel, by decide +kernel⟩

end DhmpFs
