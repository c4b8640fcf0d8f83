import DhmpFs.Fs.Owned
import Mathlib.Order.Basic
import Mathlib.Algebra.Order.Group.Nat

/-!
# The loop of `dhmp_fs_read`

A read that does not start behind the data of its chunk delivers the bytes of the file from its
offset on, up to the first position that has no data.

## Main definitions

* `StartsInData`: the condition on a read.
* `Delivers`: what the ranges of a read amount to.
-/

namespace DhmpFs

/-- The byte at an offset of a chunk. -/
def chunkByte (s : Fs) (c : Chunk) (k : Nat) : UInt8 := s.bank (bankId c) (bankOffset c + k)

/-- The byte at a position of a file. -/
def fileByte (s : Fs) (f : InodeId) (o : Nat) : UInt8 :=
  match (s.inodes f).cntId.get (slotOf (o / chunkSize)) with
  | some c => chunkByte s c (o % chunkSize)
  | none => 0

/-- The position lies in the data of its chunk. -/
def InFile (s : Fs) (f : InodeId) (o : Nat) : Prop :=
  o < sizeThirdDirectEnd ∧ ∃ c, (s.inodes f).cntId.get (slotOf (o / chunkSize)) = some c ∧
    o % chunkSize < (s.contextAddr c).size

/-- The range lies in the data of a chunk of `f`. -/
structure Range.Inside (s : Fs) (f : InodeId) (r : Range) : Prop where
  own : ∃ slot, (s.inodes f).cntId.get slot = some r.chunk
  fits : r.chunkOffset + r.length ≤ (s.contextAddr r.chunk).size

/-- A read of nothing, a read past the largest file, or one whose first chunk is missing or has
data up to the offset. -/
def StartsInData (s : Fs) (f : InodeId) (size offset : Nat) : Prop :=
  size = 0 ∨ sizeThirdDirectEnd ≤ offset ∨
    ∀ c, (s.inodes f).cntId.get (slotOf (offset / chunkSize)) = some c →
      offset % chunkSize ≤ (s.contextAddr c).size

/-- The ranges of a read amount to the next `n` bytes of the file, and there are no more or no
more were asked for. -/
structure Delivers (s : Fs) (f : InodeId) (unRead offset : Nat) (ranges : List Range) (n : Nat) :
    Prop where
  inside : ∀ r ∈ ranges, r.Inside s f
  bytes : ranges.flatMap (Range.bytes s) = (List.range n).map fun i => fileByte s f (offset + i)
  length : (ranges.map Range.length).sum = n
  le : n ≤ unRead
  inFile : ∀ i < n, InFile s f (offset + i)
  stop : n < unRead → ¬ InFile s f (offset + n)

section

variable {s : Fs} {f : InodeId} {offset : Nat} {c : Chunk}

/-- One round of the read loop. -/
theorem readLoop_succ (hlt : offset < sizeThirdDirectEnd) {unRead : Nat}
    (hpos : unRead ≠ 0) (rounds : Nat) :
    readLoop s f (rounds + 1) unRead offset =
      match (s.inodes f).cntId.get (slotOf (offset / chunkSize)) with
      | none => some []
      | some c =>
        let now := subU64 (s.contextAddr c).size (offset % chunkSize)
        if now ≤ unRead then
          if now = 0 then some []
          else
            (readLoop s f rounds (unRead - now) (addU64 offset now)).map
              (⟨c, offset % chunkSize, now⟩ :: ·)
        else some [⟨c, offset % chunkSize, unRead⟩] := by
  rw [readLoop, if_neg hpos, level3LocalIndex_read s f hlt]
  cases hget : (s.inodes f).cntId.get (slotOf (offset / chunkSize)) with
  | none => rfl
  | some c => rw [if_pos (FileIndex.hasBlock_of_get hget)]

/-- A read never fails. -/
theorem readLoop_returns (s : Fs) (f : InodeId) (rounds unRead offset : Nat) :
    ∃ ranges, readLoop s f rounds unRead offset = some ranges := by
  induction rounds generalizing unRead offset with
  | zero => exact ⟨[], rfl⟩
  | succ rounds ih =>
    by_cases hpos : unRead = 0
    · exact ⟨[], by simp [readLoop, hpos]⟩
    by_cases hend : sizeThirdDirectEnd ≤ offset
    · exact ⟨[], by simp [readLoop, hpos, level3LocalIndex_end hend]⟩
    rw [readLoop_succ (Nat.not_le.mp hend) hpos]
    cases (s.inodes f).cntId.get (slotOf (offset / chunkSize)) with
    | none => exact ⟨[], rfl⟩
    | some c =>
      dsimp only
      split
      · split
        · exact ⟨[], rfl⟩
        · obtain ⟨ranges, hloop⟩ := ih (unRead - subU64 (s.contextAddr c).size (offset % chunkSize))
            (addU64 offset (subU64 (s.contextAddr c).size (offset % chunkSize)))
          exact ⟨_, by rw [hloop]; rfl⟩
      · exact ⟨_, rfl⟩

/-- The end of a chunk's data is no later than the end of the data of the chunk it lies in. -/
theorem end_le {j : Nat} {c d : Chunk} (hc : (s.inodes f).cntId.get (slotOf j) = some c)
    (hle : (s.contextAddr c).size ≤ chunkSize)
    (hd : (s.inodes f).cntId.get
      (slotOf ((j * chunkSize + (s.contextAddr c).size) / chunkSize)) = some d) :
    (j * chunkSize + (s.contextAddr c).size) % chunkSize ≤ (s.contextAddr d).size := by
  rcases hle.lt_or_eq with hlt | hfull
  · have hdiv : (j * chunkSize + (s.contextAddr c).size) / chunkSize = j := by
      simp only [chunkSize] at *
      omega
    rw [hdiv, hc] at hd
    obtain rfl := Option.some.inj hd
    simp only [chunkSize] at *
    omega
  · rw [hfull]
    simp only [chunkSize]
    omega

/-! ## One range -/

/-- The positions from an offset to the end of its chunk. -/
theorem div_mod_add {i : Nat} (h : offset % chunkSize + i < chunkSize) :
    (offset + i) / chunkSize = offset / chunkSize ∧
      (offset + i) % chunkSize = offset % chunkSize + i := by
  simp only [chunkSize] at *
  omega

theorem range_bytes (hc : (s.inodes f).cntId.get (slotOf (offset / chunkSize)) = some c)
    {len : Nat} (hfit : offset % chunkSize + len ≤ chunkSize) :
    Range.bytes s ⟨c, offset % chunkSize, len⟩ =
      (List.range len).map fun i => fileByte s f (offset + i) := by
  unfold Range.bytes Fs.readFromCache
  refine List.map_congr_left fun i hi => ?_
  have hi : i < len := List.mem_range.mp hi
  obtain ⟨hdiv, hmod⟩ := div_mod_add (by omega : offset % chunkSize + i < chunkSize)
  rw [fileByte, hdiv, hc, hmod, Nat.add_assoc]
  rfl

theorem inFile_add (hlt : offset < sizeThirdDirectEnd)
    (hc : (s.inodes f).cntId.get (slotOf (offset / chunkSize)) = some c)
    (hle : (s.contextAddr c).size ≤ chunkSize) {i : Nat}
    (hi : offset % chunkSize + i < (s.contextAddr c).size) : InFile s f (offset + i) := by
  obtain ⟨hdiv, hmod⟩ := div_mod_add (by omega : offset % chunkSize + i < chunkSize)
  have hend : sizeThirdDirectEnd = 16843108 * chunkSize := rfl
  refine ⟨?_, c, by rw [hdiv, hc], by omega⟩
  simp only [hend, chunkSize] at *
  omega

/-! ## The loop -/

theorem Delivers.nil {unRead : Nat} (h : 0 < unRead → ¬ InFile s f offset) :
    Delivers s f unRead offset [] 0 :=
  ⟨by simp, rfl, rfl, Nat.zero_le _, by simp, h⟩

/-- A range to the end of the data of its chunk, and what follows. -/
theorem Delivers.cons (o : Owned s) (hlt : offset < sizeThirdDirectEnd)
    (hc : (s.inodes f).cntId.get (slotOf (offset / chunkSize)) = some c) {unRead now n : Nat}
    (hnow : offset % chunkSize + now ≤ (s.contextAddr c).size) (hle : now ≤ unRead)
    {ranges : List Range} (h : Delivers s f (unRead - now) (offset + now) ranges n) :
    Delivers s f unRead offset (⟨c, offset % chunkSize, now⟩ :: ranges) (now + n) := by
  have hmax := o.size_le c
  obtain ⟨inside, bytes, length, le, inFile, stop⟩ := h
  refine ⟨?_, ?_, by simp [length], by omega, fun i hi => ?_, fun hlt => ?_⟩
  · rintro r (_ | ⟨_, hr⟩)
    · exact ⟨⟨_, hc⟩, hnow⟩
    · exact inside r hr
  · rw [List.flatMap_cons, range_bytes hc (by omega), bytes, List.range_add, List.map_append,
      List.map_map]
    congr 1
    exact List.map_congr_left fun i _ => by simp [Nat.add_assoc]
  · by_cases hi' : i < now
    · exact inFile_add hlt hc hmax (by omega)
    · have := inFile (i - now) (by omega)
      rwa [Nat.add_assoc, Nat.add_sub_cancel' (Nat.not_lt.mp hi')] at this
  · rw [← Nat.add_assoc]
    exact stop (by omega)

/-- The loop from an offset within the data, or at its end. -/
theorem readLoop_delivers (o : Owned s) {rounds : Nat} (unRead : Nat) (hr : unRead ≤ rounds)
    (hstart : StartsInData s f unRead offset) :
    ∃ ranges n, readLoop s f rounds unRead offset = some ranges ∧
      Delivers s f unRead offset ranges n := by
  induction rounds generalizing unRead offset with
  | zero => exact ⟨[], 0, rfl, .nil (by omega)⟩
  | succ rounds ih =>
    by_cases hpos : unRead = 0
    · exact ⟨[], 0, by simp [readLoop, hpos], .nil (by omega)⟩
    by_cases hend : sizeThirdDirectEnd ≤ offset
    · refine ⟨[], 0, by simp [readLoop, hpos, level3LocalIndex_end hend], .nil fun _ h => ?_⟩
      exact Nat.not_lt.mpr hend h.1
    have hlt := Nat.not_le.mp hend
    have hfit := (hstart.resolve_left hpos).resolve_left hend
    rw [readLoop_succ hlt hpos]
    cases hget : (s.inodes f).cntId.get (slotOf (offset / chunkSize)) with
    | none =>
      refine ⟨[], 0, rfl, .nil ?_⟩
      rintro - ⟨-, c, hc, -⟩
      simp [hget] at hc
    | some c =>
      have hco := hfit c hget
      have hle := o.size_le c
      have hdiv := Nat.div_add_mod' offset chunkSize
      have hsub : subU64 (s.contextAddr c).size (offset % chunkSize) =
          (s.contextAddr c).size - offset % chunkSize :=
        subU64_eq (hle.trans_lt (by decide)) hco
      simp only [hsub]
      split
      · split
        · next hzero =>
          refine ⟨[], 0, rfl, .nil ?_⟩
          rintro - ⟨-, d, hd, hin⟩
          obtain rfl := Option.some.inj (hget.symm.trans hd)
          omega
        · next hle' hne =>
          have hadd : addU64 offset ((s.contextAddr c).size - offset % chunkSize) =
              offset + ((s.contextAddr c).size - offset % chunkSize) := by
            apply addU64_eq
            have : sizeThirdDirectEnd + chunkSize < 2 ^ 64 := by decide
            omega
          have hnext : offset + ((s.contextAddr c).size - offset % chunkSize) =
              offset / chunkSize * chunkSize + (s.contextAddr c).size := by omega
          rw [hadd]
          have hstart' : StartsInData s f
              (unRead - ((s.contextAddr c).size - offset % chunkSize))
              (offset + ((s.contextAddr c).size - offset % chunkSize)) := by
            refine .inr (.inr fun d hd => ?_)
            rw [hnext] at hd ⊢
            exact end_le hget hle hd
          obtain ⟨ranges, n, hloop, hd⟩ := ih _ (by omega) hstart'
          exact ⟨_, _, by rw [hloop]; rfl, hd.cons o hlt hget (by omega) hle'⟩
      · next hmore =>
        refine ⟨_, unRead + 0, rfl, Delivers.cons o hlt hget (by omega) (Nat.le_refl _) ?_⟩
        rw [Nat.sub_self]
        exact .nil (by omega)

end

end DhmpFs
