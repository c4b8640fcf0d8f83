import DhmpFs.Fs.Content
import Mathlib.Order.Interval.Finset.Nat

/-!
# Writes that cannot be mapped

`dhmp_fs_write` looks at no `NULL`: neither at that of `get_free_context`, which
`level3_local_index` dereferences, nor at that of an offset past the largest file. A request
fails in this way exactly when it goes past the end, or needs more chunks than are free.

## Main definitions

* `Unmappable`: a part of the request has no place.
* `FailsSafely`: what should happen then.
-/

namespace DhmpFs

open Library

/-- The free chunks of the pool. -/
def freeChunks (s : Fs) : Finset Chunk := {c ∈ Finset.range chunkNum | s.bitmap c = false}

/-- The chunks of a file that a request touches. -/
def touchedChunks (offset size : Nat) : Finset Nat :=
  (Finset.range size).image fun k => (offset + k) / chunkSize

/-- Those of them that do not exist. -/
def missingChunks (s : Fs) (f : InodeId) (offset size : Nat) : Finset Nat :=
  {j ∈ touchedChunks offset size | (s.inodes f).cntId.get (slotOf j) = none}

/-- Some part of the request goes past the largest file, or finds no free chunk. -/
def Unmappable (s : Fs) (f : InodeId) (offset size : Nat) : Prop :=
  (0 < size ∧ sizeThirdDirectEnd < offset + size) ∨
    (freeChunks s).card < (missingChunks s f offset size).card

/-- The write returns. Either it returns an error and changes nothing, or it has written as
many bytes as it says and nothing else. -/
def FailsSafely (s : Fs) (f : InodeId) (buf : List UInt8) (offset : Nat) : Prop :=
  ∃ s' res, dhmpFsWrite s f buf offset = some (s', res) ∧
    (res < 0 ∧ s' = s ∨ ∃ n < buf.length, res = n ∧ ∃ res',
      dhmpFsWrite s f (buf.take n) offset = some (s', res'))

section

variable {s s' : Fs} {f : InodeId} {offset : Nat} {bytes rest : List UInt8}

theorem touchedChunks_append {n : Nat} (hne : bytes ≠ [])
    (hfit : offset % chunkSize + bytes.length ≤ chunkSize) :
    touchedChunks offset (bytes.length + n) =
      insert (offset / chunkSize) (touchedChunks (offset + bytes.length) n) := by
  have hpos := List.length_pos_iff.mpr hne
  ext j
  simp only [touchedChunks, Finset.mem_image, Finset.mem_range, Finset.mem_insert, chunkSize] at *
  constructor
  · rintro ⟨k, hk, rfl⟩
    by_cases hkb : k < bytes.length
    · left
      omega
    · right
      exact ⟨k - bytes.length, by omega, by congr 1; omega⟩
  · rintro (rfl | ⟨k, hk, rfl⟩)
    · exact ⟨0, by omega, rfl⟩
    · exact ⟨bytes.length + k, by omega, by rw [Nat.add_assoc]⟩

/-- A round that writes maps the chunk it writes to, and no other. -/
theorem ChunkWrite.get_eq (h : ChunkWrite f s offset bytes s') (j : Nat) :
    (s'.inodes f).cntId.get (slotOf j) = none ↔
      j ≠ offset / chunkSize ∧ (s.inodes f).cntId.get (slotOf j) = none := by
  obtain ⟨-, -, -, s1, c, loc, rfl⟩ := h
  have hindex := Holds.placeBytes_index s1 f f c (offset % chunkSize) bytes
  rw [hindex]
  by_cases hj : j = offset / chunkSize
  · subst hj
    simp [loc.get]
  · have hslot : slotOf j ≠ slotOf (offset / chunkSize) := fun h => hj (slotOf_injective h)
    simp [loc.get_ne hslot, hj]

theorem ChunkWrite.missingChunks (h : ChunkWrite f s offset bytes s') (n : Nat) :
    missingChunks s' f (offset + bytes.length) n =
      (missingChunks s f offset (bytes.length + n)).erase (offset / chunkSize) := by
  ext j
  rw [DhmpFs.missingChunks, DhmpFs.missingChunks, touchedChunks_append h.nonempty h.fits]
  simp only [Finset.mem_filter, Finset.mem_erase, Finset.mem_insert, h.get_eq]
  tauto

/-- What a round takes from the pool it takes for the chunk it writes to. -/
theorem ChunkWrite.card_free (o : Owned s) (h : ChunkWrite f s offset bytes s') (n : Nat) :
    (freeChunks s).card + (DhmpFs.missingChunks s' f (offset + bytes.length) n).card =
      (freeChunks s').card + (DhmpFs.missingChunks s f offset (bytes.length + n)).card := by
  rw [h.missingChunks]
  have hmem : offset / chunkSize ∈ DhmpFs.missingChunks s f offset (bytes.length + n) ↔
      (s.inodes f).cntId.get (slotOf (offset / chunkSize)) = none := by
    rw [DhmpFs.missingChunks, touchedChunks_append h.nonempty h.fits]
    simp
  obtain ⟨-, -, -, s1, c, loc, rfl⟩ := h
  have hfree : freeChunks (placeBytes s1 f c (offset % chunkSize) bytes) = freeChunks s1 := rfl
  rw [hfree]
  cases loc with
  | hit hit => rw [Finset.erase_eq_of_notMem (by simp [hmem, hit])]
  | alloc a =>
    have hc : c ∈ freeChunks s := by
      simp [freeChunks, a.free, a.lt o.cursor_lt]
    have herase : freeChunks s1 = (freeChunks s).erase c := by
      ext d
      by_cases hd : d = c <;> simp [freeChunks, a.eq, hd]
    have hj := hmem.mpr a.empty
    have := Finset.card_pos.mpr ⟨_, hc⟩
    have := Finset.card_pos.mpr ⟨_, hj⟩
    rw [herase, Finset.card_erase_of_mem hc, Finset.card_erase_of_mem hj]
    omega

theorem ChunkWrite.end_le (h : ChunkWrite f s offset bytes s') :
    offset + bytes.length ≤ sizeThirdDirectEnd := by
  have hend : sizeThirdDirectEnd = 16843108 * chunkSize := rfl
  have hlt := h.lt
  have hfit := h.fits
  simp only [hend, chunkSize] at *
  omega

/-- A round changes nothing about whether the request can be mapped. -/
theorem ChunkWrite.unmappable_iff (o : Owned s) (h : ChunkWrite f s offset bytes s') (n : Nat) :
    Unmappable s f offset (bytes.length + n) ↔ Unmappable s' f (offset + bytes.length) n := by
  have hcard := h.card_free o n
  have hend := h.end_le
  unfold Unmappable
  constructor <;> rintro (⟨hpos, hlt⟩ | hlt)
  · exact .inl (by omega)
  · exact .inr (by omega)
  · exact .inl (by omega)
  · exact .inr (by omega)

/-! ## The loop -/

/-- The loop dereferences `NULL` exactly when it cannot map the request. -/
theorem writeLoop_eq_none_iff (o : Owned s) {rounds : Nat} (hr : rest.length ≤ rounds) :
    writeLoop rounds s f rest offset = none ↔ Unmappable s f offset rest.length := by
  have nothing : ∀ t : Fs, ∀ o, ¬ Unmappable t f o 0 := by
    intro t o
    simp [Unmappable, missingChunks, touchedChunks]
  induction rounds generalizing s rest offset with
  | zero =>
    obtain rfl : rest = [] := by simpa using hr
    simp [writeLoop, nothing]
  | succ rounds ih =>
    by_cases hne : rest = []
    · simp [writeLoop, hne, nothing]
    have hpos := List.length_pos_iff.mpr hne
    by_cases hend : sizeThirdDirectEnd ≤ offset
    · have hun : Unmappable s f offset rest.length := .inl ⟨hpos, by omega⟩
      simp [writeLoop, hne, level3LocalIndex_end hend, hun]
    rcases writeLoop_round o rounds f hne (Nat.not_le.mp hend) with
      ⟨hnone, hfull, hempty⟩ | ⟨piece, rest', t, rfl, hw, heq⟩
    · have hfree : freeChunks s = ∅ := by
        refine Finset.filter_eq_empty_iff.mpr fun c hc => ?_
        simp [hfull c (Finset.mem_range.mp hc)]
      have hmem : offset / chunkSize ∈ missingChunks s f offset rest.length := by
        refine Finset.mem_filter.mpr ⟨Finset.mem_image.mpr ⟨0, ?_, rfl⟩, hempty⟩
        exact Finset.mem_range.mpr hpos
      have hun : Unmappable s f offset rest.length := by
        right
        rw [hfree, Finset.card_empty]
        exact Finset.card_pos.mpr ⟨_, hmem⟩
      simp [hnone, hun]
    · have hpiece := List.length_pos_iff.mpr hw.nonempty
      rw [List.length_append] at hr ⊢
      rw [heq, hw.unmappable_iff o]
      exact ih (hw.owned o) (by omega)

theorem dhmpFsWrite_eq_none_iff (o : Owned s) {buf : List UInt8} :
    dhmpFsWrite s f buf offset = none ↔
      (s.inodes f).isDirectories = false ∧ Unmappable s f offset buf.length := by
  cases hdir : (s.inodes f).isDirectories with
  | true => simp [dhmpFsWrite, hdir]
  | false => simp [dhmpFsWrite, hdir, writeLoop_eq_none_iff o (Nat.le_refl buf.length)]

/-- The write of a regular file returns its length exactly when it can map the whole request. -/
theorem dhmpFsWrite_returns_iff (o : Owned s) {buf : List UInt8}
    (hf : (s.inodes f).isDirectories = false) (hlen : buf.length < 2 ^ 31) :
    (∃ s', dhmpFsWrite s f buf offset = some (s', (buf.length : Int))) ↔
      ¬ Unmappable s f offset buf.length := by
  constructor
  · rintro ⟨s', hs'⟩ hun
    rw [(dhmpFsWrite_eq_none_iff o).mpr ⟨hf, hun⟩] at hs'
    cases hs'
  · intro hmap
    rw [← writeLoop_eq_none_iff o (Nat.le_refl _)] at hmap
    obtain ⟨s', hs'⟩ := Option.ne_none_iff_exists'.mp hmap
    refine ⟨s', ?_⟩
    rw [dhmpFsWrite, if_neg (by simp [hf]), hs', Option.map_some, toInt_eq hlen]

/-- What a write takes from the pool are the chunks that were missing. -/
theorem dhmpFsWrite_card_free (o : Owned s) {buf : List UInt8} {res : Int}
    (hf : (s.inodes f).isDirectories = false)
    (h : dhmpFsWrite s f buf offset = some (s', res)) :
    (freeChunks s).card = (freeChunks s').card + (missingChunks s f offset buf.length).card := by
  -- with `n` bytes still to come
  have hrule := dhmpFsWrite_rule (fun done t => Owned t ∧ ∀ n,
      (freeChunks s).card + (missingChunks t f (offset + done.length) n).card =
        (freeChunks t).card + (missingChunks s f offset (done.length + n)).card)
    (fun _ _ => And.left) ?_ hf ⟨o, fun n => by simp⟩ h
  · have hend := hrule.2 0
    simpa [missingChunks, touchedChunks] using hend
  · rintro done t piece t' ⟨ot, ht⟩ hw
    refine ⟨hw.owned ot, fun n => ?_⟩
    have hpiece := hw.card_free ot n
    have hdone := ht (piece.length + n)
    simp only [List.length_append, Nat.add_assoc] at hpiece hdone ⊢
    omega

end

/-- In every reachable state a write dereferences `NULL` exactly when it cannot map a part of
its request, unless it is told to write to a directory. -/
theorem write_failure {bank : Nat → Nat → UInt8} {ops : List FsOp} {s : Fs}
    (run : Run FsStep (dhmpInit bank) ops s) (f : InodeId) (buf : List UInt8) (offset : Nat) :
    (dhmpFsWrite s f buf offset = none ↔
      (s.inodes f).isDirectories = false ∧ Unmappable s f offset buf.length) ∧
    (Unmappable s f offset buf.length →
      (FailsSafely s f buf offset ↔ (s.inodes f).isDirectories = true)) := by
  obtain ⟨o, -⟩ := fsInv_run run
  refine ⟨dhmpFsWrite_eq_none_iff o, fun hun => ⟨?_, fun hdir => ?_⟩⟩
  · rintro ⟨s', res, hwrite, -⟩
    by_contra hfile
    rw [Bool.not_eq_true] at hfile
    rw [(dhmpFsWrite_eq_none_iff o).mpr ⟨hfile, hun⟩] at hwrite
    simp at hwrite
  · exact ⟨s, -1, by simp [dhmpFsWrite, hdir], .inl ⟨by decide, rfl⟩⟩

/-- A request to the root directory past the largest file. -/
theorem write_failure_root :
    FailsSafely (dhmpInit fun _ _ => 0) rootId [7] sizeThirdDirectEnd :=
  ((write_failure (.refl _) rootId [7] sizeThirdDirectEnd).2
    (.inl ⟨Nat.one_pos, Nat.lt_succ_self _⟩)).mpr rfl

/-- One byte at the end of the largest file that the index can hold. -/
theorem not_failsSafely_end :
    Unmappable (FsOp.next (dhmpInit fun _ _ => 0) (.mknod [47, 97])) 1 sizeThirdDirectEnd 1 ∧
      ¬ FailsSafely (FsOp.next (dhmpInit fun _ _ => 0) (.mknod [47, 97])) 1 [7]
        sizeThirdDirectEnd := by
  refine ⟨.inl ⟨Nat.one_pos, Nat.lt_succ_self _⟩, ?_⟩
  rintro ⟨s', res, hwrite, -⟩
  have hnone : dhmpFsWrite (FsOp.next (dhmpInit fun _ _ => 0) (.mknod [47, 97])) 1 [7]
      sizeThirdDirectEnd = none := rfl
  rw [hnone] at hwrite
  simp at hwrite

end DhmpFs
