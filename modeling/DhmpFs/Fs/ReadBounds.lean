import DhmpFs.Fs.Reachable
import DhmpFs.Fs.ReadLoop

/-!
# The ranges a read asks for

`dhmp_fs_read` guards against an offset past the data of its chunk by an unsigned comparison
that never fires. A read that starts there asks for bytes behind the chunk's data; every other
read stays within the data of the file's own chunks.

## Main definitions

* `ReadsInBounds`: what the ranges of a read should satisfy.
* `PastData`: an offset behind all data.
-/

namespace DhmpFs

open Library

/-- No chunk of `f` has data at or behind the offset. -/
def PastData (s : Fs) (f : InodeId) (offset : Nat) : Prop :=
  ∀ j c, (s.inodes f).cntId.get (slotOf j) = some c →
    j * chunkSize + (s.contextAddr c).size ≤ offset

/-- A read asks for data of the file's chunks only, and past the data it returns 0. -/
structure ReadsInBounds (s : Fs) (f : InodeId) (size offset : Nat) : Prop where
  inside : ∀ ranges, readLoop s f size size offset = some ranges → ∀ r ∈ ranges, r.Inside s f
  past : PastData s f offset → ∀ bytes res, dhmpFsRead s f size offset = some (bytes, res) →
    res = 0

section

variable {s : Fs} {f : InodeId} {offset : Nat}

/-- The loop from an offset past the data of its chunk: the first range lies outside. -/
theorem readLoop_outside {rounds unRead : Nat} (hpos : unRead ≠ 0)
    (hlt : offset < sizeThirdDirectEnd) {c : Chunk}
    (hget : (s.inodes f).cntId.get (slotOf (offset / chunkSize)) = some c)
    (hout : (s.contextAddr c).size < offset % chunkSize) {ranges : List Range}
    (h : readLoop s f (rounds + 1) unRead offset = some ranges) :
    ∃ r ∈ ranges, ¬ r.Inside s f := by
  have outside : ∀ length, ¬ (⟨c, offset % chunkSize, length⟩ : Range).Inside s f := by
    intro length hin
    have := hin.fits
    simp only at this
    omega
  have hmod := Nat.mod_lt offset chunkSize_pos
  have hne : subU64 (s.contextAddr c).size (offset % chunkSize) ≠ 0 := by
    unfold subU64
    simp only [chunkSize] at *
    omega
  rw [readLoop_succ hlt hpos, hget] at h
  simp only [hne, if_false] at h
  split at h
  · obtain ⟨rest, -, rfl⟩ := Option.map_eq_some_iff.mp h
    exact ⟨_, List.mem_cons_self .., outside _⟩
  · obtain rfl := Option.some.inj h
    exact ⟨_, List.mem_cons_self .., outside _⟩

end

/-- In every reachable state a read of a file returns, and it stays in bounds exactly when it
does not start past the data of an existing chunk. -/
theorem read_bounds {bank : Nat → Nat → UInt8} {ops : List FsOp} {s : Fs}
    (run : Run FsStep (dhmpInit bank) ops s) {f : InodeId}
    (hf : (s.inodes f).isDirectories = false) (size offset : Nat) :
    (dhmpFsRead s f size offset).isSome ∧
      (ReadsInBounds s f size offset ↔ StartsInData s f size offset) := by
  obtain ⟨o, -⟩ := fsInv_run run
  obtain ⟨ranges, hloop⟩ := readLoop_returns s f size size offset
  refine ⟨by simp [dhmpFsRead, hf, hloop], fun h => ?_, fun hstart => ?_⟩
  · by_contra hnot
    simp only [StartsInData, not_or, not_forall, not_le] at hnot
    obtain ⟨hpos, hlt, c, hget, hout⟩ := hnot
    obtain ⟨rounds, rfl⟩ := Nat.exists_eq_succ_of_ne_zero hpos
    obtain ⟨r, hr, hnin⟩ := readLoop_outside hpos hlt hget hout hloop
    exact hnin (h.inside ranges hloop r hr)
  · obtain ⟨ranges', n, hloop', hd⟩ := readLoop_delivers o size (Nat.le_refl _) hstart
    obtain rfl := Option.some.inj (hloop.symm.trans hloop')
    refine ⟨fun ranges' h' => ?_, fun hp bytes res hread => ?_⟩
    · obtain rfl := Option.some.inj (hloop.symm.trans h')
      exact hd.inside
    · have hn : n = 0 := by
        by_contra hpos
        obtain ⟨-, c, hc, hlt⟩ := hd.inFile 0 (Nat.pos_of_ne_zero hpos)
        rw [Nat.add_zero] at hc hlt
        have := hp _ c hc
        have := Nat.div_add_mod' offset chunkSize
        omega
      simp only [dhmpFsRead, hf, Bool.false_eq_true, if_false, hloop, Option.map_some,
        Option.some.injEq, Prod.mk.injEq, hd.length, hn] at hread
      exact hread.2.symm

/-- A file with three bytes, read from its second byte on. -/
theorem read_bounds_short :
    ReadsInBounds ([.mknod [47, 97], .write 1 [1, 2, 3] 0].foldl FsOp.next
      (dhmpInit fun _ _ => 0)) 1 10 1 := by
  have file : InTree (FsOp.next (dhmpInit fun _ _ => 0) (.mknod [47, 97])) 1 :=
    .son .root ⟨[1], ⟨rfl, rfl⟩, rfl⟩
  have run : Run FsStep (dhmpInit fun _ _ => 0) [.mknod [47, 97], .write 1 [1, 2, 3] 0] _ :=
    .cons (.next trivial rfl) (.single (.next file rfl))
  refine (read_bounds run (f := 1) rfl 10 1).2.mpr (.inr (.inr fun c hc => ?_))
  obtain rfl : 0 = c := Option.some.inj hc
  decide

/-- The same file read from offset 5: ten bytes behind its data are asked for. -/
theorem not_readsInBounds_behind :
    ¬ ReadsInBounds ([.mknod [47, 97], .write 1 [1, 2, 3] 0].foldl FsOp.next
      (dhmpInit fun _ _ => 0)) 1 10 5 := by
  intro h
  have hin := h.inside [⟨0, 5, 10⟩] (by decide +kernel) _ (List.mem_singleton_self _)
  exact absurd hin.fits (by decide)

end DhmpFs
