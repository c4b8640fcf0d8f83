import DhmpFs.Fs.ReadBack
import DhmpFs.Fs.Rename
import DhmpFs.Fs.WriteFailure

/-!
# The size that `dhmp_fs_getattr` reports

The size of an inode is a `size_t` and `st_size` is 64 bits wide, but in between it goes through
the `int` of `struct attr`. The kernel is told the right size of a file exactly while that is
below 2 GB.

## Main definitions

* `dhmpFsGetattr`: the attributes of a path.
* `fill`: a file is written block by block.
-/

namespace DhmpFs

open Library

/-- The fields that `dhmp_fs_getattr` sets in `struct stat`, without the time stamps. -/
structure Stat where
  stMode : Nat
  stSize : Int
  stNlink : Nat
  stUid : Nat
  stGid : Nat
  stRdev : Nat
  deriving DecidableEq

/-- `S_IFDIR | 0666`. -/
abbrev dirMode : Nat := 0x4000 ||| 0o666

/-- `S_IFREG | 0777`. -/
abbrev regMode : Nat := 0x8000 ||| 0o777

/-- `dhmp_fs_getattr`: the result, and the attributes if they were set. Before the path is looked
up `attr` holds what was on the stack. -/
def dhmpFsGetattr (s : Fs) (path : Str) (attr : Attr) : Option (Int × Option Stat) := do
  let (ret, attr) ← if path.length = 1 then some (0, ⟨(s.inodes rootId).isDirectories, 0⟩)
    else dhmpGetAttr s path attr
  if ret < 0 then return (-2, none)
  else if attr.isDirectories then return (0, some ⟨dirMode, 0, 1, 0, 0, 0⟩)
  else return (0, some ⟨regMode, attr.size, 1, 0, 0, 0⟩)

theorem toInt_eq_iff {n : Nat} : toInt n = n ↔ n < 2 ^ 31 := by
  refine ⟨fun h => ?_, toInt_eq⟩
  have hlt : toInt n < 2 ^ 31 := Int.bmod_lt (x := n) (m := 2 ^ 32) (Nat.two_pow_pos 32)
  omega

/-- In every reachable state the size reported for a file is the size of its inode exactly if
that is below 2 GB. -/
theorem stat_size {bank : Nat → Nat → UInt8} {ops : List FsOp} {s : Fs}
    (run : Run FsStep (dhmpInit bank) ops s) {path : Str} {i : InodeId}
    (found : searchDHash s path = some (some i)) (file : (s.inodes i).isDirectories = false)
    (attr : Attr) :
    ∃ st, dhmpFsGetattr s path attr = some (0, some st) ∧
      (st.stSize = (s.inodes i).size ↔ (s.inodes i).size < 2 ^ 31) := by
  obtain ⟨-, kids, tree⟩ := fsInv_run run
  have hlen : path.length ≠ 1 := by
    intro hone
    rw [searchDHash, if_pos hone] at found
    obtain rfl : rootId = i := by simpa using found
    simp [tree.root_dir] at file
  refine ⟨⟨regMode, toInt (s.inodes i).size, 1, 0, 0, 0⟩, ?_, by simp only [toInt_eq_iff]⟩
  simp [dhmpFsGetattr, dhmpGetAttr, hlen, found, file]

/-! ## Large files -/

section fill

variable {s s' s₀ : Fs} {f : InodeId}

/-- A block of 128 KB. -/
def block : List UInt8 := List.replicate 131072 0

theorem length_block : block.length = 131072 := List.length_replicate

attribute [irreducible] block

/-- `n` blocks, one after the other. -/
def fill (f : InodeId) (n : Nat) : List WriteCall :=
  (List.range n).map fun i => ⟨f, block, i * 131072⟩

theorem fill_succ (f : InodeId) (n : Nat) :
    fill f (n + 1) = fill f n ++ [⟨f, block, n * 131072⟩] := by
  simp [fill, List.range_succ]

theorem fh_of_mem_fill {n : Nat} {w : WriteCall} (hw : w ∈ fill f n) : w.fh = f := by
  obtain ⟨i, -, rfl⟩ := List.mem_map.mp hw
  rfl

theorem covered_fill (f : InodeId) (n : Nat) : Covered (fill f n) f (n * 131072) := by
  intro o
  constructor
  · rintro ⟨w, hw, -, hlo, hhi⟩
    obtain ⟨i, hi, rfl⟩ := List.mem_map.mp hw
    have hi := List.mem_range.mp hi
    simp only [length_block, ← Nat.succ_mul] at hhi
    exact hhi.trans_le (Nat.mul_le_mul_right _ hi)
  · intro ho
    refine ⟨⟨f, block, o / 131072 * 131072⟩, List.mem_map_of_mem (List.mem_range.mpr ?_), rfl,
      ?_, ?_⟩
    · omega
    · exact Nat.div_mul_le_self ..
    · rw [length_block]
      exact Nat.lt_div_mul_add (by decide)

theorem card_missing_block (s : Fs) (f : InodeId) (n : Nat) :
    (missingChunks s f (n * 131072) block.length).card ≤ 32 := by
  have hsub : missingChunks s f (n * 131072) block.length ⊆ Finset.Ico (n * 32) (n * 32 + 32) := by
    intro j hj
    obtain ⟨k, hk, rfl⟩ := Finset.mem_image.mp (Finset.mem_filter.mp hj).1
    have hk := Finset.mem_range.mp hk
    rw [length_block] at hk
    rw [Finset.mem_Ico]
    simp only [chunkSize]
    omega
  exact (Finset.card_le_card hsub).trans (by simp)

/-- Every block is written as long as the pool lasts. -/
theorem fill_run (o : Owned s₀)
    {kids : InodeId → List InodeId} (tree : Tree s₀ kids) (hf : EmptyFile s₀ f)
    (hfree : freeChunks s₀ = Finset.range chunkNum) {n : Nat} (hn : n * 32 ≤ chunkNum) :
    ∃ s, Run FsStep s₀ ((fill f n).map fun w => .write w.fh w.buf w.offset) s ∧
      Run WriteStep s₀ (fill f n) s ∧ DataOnly f s₀ s ∧
      chunkNum ≤ (freeChunks s).card + n * 32 := by
  induction n with
  | zero => exact ⟨s₀, .refl _, .refl _, .refl f s₀, by simp [hfree]⟩
  | succ n ih =>
    obtain ⟨s, hops, hcalls, hdata, hcard⟩ := ih (by omega)
    have files : ∀ w ∈ fill f n, EmptyFile s₀ w.fh := fun w hw => fh_of_mem_fill hw ▸ hf
    have written := written_run o files hcalls
    have hreg := written.regular f hf
    have hmissing := card_missing_block s f n
    have hmap : ¬ Unmappable s f (n * 131072) block.length := by
      rw [length_block] at hmissing ⊢
      have hend : 65536 * 131072 ≤ sizeThirdDirectEnd := by decide
      have hchunks : chunkNum = 65536 * 32 := rfl
      rintro (⟨-, hlt⟩ | hlt)
      all_goals omega
    obtain ⟨⟨s', res⟩, hw⟩ := Option.ne_none_iff_exists'.mp
      (mt (dhmpFsWrite_eq_none_iff written.owned).mp fun h => hmap h.2)
    have htree := tree_data tree hf.inTree hdata
    have handle : InTree s f :=
      htree.inTree_iff.mpr (tree.inTree_iff.mp hf.inTree)
    refine ⟨s', ?_, ?_, hdata.trans (dhmpFsWrite_spec written.owned hw).2, ?_⟩
    · rw [fill_succ, List.map_append]
      exact hops.snoc ⟨handle, res, hw⟩
    · rw [fill_succ]
      exact hcalls.snoc ⟨res, hw⟩
    · have := dhmpFsWrite_card_free written.owned hreg hw
      omega

/-- The size of a file made of blocks. -/
theorem size_fill (o : Owned s₀) (hf : EmptyFile s₀ f) {n : Nat}
    (hs : Run WriteStep s₀ (fill f n) s) :
    (s.inodes f).size = n * 131072 := by
  have files : ∀ w ∈ fill f n, EmptyFile s₀ w.fh := fun w hw => fh_of_mem_fill hw ▸ hf
  have written := written_run o files hs
  exact (written.holds f hf).inode_size_full written.owned (full_lastWrite.mpr (covered_fill f n))

/-- Data makes no difference to a search in the root directory. -/
theorem DataOnly.searchDHash_root (h : DataOnly f s s') (name : Str) (hc : Canonical name)
    (hlen : name.length < fileNameLen) :
    searchDHash s' (pathOf [name]) = searchDHash s (pathOf [name]) := by
  have hfit : FitsName [name] := by simpa [FitsName] using hlen
  have hcanonical : ∀ x ∈ [name], Canonical x := by simpa using hc
  obtain ⟨hne, ⟨size, index, context, heq⟩, -, -⟩ := h
  have hchild : ∀ d, child s' d name = child s d name := by
    intro d
    have hnames : s'.names = s.names := by
      funext i
      by_cases hi : i = f
      · simp [Fs.names, hi, heq]
      · simp [Fs.names, hne i hi]
    by_cases hd : d = f
    · simp [child, hd, heq, hnames]
    · simp [child, hne d hd, hnames]
  rw [searchDHash_pathOf hcanonical hfit, searchDHash_pathOf hcanonical hfit]
  simp only [walk, hchild]

end fill

/-- Three bytes are written behind a hole of two. -/
theorem stat_size_write : ∃ s, Run FsStep (dhmpInit fun _ _ => 0)
    [.mknod [47, 97], .write 1 [7, 6, 5] 2] s ∧
    ∃ st, dhmpFsGetattr s [47, 97] ⟨false, 0⟩ = some (0, some st) ∧ st.stSize = 5 := by
  have handle : InTree (FsOp.next (dhmpInit fun _ _ => 0) (.mknod [47, 97])) 1 :=
    .son .root ⟨[1], ⟨rfl, rfl⟩, rfl⟩
  obtain ⟨s, run, found, file, hfive⟩ : ∃ s, Run FsStep (dhmpInit fun _ _ => 0)
      [.mknod [47, 97], .write 1 [7, 6, 5] 2] s ∧ searchDHash s [47, 97] = some (some 1) ∧
      (s.inodes 1).isDirectories = false ∧ (s.inodes 1).size = 5 :=
    ⟨_, .cons (.next trivial rfl) (.single (.next handle rfl)), rfl, rfl, rfl⟩
  obtain ⟨st, hattr, hsize⟩ := stat_size run found file ⟨false, 0⟩
  rw [hfive] at hsize
  exact ⟨s, run, st, hattr, hsize.mpr (by decide)⟩

/-- A file of 2 GB, written in blocks of 128 KB, is reported with the size -2147483648. -/
theorem not_stat_size_large : ∃ s, Run FsStep (dhmpInit fun _ _ => 0)
    (.mknod [47, 97] :: (fill 1 16384).map fun w => .write w.fh w.buf w.offset) s ∧
    searchDHash s [47, 97] = some (some 1) ∧ (s.inodes 1).isDirectories = false ∧
    (s.inodes 1).size = 2147483648 ∧ ∀ attr, ∃ st, dhmpFsGetattr s [47, 97] attr =
      some (0, some st) ∧ st.stSize = -2147483648 := by
  have start : Run FsStep (dhmpInit fun _ _ => 0) [.mknod [47, 97]]
      (FsOp.next (dhmpInit fun _ _ => 0) (.mknod [47, 97])) := .single (.next trivial rfl)
  obtain ⟨owned, kids, tree⟩ := fsInv_run start
  have empty : EmptyFile (FsOp.next (dhmpInit fun _ _ => 0) (.mknod [47, 97])) 1 :=
    ⟨.son .root ⟨[1], ⟨rfl, rfl⟩, rfl⟩, rfl, rfl⟩
  have hfree : freeChunks (FsOp.next (dhmpInit fun _ _ => 0) (.mknod [47, 97])) =
      Finset.range chunkNum := Finset.filter_true_of_mem fun _ _ => rfl
  obtain ⟨s, hops, hcalls, hdata, -⟩ := fill_run owned tree empty hfree (n := 16384) (by decide)
  have hsize := size_fill owned empty hcalls
  have hdir : (s.inodes 1).isDirectories = false := by
    obtain ⟨-, ⟨size, index, context, heq⟩, -, -⟩ := hdata
    rw [heq]
    exact empty.regular
  have found : searchDHash s [47, 97] = some (some 1) := by
    have hroot := hdata.searchDHash_root [97] (by decide) (by decide)
    exact hroot.trans rfl
  refine ⟨s, .cons (.next trivial rfl) hops, found, hdir, hsize, fun attr =>
    ⟨⟨regMode, toInt (s.inodes 1).size, 1, 0, 0, 0⟩, ?_, ?_⟩⟩
  · simp [dhmpFsGetattr, dhmpGetAttr, found, hdir]
  · rw [hsize]
    decide

end DhmpFs
