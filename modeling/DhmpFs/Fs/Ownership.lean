import DhmpFs.Fs.Reachable

/-!
# Ownership of inodes and chunks

The invariant of the runs, read off the pointers of a state: no ghost structure is mentioned.

## Main definitions

* `Ownership`: every inode is in the tree or on the slab, and every chunk in use has one owner.
-/

namespace DhmpFs

open Library

/-- The slot that points to the context of a chunk, in an inode of the tree that lists it. -/
structure Owner (s : Fs) (c : Chunk) (i : InodeId) (slot : Slot) : Prop where
  get : (s.inodes i).cntId.get slot = some c
  only : ∀ j slot', (s.inodes j).cntId.get slot' = some c → j = i ∧ slot' = slot
  inTree : InTree s i
  listed : (s.inodes i).context.count c = 1
  which : (s.contextAddr c).whichInodeItIs = some (i, slot)

structure Ownership (s : Fs) : Prop where
  /-- An inode other than the root is on the chain of one directory, or on the slab. -/
  inode : ∀ i, i ≠ rootId → i ≤ s.mallocTimes →
    ((∃! d, InTree s d ∧ (s.inodes d).isDirectories = true ∧ OnChain s d i) ∧
      i ∉ s.freeInodeSlab) ∨
    (s.freeInodeSlab.count i = 1 ∧ ∀ d, ¬ OnChain s d i)
  /-- A chunk is marked exactly when it has an owner. -/
  bitmap : ∀ c, s.bitmap c = true ↔ ∃ i slot, Owner s c i slot
  /-- An inode on the slab is blank. -/
  slab : ∀ i ∈ s.freeInodeSlab, (s.inodes i).size = 0 ∧ (s.inodes i).context = [] ∧
    ∀ slot, (s.inodes i).cntId.get slot = none
  /-- The size of a file is the sum of the sizes of its contexts. -/
  size : ∀ i, (s.inodes i).isDirectories = false →
    (s.inodes i).size = ((s.inodes i).context.map fun c => (s.contextAddr c).size).sum

namespace Tree

variable {s : Fs} {kids : InodeId → List InodeId} {i d : InodeId} {slot : Slot} {c : Chunk}

/-- A spare inode holds no chunk. -/
theorem get_spare (h : Tree s kids) (o : Owned s) (hi : s.Spare i) (slot : Slot) :
    (s.inodes i).cntId.get slot = none := by
  by_contra hne
  obtain ⟨c, hc⟩ := Option.ne_none_iff_exists'.mp hne
  have hmem := o.mem_of_get hc
  simp [(h.spare i hi).2] at hmem

theorem owner_of_get (h : Tree s kids) (o : Owned s)
    (hc : (s.inodes i).cntId.get slot = some c) : Owner s c i slot where
  get := hc
  only j slot' hj := o.eq_of_get hj hc
  inTree := by
    refine h.inTree_iff.mpr ((h.in_or_spare i).resolve_right fun hs => ?_)
    simp [h.get_spare o hs slot] at hc
  listed := List.count_eq_one_of_mem (o.context_nodup i) (o.mem_of_get hc)
  which := (o.which_iff i slot c).mp hc

theorem ownership (h : Tree s kids) (o : Owned s) : Ownership s where
  inode i hroot hle := by
    rcases (h.placed i).mp ⟨hroot, hle⟩ with hs | ⟨d, hd⟩
    · refine .inr ⟨List.count_eq_one_of_mem h.slab_nodup hs, fun d hc => ?_⟩
      exact h.slab_kids i hs d (h.onChain_iff.mp hc)
    · refine .inl ⟨⟨d, ?_, fun e he => ?_⟩, fun hs => h.slab_kids i hs d hd⟩
      · have hdir := h.kids_dir d (List.ne_nil_of_mem hd)
        exact ⟨h.inTree_iff.mpr (h.in_of_dir hdir), hdir, h.onChain_iff.mpr hd⟩
      · exact h.forest.father e d i (h.onChain_iff.mp he.2.2) hd
  bitmap c := by
    rw [o.bitmap_iff]
    constructor
    · intro hw
      obtain ⟨⟨i, slot⟩, hi⟩ := Option.ne_none_iff_exists'.mp hw
      exact ⟨i, slot, h.owner_of_get o ((o.which_iff i slot c).mpr hi)⟩
    · rintro ⟨i, slot, hi⟩
      simp [hi.which]
  slab i hi := by
    have hc := (h.spare i (.inl hi)).2
    refine ⟨?_, hc, h.get_spare o (.inl hi)⟩
    rw [o.size_eq, hc]
    rfl
  size i _ := o.size_eq i

end Tree

/-- In every reachable state each inode and each chunk in use has exactly one place. -/
theorem ownership_run {bank : Nat → Nat → UInt8} {ops : List FsOp} {s : Fs}
    (h : Run FsStep (dhmpInit bank) ops s) : Ownership s := by
  obtain ⟨o, kids, ht⟩ := fsInv_run h
  exact ht.ownership o

/-- A file is created and written, then a directory is created and the file unlinked. -/
theorem ownership_run_unlink :
    Ownership ([.mknod [47, 97], .write 1 [1, 2, 3] 5, .mkdir [47, 98], .unlink [47, 97]].foldl
      FsOp.next (dhmpInit fun _ _ => 0)) := by
  have file : InTree (FsOp.next (dhmpInit fun _ _ => 0) (.mknod [47, 97])) 1 :=
    .son .root ⟨[1], ⟨rfl, rfl⟩, rfl⟩
  have run : Run FsStep (dhmpInit fun _ _ => 0)
      [.mknod [47, 97], .write 1 [1, 2, 3] 5, .mkdir [47, 98], .unlink [47, 97]] _ :=
    .cons (.next trivial rfl) (.cons (.next file rfl)
      (.cons (.next trivial rfl) (.single (.next trivial rfl))))
  exact ownership_run run

end DhmpFs
