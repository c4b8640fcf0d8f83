import DhmpFs.Fs.NaiveOperations
import DhmpFs.Fs.ReadBack
import DhmpFs.Fs.WriteFailure

/-!
# The indexed file system against the naive one

Both are given the same writes and reads of one file. They agree until a write ends inside the
last chunk before the end of the file: the naive `dhmp_fs_write` sets the size of that chunk to
the end of the write, `dhmp_fs_write` of the indexed one only ever raises it.

## Main definitions

* `Outcome`: what the caller sees of an operation.
* `Agreeable`: the operations at which the two agree.
* `Alike`: the relation between the two states.
-/

namespace DhmpFs

open Library

/-- An operation on one file. -/
inductive FileOp where
  | write (buf : List UInt8) (offset : Nat)
  | read (size offset : Nat)

/-- The result of a write and the size of the file after it, or what a read returns. -/
inductive Outcome where
  | write (res : Int) (size : Nat)
  | read (result : Option (List UInt8 × Int))

/-- The outcomes of operations one after the other; `none` when a write does not return. -/
def outcomes {σ : Type} (write : σ → List UInt8 → Nat → Option (σ × Int)) (size : σ → Nat)
    (read : σ → Nat → Nat → Option (List UInt8 × Int)) : σ → List FileOp → Option (List Outcome)
  | _, [] => some []
  | s, .write buf offset :: ops => do
    let (s, res) ← write s buf offset
    let rest ← outcomes write size read s ops
    some (.write res (size s) :: rest)
  | s, .read k offset :: ops => do
    let rest ← outcomes write size read s ops
    some (.read (read s k offset) :: rest)

section

variable {σ : Type} {write : σ → List UInt8 → Nat → Option (σ × Int)} {size : σ → Nat}
  {read : σ → Nat → Nat → Option (List UInt8 × Int)} {s s' : σ} {ops : List FileOp}
  {out : List Outcome}

theorem outcomes_write {buf : List UInt8} {offset : Nat} {res : Int}
    (h : write s buf offset = some (s', res)) (hout : outcomes write size read s' ops = some out) :
    outcomes write size read s (.write buf offset :: ops) =
      some (.write res (size s') :: out) := by
  simp [outcomes, h, hout]

theorem outcomes_read (k offset : Nat) (hout : outcomes write size read s ops = some out) :
    outcomes write size read s (.read k offset :: ops) =
      some (.read (read s k offset) :: out) := by
  simp [outcomes, hout]

end

def indexedOutcomes (f : InodeId) : Fs → List FileOp → Option (List Outcome) :=
  outcomes (fun s => dhmpFsWrite s f) (fun s => (s.inodes f).size) (fun s => dhmpFsRead s f)

def naiveOutcomes (mallocSize : Nat → Nat) (f : InodeId) :
    Naive.State → List FileOp → Option (List Outcome) :=
  outcomes (fun n => Naive.dhmpFsWrite n (some f)) (fun n => (n.inodes f).size)
    (fun n => Naive.dhmpFsRead mallocSize n (some f))

/-- No operation starts behind the end of the file. -/
def StartsWithin (f : InodeId) : Fs → List FileOp → Prop
  | _, [] => True
  | s, .write buf offset :: ops => offset ≤ (s.inodes f).size ∧
      ∀ s' res, dhmpFsWrite s f buf offset = some (s', res) → StartsWithin f s' ops
  | s, .read _ offset :: ops => offset ≤ (s.inodes f).size ∧ StartsWithin f s ops

/-- No write is cut back, and the buffer of every read has room for a terminator behind its bytes.
The size is `none` before the first write, where a read needs no buffer. -/
def Agreeable (mallocSize : Nat → Nat) : Option Nat → List FileOp → Prop
  | _, [] => True
  | size, .write buf offset :: ops => ¬ Naive.CutsBack (size.getD 0) offset buf.length ∧
      Agreeable mallocSize (some (max (size.getD 0) (offset + buf.length))) ops
  | size, .read k offset :: ops =>
      (∀ n, size = some n → min k (n - offset) < mallocSize k) ∧ Agreeable mallocSize size ops

/-- A file of the naive file system that was created and not yet written. -/
structure NaiveEmptyFile (n : Naive.State) (f : InodeId) : Prop where
  regular : (n.inodes f).isDirectories = false
  size : (n.inodes f).size = 0
  context : (n.inodes f).context = []

/-- Every write ends within the chunks that are free, in both file systems. -/
def HasRoom (n : Naive.State) (s : Fs) (ops : List FileOp) : Prop :=
  ∀ buf offset, .write buf offset ∈ ops →
    offset + buf.length < (Naive.freeChunks n).card * chunkSize ∧
      offset + buf.length ≤ (freeChunks s).card * chunkSize

/-! ## One operation -/

/-- The two files have the same bytes. -/
structure Alike (n : Naive.State) (g : InodeId) (s : Fs) (f : InodeId) (size : Option Nat)
    (a : Content) : Prop where
  carries : Naive.Carries n g a (size.getD 0)
  opened : (n.inodes g).context = [] ↔ size = none
  owned : Owned s
  regular : (s.inodes f).isDirectories = false
  holds : Holds s f a
  full : Full a (size.getD 0)
  le : size.getD 0 ≤ sizeThirdDirectEnd

section

variable {n n' : Naive.State} {g : InodeId} {s s' : Fs} {f : InodeId} {size : Option Nat}
  {a : Content} {offset : Nat} {buf : List UInt8}

theorem EmptyFile.alike (file : EmptyFile s f) (o : Owned s) (naive : NaiveEmptyFile n g) :
    Alike n g s f none fun _ => none := by
  have hnone : ∀ {j : Nat} {x : Naive.Context}, (n.inodes g).context[j]? ≠ some x := by
    simp [naive.context]
  refine ⟨⟨naive.regular, naive.size, fun h => absurd h hnone, fun h => absurd h hnone,
    fun h => absurd h hnone, Nat.zero_le _, ?_, fun _ h => absurd rfl h, fun h => absurd h hnone⟩,
    by simp [naive.context], o, file.regular, .empty o file.context, fun p => by simp,
    Nat.zero_le _⟩
  simp [naive.context]

theorem Alike.inodeSize (h : Alike n g s f size a) : (s.inodes f).size = size.getD 0 :=
  h.holds.inode_size_full h.owned h.full

theorem Full.patch {n : Nat} (h : Full a n) (hle : offset ≤ n) :
    Full (patch a offset buf) (max n (offset + buf.length)) := by
  intro p
  unfold DhmpFs.patch
  split
  · simp
    omega
  · rw [h p]
    omega

/-- The end of a write that returns. -/
theorem Alike.end_le (h : Alike n g s f size a) (hle : offset ≤ size.getD 0) {res : Int}
    (hs : dhmpFsWrite s f buf offset = some (s', res)) :
    max (size.getD 0) (offset + buf.length) ≤ sizeThirdDirectEnd := by
  have hmap : ¬ Unmappable s f offset buf.length := by
    intro hun
    rw [(dhmpFsWrite_eq_none_iff h.owned).mpr ⟨h.regular, hun⟩] at hs
    simp at hs
  have hmax := h.le
  rcases Nat.eq_zero_or_pos buf.length with hzero | hpos
  · omega
  · have hend : ¬ sizeThirdDirectEnd < offset + buf.length := fun hlt => hmap (.inl ⟨hpos, hlt⟩)
    omega

/-- A write of the indexed file system. -/
theorem Alike.indexed_write (h : Alike n g s f size a) (hle : offset ≤ size.getD 0) {res : Int}
    (hs : dhmpFsWrite s f buf offset = some (s', res)) :
    res = toInt buf.length ∧ Owned s' ∧ (s'.inodes f).isDirectories = false ∧
      Holds s' f (patch a offset buf) ∧
      (s'.inodes f).size = max (size.getD 0) (offset + buf.length) := by
  obtain ⟨o, honly⟩ := dhmpFsWrite_spec h.owned hs
  obtain ⟨_, _, _, heq⟩ := honly.inodes
  have hholds := h.holds.write h.owned h.regular hs
  rw [if_pos rfl] at hholds
  refine ⟨?_, o, by rw [heq]; exact h.regular, hholds, hholds.inode_size_full o (h.full.patch hle)⟩
  simp only [dhmpFsWrite, h.regular, Bool.false_eq_true, if_false] at hs
  obtain ⟨_, -, hres⟩ := Option.map_eq_some_iff.mp hs
  exact (Prod.mk.inj hres).2.symm

/-- The two writes return the same. The sizes afterwards differ when the naive one cuts the file
back. -/
theorem Alike.write (h : Alike n g s f size a) (hle : offset ≤ size.getD 0) {r res : Int}
    (hn : Naive.dhmpFsWrite n (some g) buf offset = some (n', r))
    (hs : dhmpFsWrite s f buf offset = some (s', res)) :
    r = res ∧ (n'.inodes g).size = Naive.sizeAfter (size.getD 0) offset buf.length ∧
      (s'.inodes f).size = max (size.getD 0) (offset + buf.length) ∧
      (¬ Naive.CutsBack (size.getD 0) offset buf.length →
        Alike n' g s' f (some (max (size.getD 0) (offset + buf.length))) (patch a offset buf)) := by
  have hmax := h.end_le hle hs
  obtain ⟨hr, hcarries, hne, -⟩ := h.carries.dhmpFsWrite hle hmax hn
  obtain ⟨hres, o, hreg, hholds, hsize⟩ := h.indexed_write hle hs
  refine ⟨hr.trans hres.symm, hcarries.inodeSize, hsize, fun huncut => ?_⟩
  rw [Naive.sizeAfter, if_neg huncut] at hcarries
  exact ⟨hcarries, by simp [hne], o, hreg, hholds, h.full.patch hle, hmax⟩

/-- What the indexed read returns. -/
theorem Alike.indexed_read (h : Alike n g s f size a) (k : Nat) (hle : offset ≤ size.getD 0) :
    dhmpFsRead s f k offset = some (Naive.bytesOf a offset (min k (size.getD 0 - offset)),
      toInt (min k (size.getD 0 - offset))) := by
  obtain ⟨ranges, hloop, hd⟩ := h.holds.readLoop_full h.owned h.full h.le k hle
  have hbytes : ranges.flatMap (Range.bytes s) =
      Naive.bytesOf a offset (min k (size.getD 0 - offset)) := by
    rw [hd.bytes]
    refine List.map_congr_left fun i hi => ?_
    have hi := List.mem_range.mp hi
    obtain ⟨b, hb⟩ := Option.ne_none_iff_exists'.mp ((h.full (offset + i)).mpr (by omega))
    rw [h.holds.fileByte_eq hb, hb, Option.getD_some]
  simp [dhmpFsRead, h.regular, hloop, hbytes, hd.length]

/-- The two reads return the same, unless the naive one has no room for the terminator. -/
theorem Alike.read (h : Alike n g s f size a) (mallocSize : Nat → Nat) (k : Nat)
    (hle : offset ≤ size.getD 0) :
    Naive.dhmpFsRead mallocSize n (some g) k offset = dhmpFsRead s f k offset ↔
      ∀ m, size = some m → min k (m - offset) < mallocSize k := by
  have hall : ∀ p < size.getD 0, a p ≠ none := fun p hp => (h.full p).mpr hp
  rw [h.carries.dhmpFsRead hall mallocSize k hle h.le, h.indexed_read k hle]
  simp only [h.opened]
  cases size with
  | none => simp
  | some m =>
    refine ⟨fun heq m' hm' => ?_, fun hroom => if_pos (.inr (hroom m rfl))⟩
    obtain rfl := Option.some.inj hm'
    by_contra hno
    have hfail : ¬ (some m = none ∨ min k ((some m).getD 0 - offset) < mallocSize k) :=
      not_or.mpr ⟨Option.some_ne_none m, hno⟩
    rw [if_neg hfail] at heq
    simp at heq

/-! ## Every sequence -/

/-- The outcomes are the same exactly while the two agree. -/
theorem Alike.outcomes_eq_iff (h : Alike n g s f size a) (mallocSize : Nat → Nat)
    {ops : List FileOp} (within : StartsWithin f s ops) {out out' : List Outcome}
    (hnaive : naiveOutcomes mallocSize g n ops = some out)
    (hindexed : indexedOutcomes f s ops = some out') :
    out = out' ↔ Agreeable mallocSize size ops := by
  induction ops generalizing n s size a out out' with
  | nil =>
    obtain rfl := Option.some.inj hnaive
    obtain rfl := Option.some.inj hindexed
    simp [Agreeable]
  | cons op ops ih =>
    cases op with
    | write buf offset =>
      obtain ⟨hle, hwithin⟩ := within
      rw [h.inodeSize] at hle
      obtain ⟨⟨n', r⟩, hn, hnaive⟩ := Option.bind_eq_some_iff.mp hnaive
      obtain ⟨rest, hrest, hnaive⟩ := Option.bind_eq_some_iff.mp hnaive
      obtain ⟨⟨s', res⟩, hs, hindexed⟩ := Option.bind_eq_some_iff.mp hindexed
      obtain ⟨rest', hrest', hindexed⟩ := Option.bind_eq_some_iff.mp hindexed
      obtain rfl := Option.some.inj hnaive
      obtain rfl := Option.some.inj hindexed
      obtain ⟨hres, hsize, hsize', halike⟩ := h.write hle hn hs
      simp only [Agreeable, List.cons.injEq, Outcome.write.injEq, hsize, hsize', hres, true_and]
      by_cases hcut : Naive.CutsBack (size.getD 0) offset buf.length
      · have hshort : Naive.sizeAfter (size.getD 0) offset buf.length ≠
            max (size.getD 0) (offset + buf.length) := by
          rw [Naive.sizeAfter, if_pos hcut]
          have := hcut.2.1
          omega
        simp [hshort, hcut]
      · have hsame : Naive.sizeAfter (size.getD 0) offset buf.length =
            max (size.getD 0) (offset + buf.length) := by
          rw [Naive.sizeAfter, if_neg hcut]
        simp only [hsame, hcut, true_and, not_false_eq_true]
        exact ih (halike hcut) (hwithin s' res hs) hrest hrest'
    | read k offset =>
      obtain ⟨hle, hwithin⟩ := within
      rw [h.inodeSize] at hle
      obtain ⟨rest, hrest, hnaive⟩ := Option.bind_eq_some_iff.mp hnaive
      obtain ⟨rest', hrest', hindexed⟩ := Option.bind_eq_some_iff.mp hindexed
      obtain rfl := Option.some.inj hnaive
      obtain rfl := Option.some.inj hindexed
      simp only [Agreeable, List.cons.injEq, Outcome.read.injEq, h.read mallocSize k hle,
        ih h hwithin hrest hrest']

/-! ## Writes that return -/

/-- The chunks of a file without holes. -/
def chunksFor (size : Nat) : Nat := (size + chunkSize - 1) / chunkSize

/-- A write maps the chunks between the old end of the file and the new one. -/
theorem Alike.missing_le (h : Alike n g s f size a) (offset length : Nat) :
    (missingChunks s f offset length).card + chunksFor (size.getD 0) ≤
      chunksFor (max (size.getD 0) (offset + length)) := by
  have hsub : missingChunks s f offset length ⊆
      Finset.Ico (chunksFor (size.getD 0)) (chunksFor (offset + length)) := by
    intro j hj
    obtain ⟨hj, hnone⟩ := Finset.mem_filter.mp hj
    obtain ⟨k, hk, rfl⟩ := Finset.mem_image.mp hj
    have hk := Finset.mem_range.mp hk
    have hend := h.holds.chunkEnd_eq ((offset + k) / chunkSize)
    rw [hnone, h.full.chunkEnd] at hend
    simp only [Option.map_none, Option.getD_none] at hend
    rw [Finset.mem_Ico]
    simp only [chunksFor, chunkSize] at *
    omega
  have hcard := Finset.card_le_card hsub
  rw [Nat.card_Ico] at hcard
  rcases Nat.le_total (size.getD 0) (offset + length) with hle | hle
  · have hmono : chunksFor (size.getD 0) ≤ chunksFor (offset + length) :=
      Nat.div_le_div_right (by omega)
    rw [Nat.max_eq_right hle]
    omega
  · have hmono : chunksFor (offset + length) ≤ chunksFor (size.getD 0) :=
      Nat.div_le_div_right (by omega)
    rw [Nat.max_eq_left hle]
    omega

/-- A write in reach of the free chunks returns. -/
theorem Alike.write_returns (h : Alike n g s f size a) (hle : offset ≤ size.getD 0) {c d : Nat}
    (hc : Naive.capacity n g = c) (hd : d ≤ (freeChunks s).card + chunksFor (size.getD 0))
    (hmax : d ≤ chunkNum) (hlt : offset + buf.length < c * chunkSize)
    (hend : offset + buf.length ≤ d * chunkSize) :
    (∃ n' r, Naive.dhmpFsWrite n (some g) buf offset = some (n', r)) ∧
      ∃ s' res, dhmpFsWrite s f buf offset = some (s', res) := by
  constructor
  · cases hn : Naive.dhmpFsWrite n (some g) buf offset with
    | some res => exact ⟨res.1, res.2, rfl⟩
    | none =>
      have hcap := h.carries.dhmpFsWrite_none hle h.le hn
      rw [hc] at hcap
      omega
  · cases hs : dhmpFsWrite s f buf offset with
    | some res => exact ⟨res.1, res.2, rfl⟩
    | none =>
      exfalso
      have hmissing := h.missing_le offset buf.length
      have hchunks : chunksFor (offset + buf.length) ≤ d := by
        unfold chunksFor
        simp only [chunkSize] at *
        omega
      have hsmall : chunkNum * chunkSize < sizeThirdDirectEnd := by decide
      have hreach := Nat.mul_le_mul_right chunkSize hmax
      rcases ((dhmpFsWrite_eq_none_iff h.owned).mp hs).2 with ⟨-, hfar⟩ | hfew
      · omega
      · rcases Nat.le_total (size.getD 0) (offset + buf.length) with hle' | hle'
        · rw [Nat.max_eq_right hle'] at hmissing
          omega
        · rw [Nat.max_eq_left hle'] at hmissing
          omega

theorem Alike.outcomes_return (h : Alike n g s f size a) (mallocSize : Nat → Nat)
    {ops : List FileOp} (within : StartsWithin f s ops)
    (agreeable : Agreeable mallocSize size ops) {c d : Nat} (hc : Naive.capacity n g = c)
    (hd : d ≤ (freeChunks s).card + chunksFor (size.getD 0)) (hmax : d ≤ chunkNum)
    (room : ∀ buf offset, .write buf offset ∈ ops →
      offset + buf.length < c * chunkSize ∧ offset + buf.length ≤ d * chunkSize) :
    ∃ out out', naiveOutcomes mallocSize g n ops = some out ∧
      indexedOutcomes f s ops = some out' := by
  induction ops generalizing n s size a with
  | nil => exact ⟨[], [], rfl, rfl⟩
  | cons op ops ih =>
    have room' := fun buf offset hmem => room buf offset (List.mem_cons_of_mem op hmem)
    cases op with
    | write buf offset =>
      obtain ⟨hle, hwithin⟩ := within
      rw [h.inodeSize] at hle
      obtain ⟨huncut, hrest⟩ := agreeable
      obtain ⟨hlt, hend⟩ := room buf offset (List.mem_cons_self ..)
      obtain ⟨⟨n', r, hn⟩, s', res, hs⟩ := h.write_returns hle hc hd hmax hlt hend
      obtain ⟨-, -, -, halike⟩ := h.write hle hn hs
      have hc' := (h.carries.dhmpFsWrite hle (h.end_le hle hs) hn).2.2.2
      have hfree := dhmpFsWrite_card_free h.owned h.regular hs
      have hmissing := h.missing_le offset buf.length
      have hd' : d ≤ (freeChunks s').card +
          chunksFor (max (size.getD 0) (offset + buf.length)) := by omega
      obtain ⟨out, out', hout, hout'⟩ := ih (halike huncut) (hwithin s' res hs) hrest
        (hc'.trans hc) hd' room'
      exact ⟨_, _, outcomes_write hn hout, outcomes_write hs hout'⟩
    | read k offset =>
      obtain ⟨out, out', hout, hout'⟩ := ih h within.2 agreeable.2 hc hd room'
      exact ⟨_, _, outcomes_read k offset hout, outcomes_read k offset hout'⟩

end

/-- Where every write returns, the outcomes are the same exactly while no write is cut back and no
read lacks the room for its terminator. There every write in reach of the free chunks returns. -/
theorem naive_agrees_iff {bank : Nat → Nat → UInt8} {ops₀ : List FsOp} {s : Fs}
    (start : Run FsStep (dhmpInit bank) ops₀ s) {f g : InodeId} (file : EmptyFile s f)
    {n : Naive.State} (naive : NaiveEmptyFile n g) (mallocSize : Nat → Nat) {ops : List FileOp}
    (within : StartsWithin f s ops) :
    (∀ out out', naiveOutcomes mallocSize g n ops = some out →
      indexedOutcomes f s ops = some out' →
      (out = out' ↔ Agreeable mallocSize none ops)) ∧
    (Agreeable mallocSize none ops → HasRoom n s ops →
      ∃ out, naiveOutcomes mallocSize g n ops = some out ∧
        indexedOutcomes f s ops = some out) := by
  obtain ⟨o, -⟩ := fsInv_run start
  have h := file.alike o naive
  refine ⟨fun out out' => h.outcomes_eq_iff mallocSize within, fun agreeable room => ?_⟩
  have hcap : Naive.capacity n g = (Naive.freeChunks n).card := by
    rw [Naive.capacity, naive.context, List.length_nil, Nat.add_zero]
  have hmax : (freeChunks s).card ≤ chunkNum :=
    (Finset.card_filter_le ..).trans (Finset.card_range _).le
  obtain ⟨out, out', hout, hout'⟩ := h.outcomes_return mallocSize within agreeable hcap
    (Nat.le_add_right ..) hmax room
  obtain rfl := (h.outcomes_eq_iff mallocSize within hout hout').mpr agreeable
  exact ⟨out, hout, hout'⟩

/-- Two overlapping writes to a new file, and a read from its second byte on. -/
theorem naive_agrees_overlap :
    ∃ out, naiveOutcomes id 1 ⟨fun _ => ⟨0, false, []⟩, fun _ => false, fun _ _ => 0⟩
        [.write [7, 8, 9] 0, .write [5, 6] 2, .read 10 1] = some out ∧
      indexedOutcomes 1 (FsOp.next (dhmpInit fun _ _ => 0) (.mknod [47, 97]))
        [.write [7, 8, 9] 0, .write [5, 6] 2, .read 10 1] = some out := by
  have start : Run FsStep (dhmpInit fun _ _ => 0) [.mknod [47, 97]]
      (FsOp.next (dhmpInit fun _ _ => 0) (.mknod [47, 97])) := .single (.next trivial rfl)
  have file : EmptyFile (FsOp.next (dhmpInit fun _ _ => 0) (.mknod [47, 97])) 1 :=
    ⟨.son .root ⟨[1], ⟨rfl, rfl⟩, rfl⟩, rfl, rfl⟩
  have naive : NaiveEmptyFile ⟨fun _ => ⟨0, false, []⟩, fun _ => false, fun _ _ => 0⟩ 1 :=
    ⟨rfl, rfl, rfl⟩
  have within : StartsWithin 1 (FsOp.next (dhmpInit fun _ _ => 0) (.mknod [47, 97]))
      [.write [7, 8, 9] 0, .write [5, 6] 2, .read 10 1] := by
    refine ⟨Nat.zero_le _, fun s res hs => ?_⟩
    obtain rfl : _ = s := (Prod.mk.inj (Option.some.inj hs)).1
    refine ⟨by decide, fun t res ht => ?_⟩
    obtain rfl : _ = t := (Prod.mk.inj (Option.some.inj ht)).1
    exact ⟨by decide, trivial⟩
  have room : HasRoom ⟨fun _ => ⟨0, false, []⟩, fun _ => false, fun _ _ => 0⟩
      (FsOp.next (dhmpInit fun _ _ => 0) (.mknod [47, 97]))
      [.write [7, 8, 9] 0, .write [5, 6] 2, .read 10 1] := by
    have hnaive : Naive.freeChunks ⟨fun _ => ⟨0, false, []⟩, fun _ => false, fun _ _ => 0⟩ =
        Finset.range Naive.chunkNum := Finset.filter_true_of_mem fun _ _ => rfl
    have hindexed : freeChunks (FsOp.next (dhmpInit fun _ _ => 0) (.mknod [47, 97])) =
        Finset.range chunkNum := Finset.filter_true_of_mem fun _ _ => rfl
    intro buf offset hmem
    rw [hnaive, hindexed, Finset.card_range, Finset.card_range]
    simp only [List.mem_cons, FileOp.write.injEq, List.not_mem_nil, reduceCtorEq, or_false] at hmem
    obtain ⟨rfl, rfl⟩ | ⟨rfl, rfl⟩ := hmem
    all_goals decide
  exact (naive_agrees_iff start file naive id within).2 (by simp [Agreeable]; decide) room

/-- Three bytes, and the first of them once more: the naive file has one byte then. -/
theorem not_naive_agrees_overwrite :
    StartsWithin 1 (FsOp.next (dhmpInit fun _ _ => 0) (.mknod [47, 97]))
        [.write [7, 8, 9] 0, .write [5] 0] ∧
      naiveOutcomes id 1 ⟨fun _ => ⟨0, false, []⟩, fun _ => false, fun _ _ => 0⟩
        [.write [7, 8, 9] 0, .write [5] 0] = some [.write 3 3, .write 1 1] ∧
      indexedOutcomes 1 (FsOp.next (dhmpInit fun _ _ => 0) (.mknod [47, 97]))
        [.write [7, 8, 9] 0, .write [5] 0] = some [.write 3 3, .write 1 3] := by
  refine ⟨⟨Nat.zero_le _, fun s res _ => ⟨Nat.zero_le _, fun _ _ _ => trivial⟩⟩, rfl, rfl⟩

end DhmpFs
