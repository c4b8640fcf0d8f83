import DhmpFs.Fs.WriteFailure

/-!
# Reading back what was written

A run of writes, to any files and in any order, leaves in each file the last byte written to
every position. A file whose writes cover `[0, n)` has size `n` and reads back. A write to one of
these files returns its length as long as there are free chunks for those it needs.

## Main definitions

* `lastWrite`: the byte of the last write that covers a position.
* `Covered`: the writes to a file cover exactly the positions below a bound.
-/

namespace DhmpFs

open Library

/-! ## A file without holes -/

/-- The positions written are exactly those below `n`. -/
def Full (a : Content) (n : Nat) : Prop := ∀ o, a o ≠ none ↔ o < n

/-- Chunks that are full up to `n`. -/
theorem sum_chunk_sizes (n m : Nat) :
    ∑ j ∈ Finset.range m, min chunkSize (n - j * chunkSize) = min n (m * chunkSize) := by
  induction m with
  | zero => simp
  | succ m ih =>
    rw [Finset.sum_range_succ, ih]
    simp only [chunkSize]
    omega

theorem Full.chunkEnd {a : Content} {n : Nat} (h : Full a n) (j : Nat) :
    chunkEnd a j = min chunkSize (n - j * chunkSize) := by
  refine eq_of_forall_lt_iff fun k => ?_
  rw [lt_chunkEnd_iff]
  simp only [h _]
  constructor
  · rintro ⟨l, hkl, hl, hn⟩
    omega
  · intro hk
    exact ⟨k, Nat.le_refl k, by omega, by omega⟩

theorem Full.inData_iff {a : Content} {n : Nat} (h : Full a n) (o : Nat) : InData a o ↔ o < n := by
  have hdiv := Nat.div_add_mod' o chunkSize
  have hmod := Nat.mod_lt o chunkSize_pos
  rw [InData, h.chunkEnd]
  omega

namespace Holds

variable {s : Fs} {f : InodeId} {a : Content} {n : Nat}

/-- The size of the inode is the number of its bytes. -/
theorem inode_size_full (h : Holds s f a) (o : Owned s) (hn : Full a n) :
    (s.inodes f).size = n := by
  have hm : n ≤ (n + chunkSize - 1) / chunkSize * chunkSize := by
    simp only [chunkSize]
    omega
  rw [h.inode_size o fun p hp => ((hn p).mp hp).trans_le hm,
    Finset.sum_congr rfl fun j _ => hn.chunkEnd j, sum_chunk_sizes]
  exact Nat.min_eq_left hm

/-- A read delivers what lies between the offset and the end. -/
theorem readLoop_full (h : Holds s f a) (o : Owned s) (hn : Full a n)
    (hmax : n ≤ sizeThirdDirectEnd) (size : Nat) {offset : Nat} (ho : offset ≤ n) :
    ∃ ranges, readLoop s f size size offset = some ranges ∧
      Delivers s f size offset ranges (min size (n - offset)) := by
  have hin : ∀ p, InFile s f p ↔ p < n := by
    intro p
    rw [h.inFile_iff (fun q hq => ((hn q).mp hq).trans_le hmax), hn.inData_iff]
  have hstart : StartsInData s f size offset := by
    refine .inr (.inr fun c hc => ?_)
    have hsize := h.chunkEnd_eq (offset / chunkSize)
    rw [hc, hn.chunkEnd] at hsize
    obtain ⟨k, ⟨hk, hw⟩, -⟩ := (h.size _ c hc).last
    have hlt := (hn _).mp hw
    have hdiv := Nat.div_add_mod' offset chunkSize
    have hmod := Nat.mod_lt offset chunkSize_pos
    simp only [Option.map_some, Option.getD_some] at hsize
    omega
  obtain ⟨ranges, m, hloop, hd⟩ := readLoop_delivers o size (Nat.le_refl _) hstart
  obtain rfl : m = min size (n - offset) := by
    have hle := hd.le
    by_contra hne
    rcases Nat.lt_or_gt_of_ne hne with hlt | hgt
    · exact hd.stop (by omega) ((hin _).mpr (by omega))
    · have := (hin _).mp (hd.inFile (m - 1) (by omega))
      omega
  exact ⟨ranges, hloop, hd⟩

end Holds

/-! ## Runs of writes -/

/-- A call of `dhmp_fs_write`. -/
structure WriteCall where
  fh : InodeId
  buf : List UInt8
  offset : Nat

namespace WriteCall

/-- The call writes the position `o` of the file `f`. -/
def Covers (w : WriteCall) (f : InodeId) (o : Nat) : Prop :=
  w.fh = f ∧ w.offset ≤ o ∧ o < w.offset + w.buf.length

instance (w : WriteCall) (f : InodeId) (o : Nat) : Decidable (w.Covers f o) :=
  inferInstanceAs (Decidable (_ ∧ _))

/-- The call stays within the largest file, and its length fits the result. -/
def InRange (w : WriteCall) : Prop :=
  w.offset + w.buf.length ≤ sizeThirdDirectEnd ∧ w.buf.length < 2 ^ 31

end WriteCall

/-- The byte of the last of the calls `ws` that covers the position `o` of `f`. -/
def lastWrite (ws : List WriteCall) (f : InodeId) (o : Nat) : Option UInt8 :=
  (ws.reverse.find? fun w => decide (w.Covers f o)).map fun w => w.buf.getD (o - w.offset) 0

/-- The calls `ws` write exactly the positions below `n` of `f`. -/
def Covered (ws : List WriteCall) (f : InodeId) (n : Nat) : Prop :=
  ∀ o, (∃ w ∈ ws, w.Covers f o) ↔ o < n

/-- A write that returns. -/
def WriteStep (s : Fs) (w : WriteCall) (s' : Fs) : Prop :=
  ∃ res, dhmpFsWrite s w.fh w.buf w.offset = some (s', res)

/-- A file that was created and not yet written. -/
structure EmptyFile (s : Fs) (f : InodeId) : Prop where
  inTree : InTree s f
  regular : (s.inodes f).isDirectories = false
  context : (s.inodes f).context = []

theorem lastWrite_snoc (ws : List WriteCall) (w : WriteCall) (f : InodeId) :
    lastWrite (ws ++ [w]) f =
      if f = w.fh then patch (lastWrite ws f) w.offset w.buf else lastWrite ws f := by
  funext o
  simp only [lastWrite, List.reverse_append, List.reverse_cons, List.reverse_nil, List.nil_append,
    List.singleton_append, List.find?_cons, WriteCall.Covers]
  by_cases hf : w.fh = f
  · subst hf
    simp only [true_and, if_true, patch]
    split
    · rename_i hc
      simp only [decide_eq_true_eq] at hc
      rw [if_pos hc]
      simp only [Option.map_some, List.getD_eq_getElem?_getD]
      rw [List.getElem?_eq_getElem (by omega)]
      rfl
    · rename_i hc
      simp only [decide_eq_false_iff_not] at hc
      rw [if_neg hc]
      rfl
  · simp only [hf, false_and, decide_false, if_neg (Ne.symm hf)]
    rfl

theorem lastWrite_ne_none {ws : List WriteCall} {f : InodeId} {o : Nat} :
    lastWrite ws f o ≠ none ↔ ∃ w ∈ ws, w.Covers f o := by
  simp [lastWrite]

theorem full_lastWrite {ws : List WriteCall} {f : InodeId} {n : Nat} :
    Full (lastWrite ws f) n ↔ Covered ws f n :=
  forall_congr' fun _ => by rw [lastWrite_ne_none]

/-- What holds after the writes `ws` to files that were empty in `s₀`. -/
structure Written (s₀ : Fs) (ws : List WriteCall) (s : Fs) : Prop where
  owned : Owned s
  regular : ∀ f, EmptyFile s₀ f → (s.inodes f).isDirectories = false
  holds : ∀ f, EmptyFile s₀ f → Holds s f (lastWrite ws f)

theorem written_run {s₀ s : Fs} {ws : List WriteCall} (o : Owned s₀)
    (files : ∀ w ∈ ws, EmptyFile s₀ w.fh) (run : Run WriteStep s₀ ws s) : Written s₀ ws s := by
  induction run with
  | refl => exact ⟨o, fun _ hf => hf.regular, fun _ hf => .empty o hf.context⟩
  | @snoc t u ws w _ hstep ih =>
    have ht := ih fun w hw => files w (List.mem_append_left _ hw)
    have hfh := files w (by simp)
    obtain ⟨res, hw⟩ := hstep
    obtain ⟨ou, honly⟩ := dhmpFsWrite_spec ht.owned hw
    refine ⟨ou, fun f hf => ?_, fun f hf => ?_⟩
    · by_cases hff : f = w.fh
      · obtain ⟨_, _, _, heq⟩ := honly.inodes
        rw [hff, heq]
        exact ht.regular _ hfh
      · rw [honly.inodes_ne f hff]
        exact ht.regular f hf
    · rw [lastWrite_snoc]
      exact (ht.holds f hf).write ht.owned (ht.regular _ hfh) hw

/-- Files written in any way read back the last byte written to each position. -/
theorem write_read_back {bank : Nat → Nat → UInt8} {ops : List FsOp} {ws : List WriteCall}
    {s₀ s : Fs} (start : Run FsStep (dhmpInit bank) ops s₀)
    (files : ∀ w ∈ ws, EmptyFile s₀ w.fh) (range : ∀ w ∈ ws, w.InRange)
    (run : Run WriteStep s₀ ws s) :
    (∀ f n, EmptyFile s₀ f → Covered ws f n →
      (s.inodes f).size = n ∧
      ∀ o ≤ n, ∀ k, ∃ bytes res, dhmpFsRead s f k o = some (bytes, res) ∧
        (k < 2 ^ 31 → res = (min k (n - o) : Nat)) ∧ bytes.length = min k (n - o) ∧
        ∀ i < min k (n - o), bytes[i]? = lastWrite ws f (o + i)) ∧
    (∀ w : WriteCall, EmptyFile s₀ w.fh → w.InRange →
      ((∃ s', dhmpFsWrite s w.fh w.buf w.offset = some (s', (w.buf.length : Int))) ↔
        (missingChunks s w.fh w.offset w.buf.length).card ≤ (freeChunks s).card)) := by
  obtain ⟨o, hreg, hholds⟩ := written_run (fsInv_run start).1 files run
  constructor
  · intro f n hf hcov
    have h := hholds f hf
    have hfull := full_lastWrite.mpr hcov
    have hmax : n ≤ sizeThirdDirectEnd := by
      by_contra hlt
      obtain ⟨w, hw, -, -, hend⟩ := (hcov (n - 1)).mpr (by omega)
      have := (range w hw).1
      omega
    refine ⟨h.inode_size_full o hfull, fun off hoff k => ?_⟩
    obtain ⟨ranges, hloop, hd⟩ := h.readLoop_full o hfull hmax k hoff
    refine ⟨_, _, by rw [dhmpFsRead, if_neg (by simp [hreg f hf]), hloop]; rfl, fun hk => ?_, ?_,
      fun i hi => ?_⟩
    · rw [hd.length, toInt_eq (by omega)]
    · rw [hd.bytes]
      simp
    · obtain ⟨b, hb⟩ := Option.ne_none_iff_exists'.mp ((hfull (off + i)).mpr (by omega))
      rw [hd.bytes, List.getElem?_map, List.getElem?_range hi, hb]
      simp [h.fileByte_eq hb]
  · intro w hw hrange
    rw [dhmpFsWrite_returns_iff o (hreg _ hw) hrange.2]
    have hend := hrange.1
    unfold Unmappable
    omega

/-- Two overlapping writes to a new file, read from its second byte on. The chunk for a third
write is there. -/
theorem write_read_back_overlap :
    ∃ s t bytes res, Run WriteStep (FsOp.next (dhmpInit fun _ _ => 0) (.mknod [47, 97]))
        [⟨1, [7, 6, 5], 1⟩, ⟨1, [9, 8], 0⟩] s ∧ (s.inodes 1).size = 4 ∧
      dhmpFsRead s 1 10 1 = some (bytes, res) ∧ res = 3 ∧ bytes[0]? = some 8 ∧
      dhmpFsWrite s 1 [3, 4] 4095 = some (t, 2) ∧
      (missingChunks s 1 4095 2).card ≤ (freeChunks s).card := by
  have start : Run FsStep (dhmpInit fun _ _ => 0) [.mknod [47, 97]]
      (FsOp.next (dhmpInit fun _ _ => 0) (.mknod [47, 97])) := .single (.next trivial rfl)
  have file : EmptyFile (FsOp.next (dhmpInit fun _ _ => 0) (.mknod [47, 97])) 1 :=
    ⟨.son .root ⟨[1], ⟨rfl, rfl⟩, rfl⟩, rfl, rfl⟩
  obtain ⟨s, t, run, further⟩ : ∃ s t,
      Run WriteStep (FsOp.next (dhmpInit fun _ _ => 0) (.mknod [47, 97]))
        [⟨1, [7, 6, 5], 1⟩, ⟨1, [9, 8], 0⟩] s ∧ dhmpFsWrite s 1 [3, 4] 4095 = some (t, 2) :=
    ⟨_, _, .cons ⟨_, rfl⟩ (.single ⟨_, rfl⟩), rfl⟩
  have covered : Covered [⟨1, [7, 6, 5], 1⟩, ⟨1, [9, 8], 0⟩] 1 4 := by
    intro o
    simp [WriteCall.Covers]
    omega
  have range : ∀ w ∈ [(⟨1, [7, 6, 5], 1⟩ : WriteCall), ⟨1, [9, 8], 0⟩], w.InRange := by
    simp only [List.forall_mem_cons, List.not_mem_nil, false_imp_iff, implies_true, and_true,
      WriteCall.InRange]
    decide
  obtain ⟨hback, hreturns⟩ := write_read_back start (by simpa using file) range run
  obtain ⟨hsize, hread⟩ := hback 1 4 file covered
  obtain ⟨bytes, res, hr, hres, -, hbytes⟩ := hread 1 (by decide) 10
  have hfree := (hreturns ⟨1, [3, 4], 4095⟩ file (by simp [WriteCall.InRange]; decide)).mp
    ⟨t, further⟩
  exact ⟨s, t, bytes, res, run, hsize, hr, hres (by decide), hbytes 0 (by decide), further, hfree⟩

end DhmpFs
