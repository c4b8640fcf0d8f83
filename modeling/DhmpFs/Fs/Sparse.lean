import DhmpFs.Fs.ReadBack
import DhmpFs.Fs.WriteFailure
import Mathlib.Algebra.Order.BigOperators.Group.Finset

/-!
# Files with gaps

The size of an inode is the number of bytes its chunks hold: the ends of the chunks, added up.
It is the end of the file when no chunk before the last one ends early. A read delivers what
lies up to the first position without data; a gap inside a chunk reads as what the chunk held
before.

## Main definitions

* `largestEnd`: where the last of the writes to a file ends.
* `Gapless`: no chunk before the last one ends early.
* `ReadsContent`: what a read delivers.
-/

namespace DhmpFs

open Library

/-- The largest end of the calls that write to `f`. -/
def largestEnd (ws : List WriteCall) (f : InodeId) : Nat :=
  (ws.filter fun w => w.fh = f ∧ w.buf ≠ []).foldr (fun w n => max (w.offset + w.buf.length) n) 0

/-- Every chunk before the last one of `n` bytes is written up to its end. -/
def Gapless (a : Content) (n : Nat) : Prop :=
  ∀ j, (j + 1) * chunkSize < n → a (j * chunkSize + (chunkSize - 1)) ≠ none

/-- The byte that the chunk at a position held in `s₀`, before the file `f` of `s` had it. -/
def staleByte (s₀ s : Fs) (f : InodeId) (o : Nat) : UInt8 :=
  match (s.inodes f).cntId.get (slotOf (o / chunkSize)) with
  | some c => chunkByte s₀ c (o % chunkSize)
  | none => 0

/-- The free chunks hold zeros. -/
def FreeZero (s : Fs) : Prop := ∀ c, s.bitmap c = false → ∀ k < chunkSize, chunkByte s c k = 0

/-- The bytes of a read of `k` bytes at `o`: those up to the first position without data. A byte
never written is what the chunk held before. -/
structure ReadsContent (a : Content) (stale : Nat → UInt8) (o k : Nat) (bytes : List UInt8) :
    Prop where
  le : bytes.length ≤ k
  inData : ∀ i < bytes.length, InData a (o + i)
  byte : ∀ i < bytes.length, bytes[i]? = some ((a (o + i)).getD (stale (o + i)))
  stop : bytes.length < k → ¬ InData a (o + bytes.length)

/-! ## Ends -/

section ends

variable {a : Content} {n : Nat}

/-- `n` is the end of the last byte written. -/
structure IsEnd (a : Content) (n : Nat) : Prop where
  lt : ∀ p, a p ≠ none → p < n
  last : n = 0 ∨ a (n - 1) ≠ none

namespace IsEnd

theorem chunkEnd_le_min (h : IsEnd a n) (j : Nat) :
    chunkEnd a j ≤ min chunkSize (n - j * chunkSize) := by
  refine Nat.le_min.mpr ⟨chunkEnd_le a j, Nat.le_of_not_lt fun hlt => ?_⟩
  obtain ⟨l, hle, -, hw⟩ := lt_chunkEnd_iff.mp hlt
  have := h.lt _ hw
  omega

theorem chunkEnd_eq_min_iff (h : IsEnd a n) (j : Nat) :
    chunkEnd a j = min chunkSize (n - j * chunkSize) ↔
      ((j + 1) * chunkSize < n → a (j * chunkSize + (chunkSize - 1)) ≠ none) := by
  have hle := h.chunkEnd_le_min j
  have hsucc : (j + 1) * chunkSize = j * chunkSize + chunkSize := Nat.succ_mul ..
  constructor
  · intro heq hlt
    obtain ⟨l, hl, hlt', hw⟩ := (lt_chunkEnd_iff (a := a) (j := j) (k := chunkSize - 1)).mp (by
      have := chunkSize_pos
      omega)
    obtain rfl : l = chunkSize - 1 := by omega
    exact hw
  · intro hlast
    refine Nat.le_antisymm hle (Nat.le_of_not_lt fun hlt => ?_)
    rcases Nat.lt_or_ge ((j + 1) * chunkSize) n with hn | hn
    · have hpos := chunkSize_pos
      have hin : chunkSize - 1 < chunkEnd a j :=
        lt_chunkEnd_iff.mpr ⟨chunkSize - 1, Nat.le_refl _, by omega, hlast hn⟩
      omega
    · have hw := h.last.resolve_left (by omega)
      have hpos : j * chunkSize + (n - 1 - j * chunkSize) = n - 1 := by omega
      have hin : n - 1 - j * chunkSize < chunkEnd a j :=
        lt_chunkEnd_iff.mpr ⟨n - 1 - j * chunkSize, Nat.le_refl _, by omega, by rwa [hpos]⟩
      omega

/-- The chunk ends add up to the end of the file when there are no gaps between chunks. -/
theorem sum_chunkEnd (h : IsEnd a n) {m : Nat} (hm : n ≤ m * chunkSize) :
    ∑ j ∈ Finset.range m, chunkEnd a j ≤ n ∧
      (∑ j ∈ Finset.range m, chunkEnd a j = n ↔ Gapless a n) := by
  have hsum := sum_chunk_sizes n m
  rw [Nat.min_eq_left hm] at hsum
  have hle : ∀ j ∈ Finset.range m, chunkEnd a j ≤ min chunkSize (n - j * chunkSize) :=
    fun j _ => h.chunkEnd_le_min j
  constructor
  · exact hsum ▸ Finset.sum_le_sum hle
  · conv_lhs => rw [← hsum]
    rw [Finset.sum_eq_sum_iff_of_le hle]
    refine ⟨fun heq j hj => (h.chunkEnd_eq_min_iff j).mp (heq j ?_) hj,
      fun hg j _ => (h.chunkEnd_eq_min_iff j).mpr (hg j)⟩
    refine Finset.mem_range.mpr (Nat.lt_of_mul_lt_mul_right (hj.trans_le hm |>.trans' ?_))
    exact Nat.mul_lt_mul_of_pos_right (Nat.lt_succ_self j) chunkSize_pos

theorem inData_of_gapless (h : IsEnd a n) (hg : Gapless a n) {p : Nat} (hp : p < n) :
    InData a p := by
  have heq := (h.chunkEnd_eq_min_iff (p / chunkSize)).mpr (hg _)
  have hdiv := Nat.div_add_mod' p chunkSize
  have hmod := Nat.mod_lt p chunkSize_pos
  rw [InData, heq]
  omega

end IsEnd

/-- The largest end is an end, and no end is larger. -/
theorem largestEnd_spec (ws : List WriteCall) (f : InodeId) :
    (∀ w ∈ ws, w.fh = f → w.buf ≠ [] → w.offset + w.buf.length ≤ largestEnd ws f) ∧
      (largestEnd ws f = 0 ∨
        ∃ w ∈ ws, w.fh = f ∧ w.buf ≠ [] ∧ largestEnd ws f = w.offset + w.buf.length) := by
  induction ws with
  | nil => exact ⟨by simp, .inl rfl⟩
  | cons v ws ih =>
    have hcons : largestEnd (v :: ws) f = if v.fh = f ∧ v.buf ≠ [] then
        max (v.offset + v.buf.length) (largestEnd ws f) else largestEnd ws f := by
      unfold largestEnd
      by_cases hv : v.fh = f ∧ v.buf ≠ [] <;> simp [hv]
    obtain ⟨hle, hex⟩ := ih
    rw [hcons]
    constructor
    · rintro w (_ | ⟨_, hw⟩) hf hne
      · rw [if_pos ⟨hf, hne⟩]
        exact Nat.le_max_left ..
      · have := hle w hw hf hne
        split <;> omega
    · split
      · next hv =>
        rcases Nat.le_total (largestEnd ws f) (v.offset + v.buf.length) with hmax | hmax
        · exact .inr ⟨v, List.mem_cons_self .., hv.1, hv.2, Nat.max_eq_left hmax⟩
        · rw [Nat.max_eq_right hmax]
          exact hex.imp_right fun ⟨w, hw, h⟩ => ⟨w, List.mem_cons_of_mem _ hw, h⟩
      · exact hex.imp_right fun ⟨w, hw, h⟩ => ⟨w, List.mem_cons_of_mem _ hw, h⟩

theorem isEnd_lastWrite (ws : List WriteCall) (f : InodeId) :
    IsEnd (lastWrite ws f) (largestEnd ws f) := by
  obtain ⟨hle, hex⟩ := largestEnd_spec ws f
  refine ⟨fun p hp => ?_, hex.imp_right ?_⟩
  · obtain ⟨w, hw, hf, hlo, hhi⟩ := lastWrite_ne_none.mp hp
    have hpos : 0 < w.buf.length := by omega
    have := hle w hw hf (List.ne_nil_of_length_pos hpos)
    omega
  · rintro ⟨w, hw, hf, hne, heq⟩
    have := List.length_pos_iff.mpr hne
    exact lastWrite_ne_none.mpr ⟨w, hw, hf, by omega, by omega⟩

end ends

/-! ## What a chunk held before -/

/-- A history of writes since `s₀`: chunks come from the free chunks of `s₀`, and what was not
written is as it was. -/
structure Kept (s₀ s : Fs) (f : InodeId) (a : Content) : Prop where
  free : ∀ c, s.bitmap c = false → s₀.bitmap c = false ∧
    ∀ k < chunkSize, chunkByte s c k = chunkByte s₀ c k
  own : ∀ j c, (s.inodes f).cntId.get (slotOf j) = some c → s₀.bitmap c = false ∧
    ∀ k < chunkSize, a (j * chunkSize + k) = none → chunkByte s c k = chunkByte s₀ c k

namespace Kept

variable {s₀ s s' : Fs} {f g : InodeId} {a : Content} {offset : Nat} {bytes : List UInt8}

theorem chunkByte_of_located {s s1 : Fs} {slot : Slot} {c d : Chunk} {co k : Nat}
    (loc : Located s g slot c s1) (hk : k < chunkSize) (hfit : co + bytes.length ≤ chunkSize)
    (hd : d = c → ¬ (co ≤ k ∧ k < co + bytes.length)) :
    chunkByte (placeBytes s1 g c co bytes) d k = chunkByte s d k := by
  rw [Holds.placeBytes_byte g hk hfit, if_neg fun h => hd h.1 h.2, chunkByte, loc.bank, chunkByte]

/-- A free chunk after a round was free before, and was not written. -/
theorem free_step (h : Kept s₀ s f a) (o : Owned s) (hw : ChunkWrite g s offset bytes s')
    {c : Chunk} (hc : s'.bitmap c = false) :
    s₀.bitmap c = false ∧ ∀ k < chunkSize, chunkByte s' c k = chunkByte s₀ c k := by
  obtain ⟨-, -, hfit, s1, d, loc, rfl⟩ := hw
  have hne : c ≠ d := by
    rintro rfl
    have := (loc.owned o).bitmap_of_get loc.get
    simp [placeBytes, this] at hc
  have hfree : s.bitmap c = false := by
    cases loc with
    | hit => exact hc
    | alloc al => simpa [placeBytes, al.eq, hne] using hc
  refine ⟨(h.free c hfree).1, fun k hk => ?_⟩
  rw [chunkByte_of_located loc hk hfit fun heq => absurd heq hne]
  exact (h.free c hfree).2 k hk

theorem write_ne (h : Kept s₀ s f a) (o : Owned s) (hne : f ≠ g)
    (hw : ChunkWrite g s offset bytes s') : Kept s₀ s' f a := by
  refine ⟨fun c hc => h.free_step o hw hc, ?_⟩
  obtain ⟨-, -, hfit, s1, c, loc, rfl⟩ := hw
  intro j d hget
  rw [Holds.placeBytes_index, loc.inodes_ne hne] at hget
  have hd : d ≠ c := by
    rintro rfl
    rw [← loc.inodes_ne hne] at hget
    exact hne ((loc.owned o).eq_of_get hget loc.get).1
  refine ⟨(h.own j d hget).1, fun k hk hnone => ?_⟩
  rw [chunkByte_of_located loc hk hfit fun heq => absurd heq hd]
  exact (h.own j d hget).2 k hk hnone

theorem write_self (h : Kept s₀ s f a) (o : Owned s) (hw : ChunkWrite f s offset bytes s') :
    Kept s₀ s' f (patch a offset bytes) := by
  refine ⟨fun c hc => h.free_step o hw hc, ?_⟩
  obtain ⟨-, -, hfit, s1, c, loc, rfl⟩ := hw
  intro j d hget
  -- what the chunk of the slot held before the round
  have hbefore : s₀.bitmap d = false ∧ ∀ k < chunkSize, a (j * chunkSize + k) = none →
      chunkByte s d k = chunkByte s₀ d k := by
    rcases Holds.placeBytes_get o loc hget with ⟨rfl, rfl⟩ | ⟨-, -, hold⟩
    · cases loc with
      | hit hhit => exact h.own _ d hhit
      | alloc al =>
        obtain ⟨hfree, hbyte⟩ := h.free d al.free
        exact ⟨hfree, fun k hk _ => hbyte k hk⟩
    · exact h.own j d hold
  refine ⟨hbefore.1, fun k hk hnone => ?_⟩
  rw [patch_chunk a hfit hk] at hnone
  split at hnone
  · next hin =>
    rw [List.getElem?_eq_getElem (by omega)] at hnone
    simp at hnone
  · next hout =>
    rw [chunkByte_of_located loc hk hfit ?_]
    · exact hbefore.2 k hk hnone
    · rintro rfl hin
      rcases Holds.placeBytes_get o loc hget with ⟨hj, -⟩ | ⟨-, hd, -⟩
      · exact hout ⟨hj, hin⟩
      · exact hd rfl

theorem write (h : Kept s₀ s f a) (o : Owned s) {res : Int}
    (hg : (s.inodes g).isDirectories = false)
    (hw : dhmpFsWrite s g bytes offset = some (s', res)) :
    Kept s₀ s' f (if f = g then patch a offset bytes else a) := by
  have hrule := dhmpFsWrite_rule
    (fun done t => Owned t ∧ Kept s₀ t f (if f = g then patch a offset done else a))
    (fun _ _ => And.left) ?_ hg ⟨o, by simpa using h⟩ hw
  · exact hrule.2
  · rintro done u piece u' ⟨ou, hu⟩ hpiece
    refine ⟨hpiece.owned ou, ?_⟩
    by_cases hfg : f = g
    · subst hfg
      rw [if_pos rfl, patch_append]
      rw [if_pos rfl] at hu
      exact hu.write_self ou hpiece
    · rw [if_neg hfg] at hu ⊢
      exact hu.write_ne ou hfg hpiece

end Kept

/-! ## Runs of writes -/

section

variable {s₀ s : Fs} {ws : List WriteCall} {f : InodeId}

theorem kept_run (o : Owned s₀) (files : ∀ w ∈ ws, EmptyFile s₀ w.fh) (run : Run WriteStep s₀ ws s)
    (hf : EmptyFile s₀ f) : Kept s₀ s f (lastWrite ws f) := by
  induction run with
  | refl =>
    refine ⟨fun c hc => ⟨hc, fun _ _ => rfl⟩, fun j c hc => ?_⟩
    have := o.mem_of_get hc
    simp [hf.context] at this
  | snoc run hstep ih =>
    have files' := fun w hw => files w (List.mem_append_left _ hw)
    have written := written_run o files' run
    obtain ⟨res, hw⟩ := hstep
    rw [lastWrite_snoc]
    exact (ih files').write written.owned (written.regular _ (files _ (by simp))) hw

/-- No byte is written past the largest file. -/
theorem lastWrite_lt (o : Owned s₀) (files : ∀ w ∈ ws, EmptyFile s₀ w.fh)
    (run : Run WriteStep s₀ ws s) :
    ∀ p, lastWrite ws f p ≠ none → p < sizeThirdDirectEnd := by
  induction run with
  | refl => exact fun p hp => absurd rfl hp
  | @snoc t u ws w run hstep ih =>
    have files' := fun w hw => files w (List.mem_append_left _ hw)
    have written := written_run o files' run
    obtain ⟨res, hw⟩ := hstep
    have hmap : ¬ Unmappable t w.fh w.offset w.buf.length := by
      intro hun
      rw [(dhmpFsWrite_eq_none_iff written.owned).mpr
        ⟨written.regular _ (files _ (by simp)), hun⟩] at hw
      simp at hw
    intro p hp
    obtain ⟨v, hv, hcov⟩ := lastWrite_ne_none.mp hp
    rcases List.mem_append.mp hv with hv | hv
    · exact ih files' p (lastWrite_ne_none.mpr ⟨v, hv, hcov⟩)
    · obtain rfl := List.mem_singleton.mp hv
      obtain ⟨-, hlo, hhi⟩ := hcov
      by_contra hge
      exact hmap (.inl ⟨by omega, by omega⟩)

end

/-- The bytes of a read that does not start behind the data of its chunk. -/
theorem Holds.read_content {s₀ s : Fs} {f : InodeId} {a : Content} (h : Holds s f a) (o : Owned s)
    (kept : Kept s₀ s f a) (hf : (s.inodes f).isDirectories = false)
    (hmax : ∀ p, a p ≠ none → p < sizeThirdDirectEnd) {off : Nat} (k : Nat)
    (hstart : chunkEnd a (off / chunkSize) = 0 ∨
      off % chunkSize ≤ chunkEnd a (off / chunkSize)) :
    ∃ bytes, dhmpFsRead s f k off = some (bytes, toInt bytes.length) ∧
      ReadsContent a (staleByte s₀ s f) off k bytes := by
  have hstart' : StartsInData s f k off := by
    refine .inr (.inr fun c hc => ?_)
    obtain ⟨k, hk, hsize⟩ := (h.size _ c hc).last
    have hend := h.chunkEnd_eq (off / chunkSize)
    simp only [hc, Option.map_some, Option.getD_some] at hend
    omega
  obtain ⟨ranges, n, hloop, hd⟩ := readLoop_delivers o k (Nat.le_refl k) hstart'
  have hlen : (ranges.flatMap (Range.bytes s)).length = n := by simp [hd.bytes]
  refine ⟨ranges.flatMap (Range.bytes s), by simp [dhmpFsRead, hf, hloop, hd.length, hlen], ?_⟩
  have hin := h.inFile_iff hmax
  refine ⟨hlen ▸ hd.le, fun i hi => (hin _).mp (hd.inFile i (hlen ▸ hi)), fun i hi => ?_,
    fun hlt => ?_⟩
  · rw [hd.bytes, List.getElem?_map, List.getElem?_range (hlen ▸ hi)]
    simp only [Option.map_some, Option.some.injEq]
    cases hw : a (off + i) with
    | some b => exact h.fileByte_eq hw
    | none =>
      have hdiv := Nat.div_add_mod' (off + i) chunkSize
      obtain ⟨-, c, hc, -⟩ := hd.inFile i (hlen ▸ hi)
      simp only [fileByte, staleByte, hc, Option.getD_none]
      exact (kept.own _ c hc).2 _ (Nat.mod_lt _ chunkSize_pos) (by rw [hdiv, hw])
  · rw [hlen] at hlt ⊢
    exact fun hin' => hd.stop hlt ((hin _).mpr hin')

/-- After any writes to new files: the size of a file is the sum of the ends of its chunks, which
is the end of the file when it is gapless; and a read delivers the data up to the first position
without. -/
theorem sparse_write_read {bank : Nat → Nat → UInt8} {ops : List FsOp} {ws : List WriteCall}
    {s₀ s : Fs} (start : Run FsStep (dhmpInit bank) ops s₀)
    (files : ∀ w ∈ ws, EmptyFile s₀ w.fh) (run : Run WriteStep s₀ ws s) {f : InodeId}
    (hf : EmptyFile s₀ f) :
    ((s.inodes f).size =
        ∑ j ∈ Finset.range (largestEnd ws f / chunkSize + 1), chunkEnd (lastWrite ws f) j ∧
      (s.inodes f).size ≤ largestEnd ws f ∧
      ((s.inodes f).size = largestEnd ws f ↔ Gapless (lastWrite ws f) (largestEnd ws f))) ∧
    (∀ o k, (chunkEnd (lastWrite ws f) (o / chunkSize) = 0 ∨
        o % chunkSize ≤ chunkEnd (lastWrite ws f) (o / chunkSize)) →
      ∃ bytes, dhmpFsRead s f k o = some (bytes, toInt bytes.length) ∧
        ReadsContent (lastWrite ws f) (staleByte s₀ s f) o k bytes ∧
        (Gapless (lastWrite ws f) (largestEnd ws f) → o + k ≤ largestEnd ws f →
          bytes.length = k)) ∧
    (FreeZero s₀ → ∀ p, staleByte s₀ s f p = 0) := by
  have o₀ := (fsInv_run start).1
  have written := written_run o₀ files run
  have holds := written.holds f hf
  have kept := kept_run o₀ files run hf
  have hmax := lastWrite_lt (f := f) o₀ files run
  have hend := isEnd_lastWrite ws f
  have hm : largestEnd ws f ≤ (largestEnd ws f / chunkSize + 1) * chunkSize :=
    (Nat.lt_mul_of_div_lt (Nat.lt_succ_self _) chunkSize_pos).le
  have hsize := holds.inode_size written.owned fun p hp => (hend.lt p hp).trans_le hm
  refine ⟨⟨hsize, ?_⟩, fun off k hstart => ?_, fun hzero p => ?_⟩
  · rw [hsize]
    exact hend.sum_chunkEnd hm
  · obtain ⟨bytes, hread, hcontent⟩ :=
      holds.read_content written.owned kept (written.regular f hf) hmax k hstart
    refine ⟨bytes, hread, hcontent, fun hg hle => ?_⟩
    refine Nat.le_antisymm hcontent.le (Nat.le_of_not_lt fun hlt => hcontent.stop hlt ?_)
    exact hend.inData_of_gapless hg (by omega)
  · unfold staleByte
    split
    · next c hc => exact hzero c (kept.own _ c hc).1 _ (Nat.mod_lt p chunkSize_pos)
    · rfl

/-- One byte at offset 3 of a new file: four bytes, the first of which reads as zero. -/
theorem sparse_write_read_gap :
    ∃ s bytes, Run WriteStep (FsOp.next (dhmpInit fun _ _ => 0) (.mknod [47, 97])) [⟨1, [9], 3⟩] s ∧
      (s.inodes 1).size = 4 ∧ dhmpFsRead s 1 4 0 = some (bytes, 4) ∧ bytes[0]? = some 0 := by
  have start : Run FsStep (dhmpInit fun _ _ => 0) [.mknod [47, 97]]
      (FsOp.next (dhmpInit fun _ _ => 0) (.mknod [47, 97])) := .single (.next trivial rfl)
  have file : EmptyFile (FsOp.next (dhmpInit fun _ _ => 0) (.mknod [47, 97])) 1 :=
    ⟨.son .root ⟨[1], ⟨rfl, rfl⟩, rfl⟩, rfl, rfl⟩
  have run : Run WriteStep (FsOp.next (dhmpInit fun _ _ => 0) (.mknod [47, 97])) [⟨1, [9], 3⟩] _ :=
    .single ⟨1, rfl⟩
  have gapless : Gapless (lastWrite [⟨1, [9], 3⟩] 1) (largestEnd [⟨1, [9], 3⟩] 1) := by
    intro j hj
    have hend : largestEnd [⟨1, [9], 3⟩] 1 = 4 := rfl
    simp only [hend, chunkSize] at hj
    omega
  obtain ⟨⟨-, -, hsize⟩, hread, hzero⟩ := sparse_write_read start (by simpa using file) run file
  obtain ⟨bytes, hr, hcontent, hlen⟩ := hread 0 4 (.inr (Nat.zero_le _))
  have hlen := hlen gapless (Nat.le_refl 4)
  rw [hlen] at hr
  refine ⟨_, bytes, run, hsize.mpr gapless, hr, ?_⟩
  rw [hcontent.byte 0 (by omega), hzero fun _ _ _ _ => rfl]
  rfl

/-- One byte at the start of the third chunk of a new file: the size is 1, and the byte 0 cannot be
read. -/
theorem not_size_largestEnd :
    ∃ s, Run WriteStep (FsOp.next (dhmpInit fun _ _ => 0) (.mknod [47, 97])) [⟨1, [9], 8192⟩] s ∧
      largestEnd [⟨1, [9], 8192⟩] 1 = 8193 ∧ (s.inodes 1).size = 1 ∧
      dhmpFsRead s 1 1 0 = some ([], 0) :=
  ⟨_, .single ⟨1, rfl⟩, rfl, rfl, rfl⟩

end DhmpFs
