import DhmpFs.Fs.Reachable
import DhmpFs.Fs.ReadLoop
import Mathlib.Algebra.BigOperators.Intervals
import Mathlib.Order.Lattice.Nat

/-!
# The bytes of a file

`Holds s f a` says that the chunks of `f` carry the bytes `a`, where `a` is undefined at the
positions never written. A chunk exists when one of its positions was written, and its size is
the end of the last one.

## Main definitions

* `patch`: the content after a write.
* `Holds`: a file carries a content.
-/

namespace DhmpFs

open Library

/-! ## Places in the banks -/

/-- Two chunks lie apart. -/
theorem place_injective {c d k l : Nat} (hk : k < chunkSize) (hl : l < chunkSize)
    (hb : bankId c = bankId d) (ho : bankOffset c + k = bankOffset d + l) : c = d ∧ k = l := by
  simp only [bankId, bankOffset, chunkSize, bankSize, Nat.reduceMul] at *
  omega

theorem chunkByte_writeToCache {s : Fs} {c d : Chunk} {offset k : Nat} {bytes : List UInt8}
    (hk : k < chunkSize) (hfit : offset + bytes.length ≤ chunkSize) :
    chunkByte (s.writeToCache (bankId c) bytes (bankOffset c + offset)) d k =
      if d = c ∧ offset ≤ k ∧ k < offset + bytes.length then bytes.getD (k - offset) 0
      else chunkByte s d k := by
  by_cases hd : d = c
  · subst hd
    simp only [chunkByte, Fs.writeToCache, true_and]
    have hsub : bankOffset d + k - (bankOffset d + offset) = k - offset := by omega
    rw [hsub]
    congr 1
    simp only [eq_iff_iff]
    omega
  · simp only [chunkByte, Fs.writeToCache, hd, false_and, if_false]
    refine if_neg fun ⟨hb, hlo, hhi⟩ => ?_
    have hplace := place_injective (c := d) (d := c) (l := bankOffset d + k - bankOffset c) hk
      (by omega) hb (by omega)
    exact hd hplace.1

/-! ## Contents -/

/-- The bytes of a file by position; `none` was never written. -/
abbrev Content := Nat → Option UInt8

/-- The content after `bytes` are written at `offset`. -/
def patch (a : Content) (offset : Nat) (bytes : List UInt8) : Content := fun o =>
  if offset ≤ o ∧ o < offset + bytes.length then bytes[o - offset]? else a o

@[simp] theorem patch_nil (a : Content) (offset : Nat) : patch a offset [] = a := by
  funext o
  exact if_neg (by simp)

theorem patch_append (a : Content) (offset : Nat) (l l' : List UInt8) :
    patch a offset (l ++ l') = patch (patch a offset l) (offset + l.length) l' := by
  funext o
  simp only [patch, List.length_append]
  grind

/-- A write within one chunk, in chunk coordinates. -/
theorem patch_chunk (a : Content) {offset : Nat} {bytes : List UInt8}
    (hfit : offset % chunkSize + bytes.length ≤ chunkSize) {j k : Nat} (hk : k < chunkSize) :
    patch a offset bytes (j * chunkSize + k) =
      if j = offset / chunkSize ∧ offset % chunkSize ≤ k ∧ k < offset % chunkSize + bytes.length
      then bytes[k - offset % chunkSize]? else a (j * chunkSize + k) := by
  have hdiv := Nat.div_add_mod' offset chunkSize
  have hmod := Nat.mod_lt offset chunkSize_pos
  simp only [chunkSize] at *
  unfold patch
  by_cases hj : j = offset / (1024 * 4)
  · subst hj
    have hsub : offset / (1024 * 4) * (1024 * 4) + k - offset = k - offset % (1024 * 4) := by
      omega
    rw [hsub]
    congr 1
    simp only [eq_iff_iff, true_and]
    omega
  · have hout : ¬ (offset ≤ j * (1024 * 4) + k ∧ j * (1024 * 4) + k < offset + bytes.length) := by
      omega
    rw [if_neg hout, if_neg (fun h => hj h.1)]

/-- The size of a chunk is the end of its last written position. -/
structure HighWater (written : Nat → Prop) (size : Nat) : Prop where
  lt : ∀ k, written k → k < size
  last : ∃ k, written k ∧ size = k + 1

/-- The file `f` carries the content `a`. -/
structure Holds (s : Fs) (f : InodeId) (a : Content) : Prop where
  slots : ∀ slot c, (s.inodes f).cntId.get slot = some c → ∃ j, slot = slotOf j
  hole : ∀ j, (s.inodes f).cntId.get (slotOf j) = none →
    ∀ k < chunkSize, a (j * chunkSize + k) = none
  size : ∀ j c, (s.inodes f).cntId.get (slotOf j) = some c →
    HighWater (fun k => k < chunkSize ∧ a (j * chunkSize + k) ≠ none) (s.contextAddr c).size
  byte : ∀ j c, (s.inodes f).cntId.get (slotOf j) = some c → ∀ k < chunkSize, ∀ b,
    a (j * chunkSize + k) = some b → chunkByte s c k = b

namespace Holds

variable {s s' : Fs} {f g : InodeId} {a : Content} {offset : Nat} {bytes : List UInt8}

/-- A file without chunks carries nothing. -/
theorem empty (o : Owned s) (hf : (s.inodes f).context = []) : Holds s f fun _ => none := by
  have hnone : ∀ slot c, (s.inodes f).cntId.get slot ≠ some c := by
    simp [o.get_none hf]
  exact ⟨fun _ _ hc => absurd hc (hnone _ _), fun _ _ _ _ => rfl,
    fun _ _ hc => absurd hc (hnone _ _), fun _ _ hc => absurd hc (hnone _ _)⟩

theorem placeBytes_size (s : Fs) (head : InodeId) (c d : Chunk) (co : Nat)
    (bytes : List UInt8) : ((placeBytes s head c co bytes).contextAddr d).size =
      if d = c then max (s.contextAddr c).size (co + bytes.length) else (s.contextAddr d).size :=
  growChunk_size ..

theorem placeBytes_index (s : Fs) (head i : InodeId) (c : Chunk) (co : Nat)
    (bytes : List UInt8) :
    ((placeBytes s head c co bytes).inodes i).cntId = (s.inodes i).cntId := by
  rw [placeBytes, growChunk_index]
  rfl

theorem placeBytes_byte {s : Fs} (head : InodeId) {c d : Chunk} {co k : Nat}
    {bytes : List UInt8} (hk : k < chunkSize) (hfit : co + bytes.length ≤ chunkSize) :
    chunkByte (placeBytes s head c co bytes) d k =
      if d = c ∧ co ≤ k ∧ k < co + bytes.length then bytes.getD (k - co) 0
      else chunkByte s d k :=
  chunkByte_writeToCache hk hfit

/-- Writing to another file. -/
theorem write_ne (h : Holds s f a) (o : Owned s) (hne : f ≠ g)
    (hw : ChunkWrite g s offset bytes s') : Holds s' f a := by
  obtain ⟨-, -, hfit, s1, c, loc, rfl⟩ := hw
  have o1 := loc.owned o
  have hindex : ∀ slot, ((placeBytes s1 g c (offset % chunkSize) bytes).inodes f).cntId.get slot =
      (s.inodes f).cntId.get slot := by
    intro slot
    rw [placeBytes_index, loc.inodes_ne hne]
  have hd : ∀ slot d, (s.inodes f).cntId.get slot = some d → d ≠ c := by
    rintro slot d hget rfl
    rw [← loc.inodes_ne hne] at hget
    exact hne (o1.eq_of_get hget loc.get).1
  constructor
  · intro slot d
    rw [hindex]
    exact h.slots slot d
  · intro j
    rw [hindex]
    exact h.hole j
  · intro j d hget
    rw [hindex] at hget
    rw [placeBytes_size, if_neg (hd _ d hget), loc.size]
    exact h.size j d hget
  · intro j d hget k hk b hb
    rw [hindex] at hget
    rw [placeBytes_byte g hk hfit, if_neg (fun hc => hd _ d hget hc.1), chunkByte, loc.bank]
    exact h.byte j d hget k hk b hb

/-- The slots of a file after a round: that of the chunk written, and those from before. -/
theorem placeBytes_get {s s1 : Fs} {f : InodeId} {c d : Chunk} {i j co : Nat}
    {bytes : List UInt8} (o : Owned s) (loc : Located s f (slotOf i) c s1)
    (hget : ((placeBytes s1 f c co bytes).inodes f).cntId.get (slotOf j) = some d) :
    (j = i ∧ d = c) ∨ (j ≠ i ∧ d ≠ c ∧ (s.inodes f).cntId.get (slotOf j) = some d) := by
  rw [placeBytes_index] at hget
  by_cases hj : j = i
  · rw [hj, loc.get] at hget
    exact .inl ⟨hj, (Option.some.inj hget).symm⟩
  · have hslot : slotOf j ≠ slotOf i := fun h => hj (slotOf_injective h)
    refine .inr ⟨hj, ?_, by rwa [loc.get_ne hslot] at hget⟩
    rintro rfl
    exact hslot ((loc.owned o).eq_of_get hget loc.get).2

/-- What the chunk that a lookup finds or takes holds before it is written to. -/
structure Before (s : Fs) (a : Content) (i : Nat) (c : Chunk) : Prop where
  byte : ∀ k < chunkSize, ∀ b, a (i * chunkSize + k) = some b →
    chunkByte s c k = b ∧ k < (s.contextAddr c).size
  last : 0 < (s.contextAddr c).size →
    ∃ k, (k < chunkSize ∧ a (i * chunkSize + k) ≠ none) ∧ (s.contextAddr c).size = k + 1

theorem before (h : Holds s f a) (o : Owned s) {i : Nat} {c : Chunk} {s1 : Fs}
    (loc : Located s f (slotOf i) c s1) : Before s a i c := by
  cases loc with
  | hit hget =>
    refine ⟨fun k hk b hb => ⟨h.byte _ c hget k hk b hb, ?_⟩, fun _ => (h.size _ c hget).last⟩
    exact (h.size _ c hget).lt k ⟨hk, by simp [hb]⟩
  | alloc al =>
    refine ⟨fun k hk b hb => ?_, fun hpos => ?_⟩
    · simp [h.hole _ al.empty k hk] at hb
    · simp [o.size_free c al.free] at hpos

/-- The end of the data moves to that of the bytes written, if these reach further. -/
theorem Before.highWater {c : Chunk} (h : Before s a (offset / chunkSize) c) (hne : bytes ≠ [])
    (hfit : offset % chunkSize + bytes.length ≤ chunkSize) :
    HighWater (fun k => k < chunkSize ∧
        patch a offset bytes (offset / chunkSize * chunkSize + k) ≠ none)
      (max (s.contextAddr c).size (offset % chunkSize + bytes.length)) := by
  have hlen := List.length_pos_iff.mpr hne
  have hpatch := fun {k} => patch_chunk a hfit (j := offset / chunkSize) (k := k)
  constructor
  · rintro k ⟨hk, hw⟩
    rw [hpatch hk] at hw
    split at hw
    · omega
    · obtain ⟨b, hb⟩ := Option.ne_none_iff_exists'.mp hw
      have := (h.byte k hk b hb).2
      omega
  · by_cases hmax : (s.contextAddr c).size ≤ offset % chunkSize + bytes.length
    · refine ⟨offset % chunkSize + bytes.length - 1, ⟨by omega, ?_⟩, by omega⟩
      rw [hpatch (by omega), if_pos ⟨rfl, by omega, by omega⟩]
      simp
      omega
    · obtain ⟨k, ⟨hk, hw⟩, hsize⟩ := h.last (by omega)
      refine ⟨k, ⟨hk, ?_⟩, by omega⟩
      rwa [hpatch hk, if_neg (by omega)]

/-- Writing to the file itself. -/
theorem write_self (h : Holds s f a) (o : Owned s) (hw : ChunkWrite f s offset bytes s') :
    Holds s' f (patch a offset bytes) := by
  obtain ⟨hne, -, hfit, s1, c, loc, rfl⟩ := hw
  have hbefore := h.before o loc
  have hindex : ∀ slot, ((placeBytes s1 f c (offset % chunkSize) bytes).inodes f).cntId.get slot =
      if slot = slotOf (offset / chunkSize) then some c else (s.inodes f).cntId.get slot := by
    intro slot
    rw [placeBytes_index]
    split
    · next hs => rw [hs, loc.get]
    · next hs => exact loc.get_ne hs
  have hold : ∀ j k, k < chunkSize → j ≠ offset / chunkSize →
      patch a offset bytes (j * chunkSize + k) = a (j * chunkSize + k) := by
    intro j k hk hj
    rw [patch_chunk a hfit hk, if_neg (fun hc => hj hc.1)]
  constructor
  case slots =>
    intro slot d hget
    rw [hindex] at hget
    split at hget
    · exact ⟨_, ‹_›⟩
    · exact h.slots slot d hget
  case hole =>
    intro j hget k hk
    rw [hindex] at hget
    split at hget
    · simp at hget
    · next hs =>
      rw [hold j k hk fun hj => hs (hj ▸ rfl)]
      exact h.hole j hget k hk
  case size =>
    intro j d hget
    rw [placeBytes_size, loc.size, loc.size]
    rcases placeBytes_get o loc hget with ⟨rfl, rfl⟩ | ⟨hj, hd, hget⟩
    · rw [if_pos rfl]
      exact hbefore.highWater hne hfit
    · rw [if_neg hd]
      obtain ⟨lt, k, hk, hsize⟩ := h.size j d hget
      refine ⟨fun k hk => lt k ⟨hk.1, ?_⟩, k, ⟨hk.1, ?_⟩, hsize⟩
      · rw [← hold j k hk.1 hj]
        exact hk.2
      · rw [hold j k hk.1 hj]
        exact hk.2
  case byte =>
    intro j d hget k hk b hb
    have hbank : chunkByte s1 d k = chunkByte s d k := by rw [chunkByte, loc.bank, chunkByte]
    rw [placeBytes_byte f hk hfit, hbank]
    rcases placeBytes_get o loc hget with ⟨rfl, rfl⟩ | ⟨hj, hd, hget⟩
    · rw [patch_chunk a hfit hk] at hb
      simp only [true_and] at hb ⊢
      split
      · next hin =>
        rw [if_pos hin] at hb
        simp [List.getD, hb]
      · next hin =>
        rw [if_neg hin] at hb
        exact (hbefore.byte k hk b hb).1
    · rw [if_neg (fun hc => hd hc.1)]
      rw [hold j k hk hj] at hb
      exact h.byte j d hget k hk b hb

/-- A write that returns patches the file it goes to and no other. -/
theorem write (h : Holds s f a) (o : Owned s) {r : Int} (hg : (s.inodes g).isDirectories = false)
    (hw : dhmpFsWrite s g bytes offset = some (s', r)) :
    Holds s' f (if f = g then patch a offset bytes else a) := by
  have hrule := dhmpFsWrite_rule
    (fun done t => Owned t ∧ Holds t f (if f = g then patch a offset done else a))
    (fun _ _ => And.left) ?_ hg ⟨o, by simpa using h⟩ hw
  · exact hrule.2
  · rintro done u piece u' ⟨ou, hu⟩ hpiece
    refine ⟨hpiece.owned ou, ?_⟩
    by_cases hfg : f = g
    · subst hfg
      rw [if_pos rfl, patch_append]
      rw [if_pos rfl] at hu
      exact hu.write_self ou hpiece
    · rw [if_neg hfg] at hu ⊢
      exact hu.write_ne ou hfg hpiece

end Holds

/-! ## Chunk ends -/

/-- The end of the last written byte in the `j`-th chunk of a content. -/
def chunkEnd (a : Content) (j : Nat) : Nat :=
  (Finset.range chunkSize).sup fun k => if (a (j * chunkSize + k)).isSome then k + 1 else 0

theorem lt_chunkEnd_iff {a : Content} {j k : Nat} :
    k < chunkEnd a j ↔ ∃ l, k ≤ l ∧ l < chunkSize ∧ a (j * chunkSize + l) ≠ none := by
  rw [chunkEnd, Finset.lt_sup_iff]
  constructor
  · rintro ⟨l, hl, hk⟩
    split at hk
    · exact ⟨l, by omega, Finset.mem_range.mp hl, by simp_all [Option.isSome_iff_ne_none]⟩
    · omega
  · rintro ⟨l, hkl, hl, hw⟩
    refine ⟨l, Finset.mem_range.mpr hl, ?_⟩
    rw [if_pos (Option.isSome_iff_ne_none.mpr hw)]
    omega

theorem chunkEnd_le (a : Content) (j : Nat) : chunkEnd a j ≤ chunkSize := by
  refine Nat.le_of_not_lt fun h => ?_
  obtain ⟨l, hle, hlt, -⟩ := lt_chunkEnd_iff.mp h
  omega

/-- Some byte of the position's chunk, at or behind it, was written. -/
def InData (a : Content) (o : Nat) : Prop := o % chunkSize < chunkEnd a (o / chunkSize)

instance (a : Content) (o : Nat) : Decidable (InData a o) := inferInstanceAs (Decidable (_ < _))

namespace Holds

variable {s : Fs} {f : InodeId} {a : Content}

/-- The size of a chunk is its end in the content; a chunk that does not exist has none. -/
theorem chunkEnd_eq (h : Holds s f a) (j : Nat) :
    chunkEnd a j =
      (((s.inodes f).cntId.get (slotOf j)).map fun c => (s.contextAddr c).size).getD 0 := by
  refine eq_of_forall_lt_iff fun k => ?_
  rw [lt_chunkEnd_iff]
  cases hget : (s.inodes f).cntId.get (slotOf j) with
  | none =>
    simp only [Option.map_none, Option.getD_none, Nat.not_lt_zero, iff_false]
    rintro ⟨l, -, hl, hw⟩
    exact hw (h.hole j hget l hl)
  | some c =>
    obtain ⟨lt, m, hm, hsize⟩ := h.size j c hget
    simp only [Option.map_some, Option.getD_some]
    constructor
    · rintro ⟨l, hkl, hl⟩
      have := lt l hl
      omega
    · intro hk
      exact ⟨m, by omega, hm⟩

theorem sum_filterMap_sizes (s : Fs) (g : Nat → Option Chunk) (l : List Nat) :
    (sizes s (l.filterMap g)).sum =
      (l.map fun j => ((g j).map fun c => (s.contextAddr c).size).getD 0).sum := by
  induction l with
  | nil => rfl
  | cons j l ih =>
    rw [List.map_cons, List.sum_cons, ← ih]
    cases hg : g j <;> simp [hg, sizes]

/-- The size of the inode is the sum of the chunk ends. -/
theorem inode_size (h : Holds s f a) (o : Owned s) {m : Nat}
    (hm : ∀ p, a p ≠ none → p < m * chunkSize) :
    (s.inodes f).size = ∑ j ∈ Finset.range m, chunkEnd a j := by
  have hperm : (s.inodes f).context.Perm
      ((List.range m).filterMap fun j => (s.inodes f).cntId.get (slotOf j)) := by
    refine (List.perm_ext_iff_of_nodup (o.context_nodup f) ?_).mpr fun c => ?_
    · refine List.Nodup.filterMap (fun j k c hj hk => ?_) List.nodup_range
      exact slotOf_injective (o.eq_of_get hj hk).2
    · rw [o.context_iff, List.mem_filterMap]
      constructor
      · rintro ⟨slot, hslot⟩
        obtain ⟨j, rfl⟩ := h.slots slot c hslot
        obtain ⟨k, ⟨hk, hw⟩, -⟩ := (h.size j c hslot).last
        have hlt := hm _ hw
        refine ⟨j, List.mem_range.mpr ?_, hslot⟩
        exact Nat.lt_of_mul_lt_mul_right ((Nat.le_add_right _ k).trans_lt hlt)
      · rintro ⟨j, -, hj⟩
        exact ⟨slotOf j, hj⟩
  have hsum : (sizes s (s.inodes f).context).sum = (sizes s _).sum := (hperm.map _).sum_eq
  rw [o.size_eq, hsum, sum_filterMap_sizes]
  simp only [← h.chunkEnd_eq]
  rfl

/-- What the read loop finds in the data of a chunk. -/
theorem inFile_iff (h : Holds s f a) (hmax : ∀ p, a p ≠ none → p < sizeThirdDirectEnd)
    (p : Nat) : InFile s f p ↔ InData a p := by
  rw [InFile, InData, h.chunkEnd_eq]
  cases hget : (s.inodes f).cntId.get (slotOf (p / chunkSize)) with
  | none => simp
  | some c =>
    simp only [Option.some.injEq, exists_eq_left', Option.map_some, Option.getD_some,
      and_iff_right_iff_imp]
    intro hlt
    obtain ⟨k, ⟨-, hw⟩, -⟩ := (h.size _ c hget).last
    have hlast := hmax _ hw
    have hend : sizeThirdDirectEnd = 16843108 * chunkSize := rfl
    simp only [hend, chunkSize] at *
    omega

/-- A written position reads back. -/
theorem fileByte_eq (h : Holds s f a) {p : Nat} {b : UInt8} (hb : a p = some b) :
    fileByte s f p = b := by
  have hdiv := Nat.div_add_mod' p chunkSize
  have hmod := Nat.mod_lt p chunkSize_pos
  rw [← hdiv] at hb
  cases hget : (s.inodes f).cntId.get (slotOf (p / chunkSize)) with
  | none => simp [h.hole _ hget _ hmod] at hb
  | some c =>
    rw [fileByte, hget]
    exact h.byte _ c hget _ hmod b hb

end Holds

end DhmpFs
