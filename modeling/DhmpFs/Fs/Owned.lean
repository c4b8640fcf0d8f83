import DhmpFs.Fs.IndexSpec
import Mathlib.Algebra.BigOperators.Group.List.Basic

/-!
# Ownership of chunks

Every chunk in use belongs to one slot of one inode, and the three records of that fact agree:
the bitmap, the back pointer in the context and the context list of the inode.

## Main definitions

- `Owned`: the agreement, with the sizes.
- `ChunkWrite`: what one round of `dhmp_fs_write` does.
-/

namespace DhmpFs

/-- The sizes of the chunks in a context list. -/
def sizes (s : Fs) (cs : List Chunk) : List Nat := cs.map fun c => (s.contextAddr c).size

theorem sizes_congr {s s' : Fs} {cs : List Chunk}
    (h : ∀ c ∈ cs, (s'.contextAddr c).size = (s.contextAddr c).size) : sizes s' cs = sizes s cs :=
  List.map_congr_left h

/-- The chunks, their contexts and the indices of all inodes agree. -/
structure Owned (s : Fs) : Prop where
  which_iff : ∀ i slot c, (s.inodes i).cntId.get slot = some c ↔
    (s.contextAddr c).whichInodeItIs = some (i, slot)
  bitmap_iff : ∀ c, s.bitmap c = true ↔ (s.contextAddr c).whichInodeItIs ≠ none
  context_iff : ∀ i c, c ∈ (s.inodes i).context ↔ ∃ slot, (s.inodes i).cntId.get slot = some c
  context_nodup : ∀ i, (s.inodes i).context.Nodup
  complete : ∀ i, (s.inodes i).cntId.Complete
  size_eq : ∀ i, (s.inodes i).size = (sizes s (s.inodes i).context).sum
  size_free : ∀ c, s.bitmap c = false → (s.contextAddr c).size = 0
  size_le : ∀ c, (s.contextAddr c).size ≤ chunkSize
  cursor_lt : s.cursor < chunkNum
  chunk_lt : ∀ c, s.bitmap c = true → c < chunkNum

theorem owned_dhmpInit (bank : Nat → Nat → UInt8) : Owned (dhmpInit bank) := by
  have hn : ∀ i, ((dhmpInit bank).inodes i).cntId = .initial ∧
      ((dhmpInit bank).inodes i).context = [] ∧ ((dhmpInit bank).inodes i).size = 0 := by
    intro i
    by_cases hi : i = rootId <;> simp [dhmpInit, hi, Inode.fresh]
  have hc : (dhmpInit bank).contextAddr = fun _ => ⟨0, none⟩ := rfl
  have hb : (dhmpInit bank).bitmap = fun _ => false := rfl
  constructor
  case cursor_lt => exact Nat.zero_lt_of_lt (by decide : 0 < chunkNum)
  case complete =>
    intro i
    rw [(hn i).1]
    exact ⟨rfl, rfl⟩
  case size_le => exact fun c => Nat.zero_le _
  all_goals simp [hn, sizes, hc, hb]

namespace Owned

variable {s s' : Fs} {i j : InodeId} {slot slot' : Slot} {c : Chunk}

theorem eq_of_get (h : Owned s) (hi : (s.inodes i).cntId.get slot = some c)
    (hj : (s.inodes j).cntId.get slot' = some c) : i = j ∧ slot = slot' := by
  have := ((h.which_iff i slot c).mp hi).symm.trans ((h.which_iff j slot' c).mp hj)
  simpa using this

theorem bitmap_of_get (h : Owned s) (hi : (s.inodes i).cntId.get slot = some c) :
    s.bitmap c = true := by
  rw [h.bitmap_iff, (h.which_iff i slot c).mp hi]
  simp

theorem mem_of_get (h : Owned s) (hi : (s.inodes i).cntId.get slot = some c) :
    c ∈ (s.inodes i).context :=
  (h.context_iff i c).mpr ⟨slot, hi⟩

/-- A file without chunks has empty slots only. -/
theorem get_none (h : Owned s) (hi : (s.inodes i).context = []) (slot : Slot) :
    (s.inodes i).cntId.get slot = none := by
  apply Option.eq_none_iff_forall_ne_some.mpr
  intro c hc
  simpa [hi] using h.mem_of_get hc

theorem which_free (h : Owned s) (hc : s.bitmap c = false) :
    (s.contextAddr c).whichInodeItIs = none := by
  by_contra hne
  exact absurd ((h.bitmap_iff c).mpr hne) (by simp [hc])

/-- A state in which all indices, sizes and chunks are the same is owned in the same way. -/
theorem congr (h : Owned s)
    (hn : ∀ i, (s'.inodes i).cntId.Complete ∧
      (∀ slot, (s'.inodes i).cntId.get slot = (s.inodes i).cntId.get slot) ∧
      (s'.inodes i).context = (s.inodes i).context ∧ (s'.inodes i).size = (s.inodes i).size)
    (ha : s'.contextAddr = s.contextAddr) (hb : s'.bitmap = s.bitmap)
    (hc : s'.cursor = s.cursor) : Owned s' := by
  have hget := fun i => (hn i).2.1
  have hcon := fun i => (hn i).2.2.1
  have hsize := fun i => (hn i).2.2.2
  constructor
  case complete => exact fun i => (hn i).1
  all_goals simp only [hget, hcon, hsize, ha, hb, hc, sizes]
  exacts [h.which_iff, h.bitmap_iff, h.context_iff, h.context_nodup, h.size_eq, h.size_free,
    h.size_le, h.cursor_lt, h.chunk_lt]

end Owned

/-! ## Looking up a chunk for writing -/

namespace Located

variable {s s' : Fs} {head i : InodeId} {slot : Slot} {c d : Chunk}

theorem get (h : Located s head slot c s') : (s'.inodes head).cntId.get slot = some c := by
  cases h with
  | hit h => exact h
  | alloc a => simp [a.eq, a.get]

theorem bank (h : Located s head slot c s') : s'.bank = s.bank := by
  cases h with
  | hit => rfl
  | alloc a => simp [a.eq]

theorem inodes_ne (h : Located s head slot c s') (hi : i ≠ head) :
    s'.inodes i = s.inodes i := by
  cases h with
  | hit => rfl
  | alloc a => simp [a.eq, hi]

theorem get_ne (h : Located s head slot c s') {slot' : Slot} (hs : slot' ≠ slot) :
    (s'.inodes head).cntId.get slot' = (s.inodes head).cntId.get slot' := by
  cases h with
  | hit => rfl
  | alloc a => simp [a.eq, a.get, hs]

/-- No slot loses its context. -/
theorem get_of_get (h : Located s head slot c s') {slot' : Slot}
    (hd : (s.inodes i).cntId.get slot' = some d) : (s'.inodes i).cntId.get slot' = some d := by
  cases h with
  | hit => exact hd
  | alloc a =>
    by_cases hi : i = head
    · subst hi
      have hne : slot' ≠ slot := by
        rintro rfl
        simp [a.empty] at hd
      simp [a.eq, a.get, hne, hd]
    · simp [a.eq, hi, hd]

theorem size (h : Located s head slot c s') (d : Chunk) :
    (s'.contextAddr d).size = (s.contextAddr d).size := by
  cases h with
  | hit => rfl
  | alloc a => by_cases hd : d = c <;> simp [a.eq, hd]

theorem owned (o : Owned s) (h : Located s head slot c s') : Owned s' := by
  cases h with
  | hit => exact o
  | @alloc _ index a =>
    have which := o.which_free a.free
    have fresh : ∀ i slot', (s.inodes i).cntId.get slot' ≠ some c := by
      intro i slot' hget
      exact absurd (o.bitmap_of_get hget) (by simp [a.free])
    have hsize := (Located.alloc a).size
    have hsizes : ∀ cs, sizes s' cs = sizes s cs := fun cs => sizes_congr fun d _ => hsize d
    have hlt := a.lt o.cursor_lt
    obtain ⟨empty, free, -, complete, get, rfl⟩ := a
    constructor
    case which_iff =>
      intro i slot' d
      by_cases hi : i = head <;> by_cases hd : d = c
      · subst hi hd
        by_cases hs : slot' = slot
        · simp [get, hs]
        · have hne : ¬ slot = slot' := fun h => hs h.symm
          simp [get, hs, hne, fresh]
      · subst hi
        by_cases hs : slot' = slot
        · have hne : (s.contextAddr d).whichInodeItIs ≠ some (i, slot) := by
            rw [Ne, ← o.which_iff, empty]
            simp
          simp [get, hs, hd, Ne.symm hd, hne]
        · simpa [get, hs, hd] using o.which_iff i slot' d
      · simp [hi, hd, fresh, Ne.symm hi]
      · simpa [hi, hd] using o.which_iff i slot' d
    case bitmap_iff =>
      intro d
      by_cases hd : d = c
      · simp [hd]
      · simpa [hd] using o.bitmap_iff d
    case context_iff =>
      intro i d
      by_cases hi : i = head
      · subst hi
        simp only [Function.update_self, List.mem_cons, get]
        constructor
        · rintro (rfl | hd)
          · exact ⟨slot, by simp⟩
          · obtain ⟨slot', hs⟩ := (o.context_iff i d).mp hd
            refine ⟨slot', ?_⟩
            rw [if_neg]
            · exact hs
            · rintro rfl
              simp [empty] at hs
        · rintro ⟨slot', hs⟩
          split at hs
          · exact .inl (Option.some.inj hs).symm
          · exact .inr ((o.context_iff i d).mpr ⟨slot', hs⟩)
      · simpa [hi] using o.context_iff i d
    case context_nodup =>
      intro i
      by_cases hi : i = head
      · subst hi
        simp only [Function.update_self, List.nodup_cons]
        refine ⟨fun hc => ?_, o.context_nodup i⟩
        obtain ⟨slot', hs⟩ := (o.context_iff i c).mp hc
        exact fresh i slot' hs
      · simpa [hi] using o.context_nodup i
    case complete =>
      intro i
      by_cases hi : i = head
      · subst hi
        simpa using complete (o.complete i)
      · simpa [hi] using o.complete i
    case size_eq =>
      intro i
      by_cases hi : i = head
      · subst hi
        rw [hsizes]
        simpa [sizes, o.size_free c free] using o.size_eq i
      · rw [hsizes]
        simpa [hi] using o.size_eq i
    case size_free =>
      intro d hd
      rw [hsize]
      apply o.size_free
      by_cases hdc : d = c <;> simp_all
    case size_le =>
      intro d
      rw [hsize]
      exact o.size_le d
    case cursor_lt => exact hlt
    case chunk_lt =>
      intro d hd
      by_cases hdc : d = c
      · exact hdc ▸ hlt
      · exact o.chunk_lt d (by simpa [hdc] using hd)

end Located

/-! ## Growing a chunk -/

theorem growChunk_size (s : Fs) (head : InodeId) (c d : Chunk) (newSize : Nat) :
    ((growChunk s head c newSize).contextAddr d).size =
      if d = c then newSize else (s.contextAddr d).size := by
  by_cases hd : d = c <;> simp [growChunk, Fs.modifyContext_contextAddr, hd]

theorem growChunk_which (s : Fs) (head : InodeId) (c d : Chunk) (newSize : Nat) :
    ((growChunk s head c newSize).contextAddr d).whichInodeItIs =
      (s.contextAddr d).whichInodeItIs := by
  by_cases hd : d = c <;> simp [growChunk, Fs.modifyContext_contextAddr, hd]

theorem growChunk_inodes (s : Fs) (head : InodeId) (c : Chunk) (newSize : Nat) :
    (growChunk s head c newSize).inodes = Function.update s.inodes head
      { s.inodes head with
        size := (s.inodes head).size + (newSize - (s.contextAddr c).size) } := rfl

theorem growChunk_index (s : Fs) (head i : InodeId) (c : Chunk) (newSize : Nat) :
    ((growChunk s head c newSize).inodes i).cntId = (s.inodes i).cntId := by
  by_cases hi : i = head <;> simp [growChunk_inodes, hi]

theorem growChunk_context (s : Fs) (head i : InodeId) (c : Chunk) (newSize : Nat) :
    ((growChunk s head c newSize).inodes i).context = (s.inodes i).context := by
  by_cases hi : i = head <;> simp [growChunk_inodes, hi]

@[simp] theorem growChunk_bitmap (s : Fs) (head : InodeId) (c : Chunk) (newSize : Nat) :
    (growChunk s head c newSize).bitmap = s.bitmap := rfl

@[simp] theorem growChunk_bank (s : Fs) (head : InodeId) (c : Chunk) (newSize : Nat) :
    (growChunk s head c newSize).bank = s.bank := rfl

/-- Growing to the size a chunk already has changes nothing. -/
theorem growChunk_self (s : Fs) (head : InodeId) (c : Chunk) :
    growChunk s head c (s.contextAddr c).size = s := by
  simp [growChunk, Fs.modify, Fs.modifyContext]

theorem sizes_growChunk {s : Fs} {head : InodeId} {c : Chunk} {newSize : Nat} {cs : List Chunk}
    (hn : cs.Nodup) (hc : c ∈ cs) (hle : (s.contextAddr c).size ≤ newSize) :
    (sizes (growChunk s head c newSize) cs).sum =
      (sizes s cs).sum + (newSize - (s.contextAddr c).size) := by
  induction cs with
  | nil => simp at hc
  | cons d cs ih =>
    obtain ⟨hd, hn⟩ := List.nodup_cons.mp hn
    have hcons : ∀ t, (sizes t (d :: cs)).sum = (t.contextAddr d).size + (sizes t cs).sum :=
      fun t => by simp [sizes]
    rw [hcons, hcons, growChunk_size]
    by_cases hdc : d = c
    · have hrest : sizes (growChunk s head c newSize) cs = sizes s cs := by
        refine sizes_congr fun e he => ?_
        rw [growChunk_size, if_neg]
        rintro rfl
        exact hd (hdc ▸ he)
      rw [if_pos hdc, hrest, hdc]
      omega
    · have hmem : c ∈ cs := by
        rcases List.mem_cons.mp hc with h | h
        · exact absurd h.symm hdc
        · exact h
      rw [if_neg hdc, ih hn hmem]
      omega

theorem Owned.growChunk {s : Fs} (o : Owned s) {head : InodeId} {slot : Slot} {c : Chunk}
    (hc : (s.inodes head).cntId.get slot = some c) {newSize : Nat}
    (hle : (s.contextAddr c).size ≤ newSize) (hmax : newSize ≤ chunkSize) :
    Owned (growChunk s head c newSize) := by
  constructor
  case which_iff => simpa only [growChunk_index, growChunk_which] using o.which_iff
  case bitmap_iff => simpa only [growChunk_bitmap, growChunk_which] using o.bitmap_iff
  case context_iff => simpa only [growChunk_index, growChunk_context] using o.context_iff
  case context_nodup => simpa only [growChunk_context] using o.context_nodup
  case complete => simpa only [growChunk_index] using o.complete
  case size_eq =>
    intro i
    rw [growChunk_context]
    by_cases hi : i = head
    · subst hi
      rw [sizes_growChunk (o.context_nodup i) (o.mem_of_get hc) hle]
      simp [growChunk_inodes, o.size_eq i]
    · have hsame : sizes (DhmpFs.growChunk s head c newSize) (s.inodes i).context =
          sizes s (s.inodes i).context := by
        refine sizes_congr fun d hd => ?_
        rw [growChunk_size, if_neg]
        rintro rfl
        obtain ⟨slot', hs⟩ := (o.context_iff i d).mp hd
        exact hi (o.eq_of_get hs hc).1
      rw [hsame]
      simpa [growChunk_inodes, hi] using o.size_eq i
  case size_free =>
    intro d hd
    rw [growChunk_size, if_neg]
    · exact o.size_free d hd
    · rintro rfl
      simp [o.bitmap_of_get hc] at hd
  case size_le =>
    intro d
    rw [growChunk_size]
    split
    · exact hmax
    · exact o.size_le d
  case cursor_lt => exact o.cursor_lt
  case chunk_lt => exact o.chunk_lt

/-! ## One round of a write -/

/-- Place bytes in a chunk of an inode, and grow the chunk when they end past its data. -/
def placeBytes (s : Fs) (head : InodeId) (c : Chunk) (chunkOffset : Nat) (bytes : List UInt8) :
    Fs :=
  growChunk (s.writeToCache (bankId c) bytes (bankOffset c + chunkOffset)) head c
    (max (s.contextAddr c).size (chunkOffset + bytes.length))

/-- One round of `dhmp_fs_write`: a nonempty piece of the buffer goes to the chunk that holds
its offset. -/
structure ChunkWrite (head : InodeId) (s : Fs) (offset : Nat) (bytes : List UInt8) (s' : Fs) :
    Prop where
  intro ::
  nonempty : bytes ≠ []
  lt : offset < sizeThirdDirectEnd
  fits : offset % chunkSize + bytes.length ≤ chunkSize
  done : ∃ s1 c, Located s head (slotOf (offset / chunkSize)) c s1 ∧
    s' = placeBytes s1 head c (offset % chunkSize) bytes

theorem Owned.writeToCache {s : Fs} (o : Owned s) (b : Nat) (bytes : List UInt8) (offset : Nat) :
    Owned (s.writeToCache b bytes offset) :=
  o.congr (fun i => ⟨o.complete i, fun _ => rfl, rfl, rfl⟩) rfl rfl rfl

theorem ChunkWrite.owned {s s' : Fs} {head : InodeId} {offset : Nat} {bytes : List UInt8}
    (o : Owned s) (h : ChunkWrite head s offset bytes s') : Owned s' := by
  obtain ⟨-, -, fits, s1, c, loc, rfl⟩ := h
  have o1 := loc.owned o
  refine (o1.writeToCache _ _ _).growChunk loc.get (Nat.le_max_left _ _) ?_
  exact Nat.max_le.mpr ⟨o1.size_le c, fits⟩

/-- A round that reaches the end of its chunk. -/
theorem placeBytes_full {s : Fs} (o : Owned s) (head : InodeId) (c : Chunk) {chunkOffset : Nat}
    {bytes : List UInt8} (h : chunkOffset + bytes.length = chunkSize) :
    placeBytes s head c chunkOffset bytes =
      growChunk (s.writeToCache (bankId c) bytes (bankOffset c + chunkOffset)) head c
        chunkSize := by
  rw [placeBytes, h, Nat.max_eq_right (o.size_le c)]

/-- A round that ends within its chunk. -/
theorem placeBytes_part (s : Fs) (head : InodeId) (c : Chunk) (chunkOffset : Nat)
    (bytes : List UInt8) :
    placeBytes s head c chunkOffset bytes =
      if (s.contextAddr c).size < bytes.length + chunkOffset then
        growChunk (s.writeToCache (bankId c) bytes (bankOffset c + chunkOffset)) head c
          (bytes.length + chunkOffset)
      else s.writeToCache (bankId c) bytes (bankOffset c + chunkOffset) := by
  rw [placeBytes, Nat.add_comm chunkOffset]
  split
  · rw [Nat.max_eq_right (by omega)]
  · rw [Nat.max_eq_left (by omega)]
    exact growChunk_self (s.writeToCache _ _ _) head c

/-- One round of the loop that finds its chunk: the piece up to the end of the chunk is placed. -/
theorem writeLoop_succ {s s1 : Fs} (o : Owned s) (rounds : Nat) {head : InodeId}
    {rest : List UInt8} {offset : Nat} {c : Chunk} (hne : rest ≠ [])
    (hlt : offset < sizeThirdDirectEnd)
    (hreach : reach s head false (slotOf (offset / chunkSize)) = some (s1, some c))
    (o1 : Owned s1) :
    writeLoop (rounds + 1) s head rest offset =
      writeLoop rounds
        (placeBytes s1 head c (offset % chunkSize) (rest.take (chunkSize - offset % chunkSize)))
        head (rest.drop (chunkSize - offset % chunkSize))
        (offset + (rest.take (chunkSize - offset % chunkSize)).length) := by
  have hmod : offset % chunkSize < chunkSize := Nat.mod_lt _ (by decide)
  have hsub : subU64 chunkSize (offset % chunkSize) = chunkSize - offset % chunkSize :=
    subU64_eq (by decide) (Nat.le_of_lt hmod)
  rw [writeLoop, if_neg hne, level3LocalIndex_write (o.complete head) hlt, hreach]
  simp only [Option.map_some, hsub]
  split
  · next hfull =>
    have htake : (rest.take (chunkSize - offset % chunkSize)).length =
        chunkSize - offset % chunkSize := by
      rw [List.length_take, Nat.min_eq_left hfull]
    have hadd : addU64 offset (chunkSize - offset % chunkSize) =
        offset + (chunkSize - offset % chunkSize) := by
      refine addU64_eq ?_
      have : sizeThirdDirectEnd + chunkSize < 2 ^ 64 := by decide
      omega
    rw [placeBytes_full o1 head c (by omega), htake, hadd]
  · next hpart =>
    have hle : rest.length ≤ chunkSize - offset % chunkSize := by omega
    have hstop : ∀ t offset, writeLoop rounds t head [] offset = some t := by
      intro t offset
      cases rounds <;> simp [writeLoop]
    rw [List.take_of_length_le hle, List.drop_eq_nil_of_le hle, hstop, placeBytes_part,
      Fs.writeToCache_contextAddr]
    by_cases hgrow : (s1.contextAddr c).size < rest.length + offset % chunkSize
    · rw [if_pos hgrow, if_pos hgrow]
    · rw [if_neg hgrow, if_neg hgrow]

/-- One round of the loop: it stops at an empty slot and a full pool, or it writes a piece and
goes on with the rest of the buffer. -/
theorem writeLoop_round {s : Fs} (o : Owned s) (rounds : Nat) (head : InodeId)
    {rest : List UInt8} {offset : Nat} (hne : rest ≠ []) (hlt : offset < sizeThirdDirectEnd) :
    (writeLoop (rounds + 1) s head rest offset = none ∧ PoolFull s ∧
      (s.inodes head).cntId.get (slotOf (offset / chunkSize)) = none) ∨
    ∃ piece rest' s', rest = piece ++ rest' ∧ ChunkWrite head s offset piece s' ∧
      writeLoop (rounds + 1) s head rest offset =
        writeLoop rounds s' head rest' (offset + piece.length) := by
  have hlen := List.length_pos_iff.mpr hne
  have hmod : offset % chunkSize < chunkSize := Nat.mod_lt _ (by decide)
  cases hreach : reach s head false (slotOf (offset / chunkSize)) with
  | none =>
    obtain ⟨s1, s2, hb, hc, hnone⟩ := reach_none (o.complete head) hreach
    have hfull := getFreeContext_none (by rw [hc]; exact o.cursor_lt) hnone
    refine .inl ⟨?_, fun c hc => hb ▸ hfull c hc, ?_⟩
    · rw [writeLoop, if_neg hne, level3LocalIndex_write (o.complete head) hlt, hreach]
      rfl
    · by_contra hget
      obtain ⟨c, hget⟩ := Option.ne_none_iff_exists'.mp hget
      simp [reach_hit hget] at hreach
  | some r =>
    obtain ⟨s1, cnt⟩ := r
    obtain ⟨c, rfl, loc⟩ := reach_write (o.complete head) hreach
    have htake := List.length_take (i := chunkSize - offset % chunkSize) (l := rest)
    exact .inr ⟨rest.take (chunkSize - offset % chunkSize), _, _,
      (List.take_append_drop _ _).symm,
      ⟨List.ne_nil_of_length_pos (by omega), hlt, by omega, s1, c, loc, rfl⟩,
      writeLoop_succ o rounds hne hlt hreach (loc.owned o)⟩

/-- The rule for the loop of `dhmp_fs_write`: what every round preserves, with the bytes
written so far, holds of the whole buffer when the loop returns. -/
theorem writeLoop_rule {head : InodeId} (start : Nat) (P : List UInt8 → Fs → Prop)
    (owned : ∀ done s, P done s → Owned s)
    (round : ∀ done s piece s', P done s →
      ChunkWrite head s (start + done.length) piece s' → P (done ++ piece) s')
    {rounds : Nat} {s s' : Fs} (done : List UInt8) {rest : List UInt8}
    (hr : rest.length ≤ rounds) (hs : P done s)
    (h : writeLoop rounds s head rest (start + done.length) = some s') :
    P (done ++ rest) s' := by
  induction rounds generalizing s done rest with
  | zero =>
    obtain rfl : rest = [] := by simpa using hr
    obtain rfl : s = s' := by simpa [writeLoop] using h
    simpa using hs
  | succ rounds ih =>
    by_cases hne : rest = []
    · obtain rfl : s = s' := by simpa [writeLoop, hne] using h
      simpa [hne] using hs
    have hlt : start + done.length < sizeThirdDirectEnd := by
      by_contra hend
      simp [writeLoop, hne, level3LocalIndex_end (Nat.le_of_not_lt hend)] at h
    rcases writeLoop_round (owned done s hs) rounds head hne hlt with
      ⟨hnone, -⟩ | ⟨piece, rest', t, rfl, hw, heq⟩
    · simp [hnone] at h
    · have hpos := List.length_pos_iff.mpr hw.nonempty
      rw [List.length_append] at hr
      rw [heq, Nat.add_assoc, ← List.length_append] at h
      rw [← List.append_assoc]
      exact ih (done ++ piece) (by omega) (round done s piece t hs hw) h

/-- The rule for `dhmp_fs_write` on a file. -/
theorem dhmpFsWrite_rule {fh : InodeId} {offset : Nat} (P : List UInt8 → Fs → Prop)
    (owned : ∀ done s, P done s → Owned s)
    (round : ∀ done s piece s', P done s →
      ChunkWrite fh s (offset + done.length) piece s' → P (done ++ piece) s')
    {s s' : Fs} {buf : List UInt8} {res : Int} (hf : (s.inodes fh).isDirectories = false)
    (hs : P [] s) (h : dhmpFsWrite s fh buf offset = some (s', res)) : P buf s' := by
  rw [dhmpFsWrite, hf, if_neg Bool.false_ne_true] at h
  obtain ⟨t, ht, he⟩ := Option.map_eq_some_iff.mp h
  obtain ⟨rfl, -⟩ := Prod.mk.inj he
  exact writeLoop_rule offset P owned round [] (Nat.le_refl _) hs (by simpa using ht)

/-! ## What a write leaves alone -/

/-- Two states differ at most in the data of the inode `head`: its size, index and context
list, and the chunks. -/
structure DataOnly (head : InodeId) (s s' : Fs) : Prop where
  inodes_ne : ∀ i, i ≠ head → s'.inodes i = s.inodes i
  inodes : ∃ size index context, s'.inodes head =
    { s.inodes head with size := size, cntId := index, context := context }
  slab : s'.freeInodeSlab = s.freeInodeSlab
  mallocTimes : s'.mallocTimes = s.mallocTimes

theorem DataOnly.refl (head : InodeId) (s : Fs) : DataOnly head s s :=
  ⟨fun _ _ => rfl, ⟨_, _, _, rfl⟩, rfl, rfl⟩

theorem DataOnly.trans {head : InodeId} {s t u : Fs} (h : DataOnly head s t)
    (g : DataOnly head t u) : DataOnly head s u := by
  obtain ⟨size, index, context, ht⟩ := h.inodes
  obtain ⟨size', index', context', hu⟩ := g.inodes
  exact ⟨fun i hi => (g.inodes_ne i hi).trans (h.inodes_ne i hi),
    ⟨size', index', context', by rw [hu, ht]⟩, g.slab.trans h.slab,
    g.mallocTimes.trans h.mallocTimes⟩

theorem Located.dataOnly {s s' : Fs} {head : InodeId} {slot : Slot} {c : Chunk}
    (h : Located s head slot c s') : DataOnly head s s' := by
  cases h with
  | hit => exact .refl head s
  | @alloc _ index a =>
    have hhead : s'.inodes head = { s.inodes head with
        cntId := index, context := c :: (s.inodes head).context } := by simp [a.eq]
    exact ⟨fun i hi => by simp [a.eq, hi], ⟨(s.inodes head).size, _, _, hhead⟩, by rw [a.eq],
      by rw [a.eq]⟩

theorem ChunkWrite.dataOnly {s s' : Fs} {head : InodeId} {offset : Nat} {bytes : List UInt8}
    (h : ChunkWrite head s offset bytes s') : DataOnly head s s' := by
  obtain ⟨-, -, -, s1, c, loc, rfl⟩ := h
  have hinodes : (placeBytes s1 head c (offset % chunkSize) bytes).inodes =
      Function.update s1.inodes head _ := growChunk_inodes ..
  refine loc.dataOnly.trans ⟨fun i hi => by rw [hinodes, Function.update_of_ne hi], ?_, rfl, rfl⟩
  exact ⟨_, (s1.inodes head).cntId, (s1.inodes head).context, by
    rw [hinodes, Function.update_self]; rfl⟩

theorem dhmpFsWrite_spec {s s' : Fs} (o : Owned s) {fh : InodeId} {buf : List UInt8}
    {offset : Nat} {r : Int} (h : dhmpFsWrite s fh buf offset = some (s', r)) :
    Owned s' ∧ DataOnly fh s s' := by
  cases hf : (s.inodes fh).isDirectories with
  | true =>
    obtain ⟨rfl, -⟩ : s = s' ∧ -1 = r := by simpa [dhmpFsWrite, hf] using h
    exact ⟨o, .refl fh s⟩
  | false =>
    exact dhmpFsWrite_rule (fun _ t => Owned t ∧ DataOnly fh s t) (fun _ _ => And.left)
      (fun _ _ _ _ ho hw => ⟨hw.owned ho.1, ho.2.trans hw.dataOnly⟩) hf ⟨o, .refl fh s⟩ h

end DhmpFs
