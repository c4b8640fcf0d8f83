import DhmpFs.Fs.Io

/-!
# What the index and the allocator do

`slotOf` numbers the slots of an inode by the chunk of the file they stand for. A lookup for
writing either finds the context of that slot or allocates one, and touches nothing else.
-/

namespace DhmpFs

/-! ## Chunk search -/

theorem scanBitmap_true {n : Nat} {bitmap : Chunk → Bool} {left i j : Nat}
    (h : scanBitmap n bitmap left i = (j, true)) : bitmap j = false := by
  induction left generalizing i with
  | zero => simp [scanBitmap] at h
  | succ left ih =>
    rw [scanBitmap] at h
    split at h
    · exact ih h
    · obtain rfl : i = j := congrArg Prod.fst h
      simpa using ‹¬ bitmap i = true›

theorem scanBitmap_lt {n : Nat} (hn : 0 < n) (bitmap : Chunk → Bool) (left : Nat) {i : Nat}
    (hi : i < n) : (scanBitmap n bitmap left i).1 < n := by
  induction left generalizing i with
  | zero => exact hi
  | succ left ih =>
    rw [scanBitmap]
    split
    · apply ih
      exact Nat.lt_of_le_of_lt Nat.and_le_right (by omega)
    · exact hi

section visits

variable {t k : Nat} (bitmap : Chunk → Bool) {i : Nat}

/-- The mask of a number of chunks wraps the cursor at the largest power of two in it. -/
theorem succ_mask (hi : i < 2 ^ t) : (i + 1) &&& (2 ^ t * (2 * k + 1) - 1) = (i + 1) % 2 ^ t := by
  have hpos := Nat.two_pow_pos t
  have hmask : 2 ^ t * (2 * k + 1) - 1 = 2 ^ t * (2 * k) + (2 ^ t - 1) := by
    rw [Nat.mul_succ]
    omega
  rw [hmask]
  apply Nat.eq_of_testBit_eq
  intro j
  rw [Nat.testBit_and, Nat.testBit_two_pow_mul_add _ (by omega), Nat.testBit_two_pow_sub_one]
  rcases Nat.lt_or_eq_of_le (Nat.succ_le_of_lt hi) with hlt | heq
  · rw [Nat.mod_eq_of_lt hlt]
    by_cases hj : j < t
    · simp [hj]
    · have hlow := Nat.lt_of_lt_of_le hlt (Nat.pow_le_pow_right (by decide) (Nat.not_lt.mp hj))
      simp [Nat.testBit_lt_two_pow hlow]
  · -- the carry out of the low bits meets a zero of the mask
    have heq : i + 1 = 2 ^ t := heq
    rw [heq, Nat.mod_self, Nat.testBit_two_pow, Nat.zero_testBit]
    by_cases hj : t = j
    · subst hj
      simp
    · simp [hj]

/-- A search visits the chunks below the power of two, one after the other. -/
theorem scanBitmap_spec (left : Nat) (hi : i < 2 ^ t) :
    (∃ c < 2 ^ t, scanBitmap (2 ^ t * (2 * k + 1)) bitmap left i = (c, true) ∧
        bitmap c = false) ∨
      scanBitmap (2 ^ t * (2 * k + 1)) bitmap left i = ((i + left) % 2 ^ t, false) ∧
        ∀ m < left, bitmap ((i + m) % 2 ^ t) = true := by
  induction left generalizing i with
  | zero => exact .inr ⟨by simp [scanBitmap, Nat.mod_eq_of_lt hi], by simp⟩
  | succ left ih =>
    rw [scanBitmap]
    split
    · next hused =>
      rw [succ_mask hi]
      refine (ih (Nat.mod_lt _ (Nat.two_pow_pos t))).imp_right fun ⟨heq, hall⟩ => ⟨?_, ?_⟩
      · rw [heq, Nat.mod_add_mod]
        congr 2
        omega
      · intro m hm
        cases m with
        | zero => rwa [Nat.add_zero, Nat.mod_eq_of_lt hi]
        | succ m =>
          have := hall m (by omega)
          rw [Nat.mod_add_mod] at this
          rwa [Nat.add_comm m, ← Nat.add_assoc]
    · next hfree => exact .inl ⟨i, hi, rfl, by simpa using hfree⟩

/-- A whole search sees every chunk below the power of two, and ends where it began. -/
theorem scanBitmap_whole (hi : i < 2 ^ t) :
    (∃ c < 2 ^ t, scanBitmap (2 ^ t * (2 * k + 1)) bitmap (2 ^ t * (2 * k + 1)) i = (c, true) ∧
        bitmap c = false) ∨
      scanBitmap (2 ^ t * (2 * k + 1)) bitmap (2 ^ t * (2 * k + 1)) i = (i, false) ∧
        ∀ c < 2 ^ t, bitmap c = true := by
  refine (scanBitmap_spec bitmap _ hi).imp_right fun ⟨heq, hall⟩ => ⟨?_, fun c hc => ?_⟩
  · rw [heq, Nat.add_mul_mod_self_left, Nat.mod_eq_of_lt hi]
  · have hpos := Nat.two_pow_pos t
    have hsee := hall ((c + (2 ^ t - i)) % 2 ^ t)
      (Nat.lt_of_lt_of_le (Nat.mod_lt _ hpos) (Nat.le_mul_of_pos_right _ (Nat.succ_pos _)))
    have heq : (i + (c + (2 ^ t - i)) % 2 ^ t) % 2 ^ t = c := by
      rw [Nat.add_mod_mod, show i + (c + (2 ^ t - i)) = c + 2 ^ t by omega, Nat.add_mod_right,
        Nat.mod_eq_of_lt hc]
    rwa [heq] at hsee

end visits

/-- Every chunk is in use. -/
def PoolFull (s : Fs) : Prop := ∀ c < chunkNum, s.bitmap c = true

theorem getFreeContext_none {s s' : Fs} (hc : s.cursor < chunkNum)
    (h : getFreeContext s = (s', none)) : PoolFull s := by
  have hpow : chunkNum = 2 ^ 21 * (2 * 0 + 1) := by decide
  unfold getFreeContext getFreeChunk at h
  rw [hpow] at h hc
  unfold PoolFull
  rw [hpow]
  have hs : s.cursor < 2 ^ 21 := hc
  rcases scanBitmap_whole (k := 0) s.bitmap hs with ⟨c, -, heq, -⟩ | ⟨-, hall⟩
  · rw [heq] at h
    simp at h
  · exact hall

/-- What a successful `get_free_context` does: it marks one free chunk. -/
structure Taken (s s' : Fs) (c : Chunk) : Prop where
  free : s.bitmap c = false
  lt : s.cursor < chunkNum → c < chunkNum
  eq : s' = { s with cursor := c, bitmap := Function.update s.bitmap c true }

theorem getFreeContext_some {s s' : Fs} {c : Chunk} (h : getFreeContext s = (s', some c)) :
    Taken s s' c := by
  unfold getFreeContext getFreeChunk at h
  cases hs : scanBitmap chunkNum s.bitmap chunkNum s.cursor with
  | mk i found =>
    have hlt : s.cursor < chunkNum → _ :=
      scanBitmap_lt (by decide : 0 < chunkNum) s.bitmap chunkNum
    cases found with
    | false => simp [hs] at h
    | true =>
      simp only [hs, Prod.mk.injEq, Option.some.injEq] at h
      obtain ⟨rfl, rfl⟩ := h
      exact ⟨scanBitmap_true hs, fun hc => by simpa [hs] using hlt hc, rfl⟩

/-! ## Offsets and slots -/

/-- The slot of the `j`-th chunk of a file. -/
def slotOf (j : Nat) : Slot :=
  if j < 100 then .direct j
  else if j < 356 then .single (j - 100)
  else if j < 65892 then .double ((j - 356) / 256) ((j - 356) % 256)
  else .triple ((j - 65892) / 65536) ((j - 65892) % 65536 / 256) ((j - 65892) % 256)

theorem slotOf_injective {j k : Nat} (h : slotOf j = slotOf k) : j = k := by
  unfold slotOf at h
  split_ifs at h <;> simp only [Slot.direct.injEq, Slot.single.injEq, Slot.double.injEq,
    Slot.triple.injEq] at h <;> omega

/-- The four branches of `level3_local_index`: the slot a file offset leads to, and the offset
within its chunk. -/
def locate (offset : Nat) : Option (Slot × Nat) :=
  if offset < sizeDirectEnd then
    some (.direct (offset / sizeDirectUnit), offset % sizeDirectUnit)
  else if offset < sizeFirstDirectEnd then
    let offset := offset - sizeDirectEnd
    some (.single (offset / sizeFirstDirectUnit), offset % sizeFirstDirectUnit)
  else if offset < sizeSecondDirectEnd then
    let offset := offset - sizeFirstDirectEnd
    let in2 := offset / sizeSecondDirectUnit
    let offset := offset % sizeSecondDirectUnit
    some (.double in2 (offset / sizeFirstDirectUnit), offset % sizeFirstDirectUnit)
  else if offset < sizeThirdDirectEnd then
    let offset := offset - sizeSecondDirectEnd
    let in3 := offset / sizeThirdDirectUnit
    let offset := offset % sizeThirdDirectUnit
    let in2 := offset / sizeSecondDirectUnit
    let offset := offset % sizeSecondDirectUnit
    some (.triple in3 in2 (offset / sizeFirstDirectUnit), offset % sizeFirstDirectUnit)
  else none

theorem locate_eq {offset : Nat} (ho : offset < sizeThirdDirectEnd) :
    locate offset = some (slotOf (offset / chunkSize), offset % chunkSize) := by
  unfold locate slotOf
  simp only [sizeDirectEnd, sizeFirstDirectEnd, sizeSecondDirectEnd, sizeThirdDirectEnd,
    sizeDirectUnit, sizeFirstDirectUnit, sizeSecondDirectUnit, sizeThirdDirectUnit, chunkSize,
    directIndexNums, indirectIndexNums, Nat.reduceMul, Nat.reduceAdd] at ho ⊢
  by_cases hd : offset < 409600
  · have hd' : offset / 4096 < 100 := by omega
    rw [if_pos hd, if_pos hd']
  have hd' : ¬ offset / 4096 < 100 := by omega
  rw [if_neg hd, if_neg hd']
  by_cases hf : offset < 1458176
  · have hq : (offset - 409600) / 4096 = offset / 4096 - 100 := by omega
    have hr : (offset - 409600) % 4096 = offset % 4096 := by omega
    have hf' : offset / 4096 < 356 := by omega
    rw [if_pos hf, if_pos hf', hq, hr]
  have hf' : ¬ offset / 4096 < 356 := by omega
  rw [if_neg hf, if_neg hf']
  by_cases hs : offset < 269893632
  · have hq : (offset - 1458176) / 1048576 = (offset / 4096 - 356) / 256 := by omega
    have hp : (offset - 1458176) % 1048576 / 4096 = (offset / 4096 - 356) % 256 := by omega
    have hr : (offset - 1458176) % 1048576 % 4096 = offset % 4096 := by omega
    have hs' : offset / 4096 < 65892 := by omega
    rw [if_pos hs, if_pos hs', hq, hp, hr]
  have hq : (offset - 269893632) / 268435456 = (offset / 4096 - 65892) / 65536 := by omega
  have hp : (offset - 269893632) % 268435456 / 1048576 =
      (offset / 4096 - 65892) % 65536 / 256 := by omega
  have hm : (offset - 269893632) % 268435456 % 1048576 / 4096 =
      (offset / 4096 - 65892) % 256 := by omega
  have hr : (offset - 269893632) % 268435456 % 1048576 % 4096 = offset % 4096 := by omega
  have hs' : ¬ offset / 4096 < 65892 := by omega
  rw [if_neg hs, if_neg hs', if_pos ho, hq, hp, hm, hr]

theorem locate_end {offset : Nat} (ho : sizeThirdDirectEnd ≤ offset) : locate offset = none := by
  unfold locate
  simp only [sizeDirectEnd, sizeFirstDirectEnd, sizeSecondDirectEnd, sizeThirdDirectEnd,
    chunkSize, directIndexNums, indirectIndexNums] at ho ⊢
  rw [if_neg (by omega), if_neg (by omega), if_neg (by omega), if_neg (by omega)]

namespace FileIndex

instance (f : FileIndex) : (slot : Slot) → Decidable (f.HasBlock slot)
  | .direct _ => inferInstanceAs (Decidable True)
  | .single _ => inferInstanceAs (Decidable (f.in1addr.isSome = true))
  | .double _ _ => inferInstanceAs (Decidable (f.in2addr.isSome = true))
  | .triple _ _ _ => inferInstanceAs (Decidable (f.in3addr.isSome = true))

theorem get_of_not_hasBlock {f : FileIndex} {slot : Slot} (h : ¬ f.HasBlock slot) :
    f.get slot = none := by
  by_contra hne
  obtain ⟨c, hc⟩ := Option.ne_none_iff_exists'.mp hne
  exact h (hasBlock_of_get hc)

/-- `init_indirect_class1`, `2` and `3`: an empty block for a slot to lie in. -/
def initBlock (f : FileIndex) : Slot → FileIndex
  | .direct _ => f
  | .single _ => { f with in1addr := some fun _ => none }
  | .double _ _ => { f with in2addr := some fun _ _ => none }
  | .triple _ _ _ => { f with in3addr := some fun _ _ _ => none }

end FileIndex

/-- The lookup in a slot, which first makes the block the slot lies in. -/
def lookup (s : Fs) (head : InodeId) (onlyRead : Bool) (slot : Slot) : Option (Fs × Option Chunk) :=
  if (s.inodes head).cntId.HasBlock slot then slotContext s head slot onlyRead
  else if onlyRead then some (s, none)
  else slotContext (s.modify head fun n => { n with cntId := n.cntId.initBlock slot }) head slot
    onlyRead

/-- `level3_local_index` is a lookup in the slot that it locates. A read in a block that does not
exist leaves the offset as it is. -/
theorem level3LocalIndex_locate (s : Fs) (offset : Nat) (head : InodeId) (onlyRead : Bool) :
    level3LocalIndex s offset head onlyRead =
      match locate offset with
      | none => some (s, offset, none)
      | some (slot, chunkOffset) =>
        if onlyRead = true ∧ ¬ (s.inodes head).cntId.HasBlock slot then some (s, offset, none)
        else (lookup s head onlyRead slot).map fun (s, cnt) => (s, chunkOffset, cnt) := by
  have block : ∀ (slot : Slot) (chunkOffset : Nat) (exist : Bool),
      (exist ↔ (s.inodes head).cntId.HasBlock slot) →
      withBlock s head onlyRead exist (fun n => { n with cntId := n.cntId.initBlock slot })
        (s, offset, none)
        (fun s => (slotContext s head slot onlyRead).map fun (s, cnt) => (s, chunkOffset, cnt)) =
      if onlyRead = true ∧ ¬ (s.inodes head).cntId.HasBlock slot then some (s, offset, none)
      else (lookup s head onlyRead slot).map fun (s, cnt) => (s, chunkOffset, cnt) := by
    intro slot chunkOffset exist he
    by_cases hb : (s.inodes head).cntId.HasBlock slot
    · simp [withBlock, lookup, hb, he.mpr hb]
    · cases onlyRead <;> simp [withBlock, lookup, hb, mt he.mp hb]
  unfold level3LocalIndex locate
  split
  · exact block (.direct _) _ true (iff_of_true rfl trivial)
  split
  · exact block (.single _) _ _ Iff.rfl
  split
  · exact block (.double _ _) _ _ Iff.rfl
  split
  · exact block (.triple _ _ _) _ _ Iff.rfl
  · rfl

/-- A lookup in a slot, which first makes the third indirect block when it is needed. -/
def reach (s : Fs) (head : InodeId) (onlyRead : Bool) : Slot → Option (Fs × Option Chunk)
  | .triple in3 in2 in1 =>
    withBlock s head onlyRead (s.inodes head).cntId.in3addr.isSome
      (fun n => { n with cntId := { n.cntId with in3addr := some fun _ _ _ => none } })
      (s, none) fun s => slotContext s head (.triple in3 in2 in1) onlyRead
  | slot => slotContext s head slot onlyRead

/-- The first two indirect blocks, which every inode is made with. -/
def FileIndex.Complete (f : FileIndex) : Prop := f.in1addr.isSome ∧ f.in2addr.isSome

theorem lookup_eq_reach {s : Fs} {head : InodeId} (h : (s.inodes head).cntId.Complete)
    (onlyRead : Bool) (slot : Slot) : lookup s head onlyRead slot = reach s head onlyRead slot := by
  cases slot with
  | direct => rfl
  | single => exact if_pos h.1
  | double => exact if_pos h.2
  | triple => rfl

/-- For writing `level3_local_index` looks in the slot of the chunk and leaves the offset within
it. -/
theorem level3LocalIndex_write {s : Fs} {head : InodeId} (h : (s.inodes head).cntId.Complete)
    {offset : Nat} (ho : offset < sizeThirdDirectEnd) :
    level3LocalIndex s offset head false =
      (reach s head false (slotOf (offset / chunkSize))).map
        fun (s, cnt) => (s, offset % chunkSize, cnt) := by
  rw [level3LocalIndex_locate, locate_eq ho]
  simp [lookup_eq_reach h]

/-- For reading it returns what is in the slot. -/
theorem level3LocalIndex_read (s : Fs) (head : InodeId) {offset : Nat}
    (ho : offset < sizeThirdDirectEnd) :
    level3LocalIndex s offset head true =
      some (s, if (s.inodes head).cntId.HasBlock (slotOf (offset / chunkSize)) then
        offset % chunkSize else offset,
        (s.inodes head).cntId.get (slotOf (offset / chunkSize))) := by
  rw [level3LocalIndex_locate, locate_eq ho]
  by_cases hb : (s.inodes head).cntId.HasBlock (slotOf (offset / chunkSize))
  · simp only [hb, not_true, and_false, if_false, if_true, lookup, slotContext]
    split <;> simp_all
  · simp [hb, FileIndex.get_of_not_hasBlock hb]

theorem level3LocalIndex_end {s : Fs} {head : InodeId} {offset : Nat}
    (ho : sizeThirdDirectEnd ≤ offset) (onlyRead : Bool) :
    level3LocalIndex s offset head onlyRead = some (s, offset, none) := by
  rw [level3LocalIndex_locate, locate_end ho]

/-! ## The outcome of a lookup -/

/-- A slot with a context needs no free chunk. -/
theorem reach_hit {s : Fs} {head : InodeId} {slot : Slot} {c : Chunk}
    (h : (s.inodes head).cntId.get slot = some c) :
    reach s head false slot = some (s, some c) := by
  have hs : slotContext s head slot false = some (s, some c) := by
    unfold slotContext
    rw [h]
  cases slot with
  | triple in3 in2 in1 =>
    have hb : (s.inodes head).cntId.in3addr.isSome := FileIndex.hasBlock_of_get h
    simpa [reach, withBlock, hb] using hs
  | _ => exact hs

/-- What a lookup for writing does to an empty slot: one free chunk becomes the context of that
slot and joins the list of the inode. -/
structure Allocated (s : Fs) (head : InodeId) (slot : Slot) (c : Chunk) (s' : Fs)
    (index : FileIndex) : Prop where
  empty : (s.inodes head).cntId.get slot = none
  free : s.bitmap c = false
  lt : s.cursor < chunkNum → c < chunkNum
  complete : (s.inodes head).cntId.Complete → index.Complete
  get : ∀ slot', index.get slot' =
    if slot' = slot then some c else (s.inodes head).cntId.get slot'
  eq : s' = { s with
    inodes := Function.update s.inodes head
      { s.inodes head with cntId := index, context := c :: (s.inodes head).context }
    contextAddr := Function.update s.contextAddr c
      { s.contextAddr c with whichInodeItIs := some (head, slot) }
    bitmap := Function.update s.bitmap c true
    cursor := c }

/-- A lookup for writing returns the context in the slot, which it may have allocated. -/
inductive Located (s : Fs) (head : InodeId) (slot : Slot) (c : Chunk) : Fs → Prop
  | hit (h : (s.inodes head).cntId.get slot = some c) : Located s head slot c s
  | alloc {s' : Fs} {index : FileIndex} (h : Allocated s head slot c s' index) :
    Located s head slot c s'

theorem slotContext_write {s s' : Fs} {head : InodeId} {slot : Slot} {cnt : Option Chunk}
    (hb : (s.inodes head).cntId.HasBlock slot)
    (h : slotContext s head slot false = some (s', cnt)) :
    ∃ c, cnt = some c ∧ Located s head slot c s' := by
  unfold slotContext at h
  cases hg : (s.inodes head).cntId.get slot with
  | some c =>
    simp only [hg, Option.some.injEq, Prod.mk.injEq] at h
    obtain ⟨rfl, rfl⟩ := h
    exact ⟨c, rfl, .hit hg⟩
  | none =>
    rcases hc : getFreeContext s with ⟨s1, _ | c⟩
    · simp [hg, hc] at h
    simp only [hg, hc, Bool.false_eq_true, if_false, Option.some.injEq, Prod.mk.injEq] at h
    obtain ⟨rfl, rfl⟩ := h
    obtain ⟨free, lt, rfl⟩ := getFreeContext_some hc
    refine ⟨c, rfl, .alloc ⟨hg, free, lt, ?_, FileIndex.get_set hb _, rfl⟩⟩
    rintro ⟨h1, h2⟩
    cases slot <;> simp_all [FileIndex.set, FileIndex.Complete]

theorem slotContext_some {s s' : Fs} {head : InodeId} {slot : Slot} {c : Chunk}
    (hb : (s.inodes head).cntId.HasBlock slot)
    (h : slotContext s head slot false = some (s', some c)) : Located s head slot c s' := by
  obtain ⟨d, hd, loc⟩ := slotContext_write hb h
  obtain rfl := Option.some.inj hd
  exact loc

theorem slotContext_none {s : Fs} {head : InodeId} {slot : Slot}
    (h : slotContext s head slot false = none) :
    ∃ s', getFreeContext s = (s', none) := by
  unfold slotContext at h
  split at h
  · simp at h
  rcases hc : getFreeContext s with ⟨s1, _ | c⟩
  · exact ⟨s1, rfl⟩
  · simp [hc] at h

/-- Making a block leaves every slot as it was. -/
theorem get_initBlock {f : FileIndex} {slot : Slot} (h : ¬ f.HasBlock slot) (slot' : Slot) :
    (f.initBlock slot).get slot' = f.get slot' := by
  cases slot <;> cases slot' <;> simp_all [FileIndex.HasBlock, FileIndex.initBlock, FileIndex.get]

theorem hasBlock_initBlock (f : FileIndex) (slot : Slot) : (f.initBlock slot).HasBlock slot := by
  cases slot <;> simp [FileIndex.HasBlock, FileIndex.initBlock]

theorem complete_initBlock {f : FileIndex} (h : f.Complete) (slot : Slot) :
    (f.initBlock slot).Complete := by
  cases slot <;> simp_all [FileIndex.Complete, FileIndex.initBlock]

theorem lookup_write {s s' : Fs} {head : InodeId} {slot : Slot} {cnt : Option Chunk}
    (h : lookup s head false slot = some (s', cnt)) :
    ∃ c, cnt = some c ∧ Located s head slot c s' := by
  unfold lookup at h
  by_cases hb : (s.inodes head).cntId.HasBlock slot
  · rw [if_pos hb] at h
    exact slotContext_write hb h
  rw [if_neg hb, if_neg Bool.false_ne_true] at h
  have hget := get_initBlock hb
  have hempty : (s.inodes head).cntId.get slot = none := FileIndex.get_of_not_hasBlock hb
  obtain ⟨c, rfl, loc⟩ := slotContext_write (by simpa using hasBlock_initBlock _ slot) h
  refine ⟨c, rfl, ?_⟩
  cases loc with
  | hit hit => simp [hget, hempty] at hit
  | @alloc _ index a =>
    have ha : Allocated s head slot c s' index := by
      refine ⟨hempty, a.free, a.lt, fun hc => a.complete ?_, ?_, ?_⟩
      · simpa using complete_initBlock hc slot
      · intro slot'
        simpa [hget] using a.get slot'
      · simpa [Fs.modify] using a.eq
    exact .alloc ha

/-- A lookup for writing fails only where no chunk is free. -/
theorem lookup_none {s : Fs} {head : InodeId} {slot : Slot} (h : lookup s head false slot = none) :
    ∃ s1 s', s1.bitmap = s.bitmap ∧ s1.cursor = s.cursor ∧ getFreeContext s1 = (s', none) := by
  unfold lookup at h
  by_cases hb : (s.inodes head).cntId.HasBlock slot
  · rw [if_pos hb] at h
    obtain ⟨s', hs'⟩ := slotContext_none h
    exact ⟨s, s', rfl, rfl, hs'⟩
  · rw [if_neg hb, if_neg Bool.false_ne_true] at h
    obtain ⟨s', hs'⟩ := slotContext_none h
    exact ⟨_, s', Fs.modify_bitmap .., Fs.modify_cursor .., hs'⟩

theorem reach_write {s s' : Fs} {head : InodeId} {slot : Slot} {cnt : Option Chunk}
    (hf : (s.inodes head).cntId.Complete) (h : reach s head false slot = some (s', cnt)) :
    ∃ c, cnt = some c ∧ Located s head slot c s' :=
  lookup_write ((lookup_eq_reach hf false slot).trans h)

theorem reach_none {s : Fs} {head : InodeId} {slot : Slot} (hf : (s.inodes head).cntId.Complete)
    (h : reach s head false slot = none) :
    ∃ s1 s', s1.bitmap = s.bitmap ∧ s1.cursor = s.cursor ∧ getFreeContext s1 = (s', none) :=
  lookup_none ((lookup_eq_reach hf false slot).trans h)

end DhmpFs
