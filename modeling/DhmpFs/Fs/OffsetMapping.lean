import DhmpFs.Fs.Reachable

/-!
# Offsets and index slots

`level3_local_index` cuts a file offset into the place of a chunk and an offset within the chunk.
Every offset below the largest file has a slot inside its level, and two offsets share a slot
exactly when they lie in one chunk of the file.

## Main definitions

* `Slot.InBounds`: the indices of a slot are inside the arrays of its level.
* `MapsOffset`: what a lookup does at an offset.
-/

namespace DhmpFs

def Slot.InBounds : Slot → Prop
  | .direct in0 => in0 < directIndexNums
  | .single in1 => in1 < indirectIndexNums
  | .double in2 in1 => in2 < indirectIndexNums ∧ in1 < indirectIndexNums
  | .triple in3 in2 in1 =>
    in3 < indirectIndexNums ∧ in2 < indirectIndexNums ∧ in1 < indirectIndexNums

/-- The slot whose context `level3_local_index` looks up. -/
def selectedSlot (offset : Nat) : Option Slot := (locate offset).map Prod.fst

/-- What `level3_local_index` does with a slot at an offset. A read changes nothing, and leaves
the offset alone when the block of the slot does not exist. A write that finds a context or a free
chunk returns the context of the slot. -/
structure MapsOffset (s : Fs) (head : InodeId) (offset : Nat) (slot : Slot) : Prop where
  inBounds : slot.InBounds
  read : level3LocalIndex s offset head true =
    some (s, if (s.inodes head).cntId.HasBlock slot then offset % chunkSize else offset,
      (s.inodes head).cntId.get slot)
  write : (s.inodes head).cntId.get slot ≠ none ∨ (getFreeContext s).2 ≠ none →
    ∃ s' c, level3LocalIndex s offset head false = some (s', offset % chunkSize, some c) ∧
      Located s head slot c s'

/-! ## Slots -/

theorem slotOf_inBounds {j : Nat} (hj : j * chunkSize < sizeThirdDirectEnd) :
    (slotOf j).InBounds := by
  have hend : sizeThirdDirectEnd = 16843108 * chunkSize := rfl
  have hlt : j < 16843108 := by
    simp only [hend, chunkSize] at hj
    omega
  unfold slotOf
  split
  · assumption
  split
  · change j - 100 < 256
    omega
  split
  · change (j - 356) / 256 < 256 ∧ (j - 356) % 256 < 256
    omega
  · change (j - 65892) / 65536 < 256 ∧ (j - 65892) % 65536 / 256 < 256 ∧ (j - 65892) % 256 < 256
    omega

theorem selectedSlot_eq {offset : Nat} (ho : offset < sizeThirdDirectEnd) :
    selectedSlot offset = some (slotOf (offset / chunkSize)) := by
  rw [selectedSlot, locate_eq ho]
  rfl

theorem selectedSlot_inj {offset offset' : Nat} (ho : offset < sizeThirdDirectEnd)
    (ho' : offset' < sizeThirdDirectEnd) :
    selectedSlot offset = selectedSlot offset' ↔ offset / chunkSize = offset' / chunkSize := by
  rw [selectedSlot_eq ho, selectedSlot_eq ho', Option.some.injEq]
  exact ⟨slotOf_injective, congrArg slotOf⟩

/-! ## Lookups -/

/-- A write gets its context where there is one, or a free chunk. -/
theorem lookup_returns {s : Fs} {head : InodeId} {slot : Slot}
    (h : (s.inodes head).cntId.get slot ≠ none ∨ (getFreeContext s).2 ≠ none) :
    ∃ s' c, lookup s head false slot = some (s', some c) ∧ Located s head slot c s' := by
  rcases hl : lookup s head false slot with _ | ⟨s', cnt⟩
  · exfalso
    rcases h with hget | hfree
    · obtain ⟨c, hc⟩ := Option.ne_none_iff_exists'.mp hget
      have hb := FileIndex.hasBlock_of_get hc
      simp [lookup, slotContext, hb, hc] at hl
    · obtain ⟨s1, s2, hbitmap, hcursor, hnone⟩ := lookup_none hl
      refine hfree ?_
      unfold getFreeContext getFreeChunk at hnone ⊢
      rw [hbitmap, hcursor] at hnone
      rcases hs : scanBitmap chunkNum s.bitmap chunkNum s.cursor with ⟨i, _ | _⟩
      · rfl
      · simp [hs] at hnone
  · obtain ⟨c, rfl, loc⟩ := lookup_write hl
    exact ⟨s', c, rfl, loc⟩

/-- Every offset below the largest file has one slot within bounds, chunks and slots correspond,
and the lookup of an offset is the lookup in its slot. -/
theorem offset_mapping (s : Fs) (head : InodeId) :
    (∀ offset < sizeThirdDirectEnd, ∃ slot, selectedSlot offset = some slot ∧
      MapsOffset s head offset slot) ∧
    ∀ offset < sizeThirdDirectEnd, ∀ offset' < sizeThirdDirectEnd,
      selectedSlot offset = selectedSlot offset' ↔ offset / chunkSize = offset' / chunkSize := by
  refine ⟨fun offset ho => ⟨_, selectedSlot_eq ho, ?_, level3LocalIndex_read s head ho, ?_⟩,
    fun offset ho offset' ho' => selectedSlot_inj ho ho'⟩
  · refine slotOf_inBounds (Nat.lt_of_le_of_lt ?_ ho)
    exact Nat.div_mul_le_self offset chunkSize
  · intro h
    obtain ⟨s', c, hl, loc⟩ := lookup_returns h
    refine ⟨s', c, ?_, loc⟩
    rw [level3LocalIndex_locate, locate_eq ho]
    simp [hl]

/-- A new file has no third indirect block: a read at the first byte of that block leaves the
offset as it is. -/
theorem not_offset_mapping_read :
    sizeSecondDirectEnd < sizeThirdDirectEnd ∧
    ∃ s', level3LocalIndex (FsOp.next (dhmpInit fun _ _ => 0) (.mknod [47, 97]))
        sizeSecondDirectEnd 1 true = some (s', sizeSecondDirectEnd, none) ∧
      sizeSecondDirectEnd ≠ sizeSecondDirectEnd % chunkSize :=
  ⟨by decide, _, rfl, by decide⟩

end DhmpFs
