import DhmpFs.Library.Tiling
import DhmpFs.Server.Buddy

/-!
# One buddy area

The free blocks of an area and the blocks that are out tile the area, aligned to their sizes.
Taking, halving, merging and returning a block change which list a piece is in and how it is
cut, and leave what is covered alone.

## Main definitions

* `Placed`: a block of some order, aligned.
* `Buddies`: the free blocks and the `others` tile the area.
-/

namespace DhmpFs

open Library

/-! ## Sizes -/

theorem buddySize_succ {i : Nat} (hi : i + 1 < maxOrder) : buddySize (i + 1) = 2 * buddySize i := by
  have : ∀ i < 4, buddySize (i + 1) = 2 * buddySize i := by decide
  exact this i (Nat.lt_of_succ_lt_succ hi)

theorem buddySize_pos {i : Nat} (hi : i < maxOrder) : 0 < buddySize i := by
  have : ∀ i < 5, 0 < buddySize i := by decide
  exact this i hi

theorem buddySize_le {i : Nat} (hi : i < maxOrder) : buddySize i ≤ buddySize (maxOrder - 1) := by
  have : ∀ i < 5, buddySize i ≤ buddySize 4 := by decide
  exact this i hi

theorem buddySize_injective {i j : Nat} (hi : i < maxOrder) (hj : j < maxOrder)
    (h : buddySize i = buddySize j) : i = j := by
  have : ∀ i < 5, ∀ j < 5, buddySize i = buddySize j → i = j := by decide
  exact this i hi j hj h

/-! ## Placement -/

/-- The start and the length of a block. -/
def FreeBlock.span (b : FreeBlock) : Nat × Nat := (b.addr, b.size)

/-- `b` is a block of order `i` at a multiple of its size. -/
def Placed (base : Nat) (b : Nat × Nat) (i : Nat) : Prop :=
  b.2 = buddySize i ∧ ∃ k, b.1 = base + k * buddySize i

section placed

variable {base a i : Nat}

/-- The halves of a block. -/
theorem Placed.halves (h : Placed base (a, 2 * buddySize i) (i + 1)) (hi : i + 1 < maxOrder) :
    Placed base (a, buddySize i) i ∧ Placed base (a + buddySize i, buddySize i) i := by
  obtain ⟨-, k, hk⟩ := h
  rw [buddySize_succ hi] at hk
  refine ⟨⟨rfl, 2 * k, ?_⟩, rfl, 2 * k + 1, ?_⟩ <;> grind

/-- A block that is the left half of a larger block. -/
theorem Placed.double (h : Placed base (a, buddySize i) i)
    (hleft : (a - base) % buddySize (i + 1) = 0) :
    Placed base (a, buddySize (i + 1)) (i + 1) := by
  obtain ⟨-, k, hk⟩ := h
  refine ⟨rfl, (a - base) / buddySize (i + 1), ?_⟩
  have := Nat.div_mul_cancel (Nat.dvd_of_mod_eq_zero hleft)
  dsimp only at hk ⊢
  omega

/-- A block that is no left half is a right one. -/
theorem Placed.double_right (h : Placed base (a + buddySize i, buddySize i) i)
    (hi : i + 1 < maxOrder)
    (hright : (a + buddySize i - base) % buddySize (i + 1) ≠ 0) :
    Placed base (a, buddySize (i + 1)) (i + 1) := by
  obtain ⟨-, k, hk⟩ := h
  have hsucc := buddySize_succ hi
  obtain ⟨m, rfl | rfl⟩ : ∃ m, k = 2 * m ∨ k = 2 * m + 1 := ⟨k / 2, by omega⟩
  · refine absurd ?_ hright
    have : a + buddySize i - base = m * buddySize (i + 1) := by
      dsimp only at hk
      rw [hk, hsucc]
      grind
    rw [this, Nat.mul_mod_left]
  · refine ⟨rfl, m, ?_⟩
    dsimp only at hk ⊢
    rw [hsucc]
    grind

end placed

/-! ## The free lists -/

/-- The free blocks of all orders. -/
def Area.freeSpans (area : Area) : List (Nat × Nat) :=
  (List.range maxOrder).flatMap fun i => (area.blockHead i).map FreeBlock.span

section freeSpans

variable {area : Area} {i j : Nat} {list : List FreeBlock}

@[simp] theorem Area.setHead_mr : (area.setHead i list).mr = area.mr := rfl

@[simp] theorem Area.setHead_nrFree : (area.setHead i list).nrFree = area.nrFree := rfl

@[simp] theorem Area.setHead_self : (area.setHead i list).blockHead i = list :=
  Function.update_self ..

@[simp] theorem Area.setHead_ne (hj : j ≠ i) :
    (area.setHead i list).blockHead j = area.blockHead j := Function.update_of_ne hj ..

@[simp] theorem Area.addFree_mr (n : Int) : (area.addFree i n).mr = area.mr := rfl

@[simp] theorem Area.addFree_maxIndex (n : Int) : (area.addFree i n).maxIndex = area.maxIndex :=
  rfl

@[simp] theorem Area.addFree_blockHead (n : Int) :
    (area.addFree i n).blockHead = area.blockHead := rfl

/-- The free blocks apart from those of one order. -/
theorem freeSpans_split (area : Area) (hi : i < maxOrder) : ∃ rest, ∀ list,
    (area.setHead i list).freeSpans.Perm (list.map FreeBlock.span ++ rest) := by
  refine ⟨((List.range maxOrder).erase i).flatMap fun j => (area.blockHead j).map FreeBlock.span,
    fun list => ?_⟩
  have hperm := List.perm_cons_erase (List.mem_range.mpr hi)
  refine (hperm.flatMap_right _).trans ?_
  rw [List.flatMap_cons, Area.setHead_self]
  refine List.Perm.append_left _ (List.Perm.of_eq (List.flatMap_congr fun j hj => ?_))
  rw [Area.setHead_ne]
  rintro rfl
  exact List.nodup_range.not_mem_erase hj

theorem setHead_blockHead (area : Area) (i : Nat) : area.setHead i (area.blockHead i) = area := by
  simp [Area.setHead]

theorem cover_setHead (area : Area) (hi : i < maxOrder) (list : List FreeBlock) (x : Nat) :
    cover (area.setHead i list).freeSpans x + cover ((area.blockHead i).map FreeBlock.span) x =
      cover area.freeSpans x + cover (list.map FreeBlock.span) x := by
  obtain ⟨rest, h⟩ := freeSpans_split area hi
  have h' := h (area.blockHead i)
  rw [setHead_blockHead] at h'
  rw [cover_perm (h list), cover_perm h', cover_append, cover_append]
  omega

end freeSpans

/-! ## The invariant of an area -/

/-- The free blocks of the area and the blocks in `others` tile the area. -/
structure Buddies (area : Area) (others : List (Nat × Nat)) : Prop where
  length : area.mr.length = singleAreaSize
  free : ∀ i < maxOrder, ∀ b ∈ area.blockHead i, b.mr = area.mr ∧ Placed area.mr.addr b.span i
  out : ∀ b ∈ others, ∃ i < maxOrder, Placed area.mr.addr b i
  tiles : Tiles (area.freeSpans ++ others) area.mr.addr (area.mr.addr + singleAreaSize)

/-- `max_index` is the largest order with a free block. -/
def Area.Indexed (area : Area) : Prop := area.maxIndex = lastOrder area maxOrder

namespace Buddies

variable {area : Area} {others others' : List (Nat × Nat)} {i : Nat} {list : List FreeBlock}

theorem perm (h : Buddies area others) (hp : others.Perm others') : Buddies area others' where
  length := h.length
  free := h.free
  out b hb := h.out b (hp.mem_iff.mpr hb)
  tiles := h.tiles.perm (hp.append_left _)

theorem pos (h : Buddies area others) {b : Nat × Nat} (hb : b ∈ area.freeSpans ++ others) :
    0 < b.2 := by
  rcases List.mem_append.mp hb with hb | hb
  · obtain ⟨i, hi, c, hc, rfl⟩ : ∃ i < maxOrder, ∃ c ∈ area.blockHead i, c.span = b := by
      simpa [Area.freeSpans] using hb
    rw [(h.free i hi c hc).2.1]
    exact buddySize_pos hi
  · obtain ⟨i, hi, hp⟩ := h.out b hb
    rw [hp.1]
    exact buddySize_pos hi

/-- The counters do not matter. -/
theorem addFree (h : Buddies area others) (i : Nat) (n : Int) :
    Buddies (area.addFree i n) others := ⟨h.length, h.free, h.out, h.tiles⟩

/-- The rule for every change of one free list: the list and the blocks that are out still cover
the same addresses. -/
theorem setHead (h : Buddies area others) (hi : i < maxOrder)
    (hlist : ∀ b ∈ list, b.mr = area.mr ∧ Placed area.mr.addr b.span i)
    (hothers : ∀ b ∈ others', ∃ i < maxOrder, Placed area.mr.addr b i)
    (hcover : ∀ x, cover (list.map FreeBlock.span ++ others') x =
      cover ((area.blockHead i).map FreeBlock.span ++ others) x) :
    Buddies (area.setHead i list) others' := by
  refine ⟨h.length, fun j hj b hb => ?_, hothers, fun x => ?_⟩
  · by_cases hji : j = i
    · subst hji
      rw [Area.setHead_self] at hb
      exact hlist b hb
    · rw [Area.setHead_ne hji] at hb
      exact h.free j hj b hb
  · have htiles := h.tiles x
    have hset := cover_setHead area hi list x
    have hsame := hcover x
    simp only [cover_append] at htiles hsame ⊢
    rw [Area.setHead_mr, ← htiles]
    omega

/-- The first free block of an order goes out. -/
theorem take (h : Buddies area others) (hi : i < maxOrder) {b : FreeBlock}
    (hb : area.blockHead i = b :: list) : Buddies (area.setHead i list) (b.span :: others) := by
  have hfree := h.free i hi
  rw [hb] at hfree
  refine h.setHead hi (fun c hc => hfree c (by simp [hc])) (fun c hc => ?_) fun x => ?_
  · rcases List.mem_cons.mp hc with rfl | hc
    · exact ⟨i, hi, (hfree b (by simp)).2⟩
    · exact h.out c hc
  · rw [hb]
    exact cover_perm List.perm_middle

/-- A block of an order comes back. -/
theorem put {addr : Nat} (h : Buddies area ((addr, buddySize i) :: others)) (hi : i < maxOrder)
    (hp : Placed area.mr.addr (addr, buddySize i) i)
    (hlist : list.Perm (⟨addr, buddySize i, area.mr⟩ :: area.blockHead i)) :
    Buddies (area.setHead i list) others := by
  refine h.setHead hi (fun b hb => ?_) (fun b hb => h.out b (by simp [hb])) fun x => ?_
  · rcases List.mem_cons.mp (hlist.mem_iff.mp hb) with rfl | hb
    · exact ⟨rfl, hp⟩
    · exact h.free i hi b hb
  · refine cover_perm (((hlist.map FreeBlock.span).append_right others).trans ?_)
    exact List.perm_middle.symm

/-- A block that comes back is merged with its free buddy. -/
theorem merge {addr : Nat} {tmp : FreeBlock}
    (h : Buddies area ((addr, buddySize i) :: others)) (hi : i + 1 < maxOrder)
    (hp : Placed area.mr.addr (addr, buddySize i) i)
    (hlist : (area.blockHead i).Perm (tmp :: list))
    (hbuddy : (addr - area.mr.addr) % buddySize (i + 1) = 0 ∧ addr + buddySize i = tmp.addr ∨
      (addr - area.mr.addr) % buddySize (i + 1) ≠ 0 ∧ tmp.addr + buddySize i = addr) :
    Placed area.mr.addr (min addr tmp.addr, buddySize (i + 1)) (i + 1) ∧
      Buddies (area.setHead i list) ((min addr tmp.addr, buddySize (i + 1)) :: others) := by
  have hi' : i < maxOrder := Nat.lt_of_succ_lt hi
  have htmp : tmp.span = (tmp.addr, buddySize i) := by
    have := (h.free i hi' tmp (hlist.mem_iff.mpr (by simp))).2.1
    exact Prod.ext rfl this
  have hsum : buddySize (i + 1) = buddySize i + buddySize i := by
    rw [buddySize_succ hi]
    omega
  have hplaced : Placed area.mr.addr (min addr tmp.addr, buddySize (i + 1)) (i + 1) := by
    rcases hbuddy with ⟨hleft, hadj⟩ | ⟨hright, hadj⟩
    · rw [Nat.min_eq_left (by omega)]
      exact hp.double hleft
    · rw [Nat.min_eq_right (by omega)]
      exact Placed.double_right (hadj ▸ hp) hi (hadj ▸ hright)
  refine ⟨hplaced, h.setHead hi' (fun b hb => h.free i hi' b (hlist.mem_iff.mpr (by simp [hb])))
    (fun b hb => ?_) fun x => ?_⟩
  · rcases List.mem_cons.mp hb with rfl | hb
    · exact ⟨i + 1, hi, hplaced⟩
    · exact h.out b (by simp [hb])
  · have hhead := cover_perm (x := x) (hlist.map FreeBlock.span)
    rw [List.map_cons, htmp] at hhead
    simp only [cover_append, hhead, hsum, cover_split]
    -- the two halves, in either order
    rcases hbuddy with ⟨-, hadj⟩ | ⟨-, hadj⟩
    · rw [Nat.min_eq_left (by omega), ← hadj]
      simp only [cover_cons]
      omega
    · rw [Nat.min_eq_right (by omega), ← hadj]
      simp only [cover_cons]
      omega

/-- The first block of an order is halved, and the halves head the list below. -/
theorem halve (h : Buddies area others) (hi : i + 1 < maxOrder) {blk : FreeBlock}
    (hb : area.blockHead (i + 1) = blk :: list) :
    Buddies ((area.setHead (i + 1) list).setHead i
      (⟨blk.addr, blk.size / 2, blk.mr⟩ :: ⟨blk.addr + blk.size / 2, blk.size / 2, blk.mr⟩ ::
        area.blockHead i)) others := by
  have hi' : i < maxOrder := Nat.lt_of_succ_lt hi
  obtain ⟨hmr, hplaced⟩ := h.free (i + 1) hi blk (by simp [hb])
  have hsize : blk.size = 2 * buddySize i := hplaced.1.trans (buddySize_succ hi)
  have hhalf : blk.size / 2 = buddySize i := by omega
  have hspan : blk.span = (blk.addr, 2 * buddySize i) := Prod.ext rfl hsize
  rw [hspan] at hplaced
  obtain ⟨hleft, hright⟩ := hplaced.halves hi
  have htaken := h.take hi hb
  rw [hspan] at htaken
  refine htaken.setHead hi' (fun b hb => ?_) h.out fun x => ?_
  · rcases List.mem_cons.mp hb with rfl | hb
    · exact ⟨hmr, by simpa [FreeBlock.span, hhalf] using hleft⟩
    rcases List.mem_cons.mp hb with rfl | hb
    · exact ⟨hmr, by simpa [FreeBlock.span, hhalf] using hright⟩
    · exact h.free i hi' b hb
  · rw [Area.setHead_ne (Nat.ne_of_lt (Nat.lt_succ_self i))]
    simp only [List.map_cons, FreeBlock.span, hhalf, cover_append, Nat.two_mul, cover_split]
    simp only [cover_cons]
    omega

end Buddies

end DhmpFs
