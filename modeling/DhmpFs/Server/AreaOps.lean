import DhmpFs.Server.Area

/-!
# The operations of a buddy area

Each operation keeps the tiling: building starts it, `dhmp_get_free_block` moves a block out and
`dhmp_free_one_block` moves it back.
-/

namespace DhmpFs

open Library

/-! ## The occupied orders -/

section orders

variable {area : Area} {index i j n : Nat}

/-- The search from `index` on stops at the first free block. -/
theorem firstOrder_spec (hindex : index ≤ j) (hj : j < maxOrder) (hne : area.blockHead j ≠ []) :
    index ≤ firstOrder area index ∧ firstOrder area index ≤ j ∧
      area.blockHead (firstOrder area index) ≠ [] := by
  unfold firstOrder
  cases hf : (List.range' index (maxOrder - index)).find? fun i =>
      !(area.blockHead i).isEmpty with
  | none =>
    rw [List.find?_range'_eq_none] at hf
    have := hf j hindex (by omega)
    simp [hne] at this
  | some i =>
    rw [List.find?_range'_eq_some] at hf
    obtain ⟨hi, hmem, hfirst⟩ := hf
    rw [List.mem_range'_1] at hmem
    refine ⟨hmem.1, ?_, by simpa using hi⟩
    apply Nat.le_of_not_lt
    intro hlt
    have := hfirst j hindex hlt
    simp [hne] at this

theorem firstOrder_mem (h : firstOrder area index ≠ maxOrder) :
    index ≤ firstOrder area index ∧ firstOrder area index < maxOrder ∧
      area.blockHead (firstOrder area index) ≠ [] := by
  unfold firstOrder at *
  cases hf : (List.range' index (maxOrder - index)).find? fun i =>
      !(area.blockHead i).isEmpty with
  | none => simp [hf] at h
  | some i =>
    have hmem := List.mem_range'_1.mp (List.mem_of_find?_eq_some hf)
    have hne := List.find?_some hf
    exact ⟨hmem.1, by simp only [Option.getD_some]; omega, by simpa using hne⟩

/-- The search downwards stops at the last free block. -/
theorem lastOrder_spec (area : Area) (n : Nat) :
    (lastOrder area n = -1 ∧ ∀ j < n, area.blockHead j = []) ∨
      ∃ i < n, lastOrder area n = i ∧ area.blockHead i ≠ [] ∧
        ∀ j, i < j → j < n → area.blockHead j = [] := by
  induction n with
  | zero => exact .inl ⟨rfl, by simp⟩
  | succ n ih =>
    by_cases hn : area.blockHead n = []
    · have hstep : lastOrder area (n + 1) = lastOrder area n := by simp [lastOrder, hn]
      rw [hstep]
      refine ih.imp (And.imp_right fun h j hj => ?_) ?_
      · rcases Nat.lt_succ_iff_lt_or_eq.mp hj with hj | rfl
        · exact h j hj
        · exact hn
      · rintro ⟨i, hi, heq, hne, habove⟩
        refine ⟨i, Nat.lt_succ_of_lt hi, heq, hne, fun j hij hj => ?_⟩
        rcases Nat.lt_succ_iff_lt_or_eq.mp hj with hj | rfl
        · exact habove j hij hj
        · exact hn
    · exact .inr ⟨n, Nat.lt_succ_self n, by simp [lastOrder, hn], hn, by omega⟩

/-- Empty orders above do not matter. -/
theorem lastOrder_eq (hle : i ≤ n) (habove : ∀ j, i ≤ j → j < n → area.blockHead j = []) :
    lastOrder area i = lastOrder area n := by
  induction hle with
  | refl => rfl
  | @step n hn ih =>
    rw [ih fun j hij hj => habove j hij (Nat.lt_succ_of_lt hj)]
    simp [lastOrder, habove n hn (Nat.lt_succ_self n)]

@[simp] theorem lastOrder_maxIndex (area : Area) (m : Int) (n : Nat) :
    lastOrder { area with maxIndex := m } n = lastOrder area n := by
  induction n with
  | zero => rfl
  | succ n ih => simp only [lastOrder, ih]

/-- No free block is above `max_index`. -/
def Area.Capped (area : Area) : Prop :=
  area.maxIndex < maxOrder ∧ ∀ j < maxOrder, area.blockHead j ≠ [] → (j : Int) ≤ area.maxIndex

theorem Area.Indexed.capped (h : area.Indexed) : area.Capped := by
  unfold Area.Indexed at h
  rcases lastOrder_spec area maxOrder with ⟨heq, hnone⟩ | ⟨i, hi, heq, -, habove⟩
  · refine ⟨by omega, fun j hj hne => absurd (hnone j hj) hne⟩
  · refine ⟨by omega, fun j hj hne => ?_⟩
    rw [h, heq]
    apply Int.ofNat_le.mpr
    apply Nat.le_of_not_lt
    intro hlt
    exact hne (habove j hlt hj)

/-- The search from `max_index` down finds what a search from the top finds. -/
theorem Area.Capped.lastOrder_eq (h : area.Capped) :
    lastOrder area (area.maxIndex + 1).toNat = lastOrder area maxOrder := by
  obtain ⟨hlt, hcap⟩ := h
  refine DhmpFs.lastOrder_eq (by omega) fun j hij hj => ?_
  by_contra hne
  have := hcap j hj hne
  omega

/-- An area whose `max_index` reaches `index` has a free block of that order or a larger one. -/
theorem Area.Indexed.exists_free (h : area.Indexed) (hindex : (index : Int) ≤ area.maxIndex) :
    ∃ j < maxOrder, index ≤ j ∧ area.blockHead j ≠ [] := by
  unfold Area.Indexed at h
  rcases lastOrder_spec area maxOrder with ⟨heq, -⟩ | ⟨i, hi, heq, hne, -⟩
  · omega
  · exact ⟨i, hi, by omega, hne⟩

end orders

/-! ## Taking a block -/

/-- The area after the first block of the order `i`, before `rest`, went out. -/
def Area.taken (area : Area) (i : Nat) (rest : List FreeBlock) : Area :=
  let area := (area.setHead i rest).addFree i (-1)
  { area with maxIndex := lastOrder area (area.maxIndex + 1).toNat }

/-- The area after `blk`, the first block of the order `i + 1`, was halved. -/
def Area.split (area : Area) (i : Nat) (blk : FreeBlock) (rest : List FreeBlock) : Area :=
  (((area.setHead (i + 1) rest).setHead i
    (⟨blk.addr, blk.size / 2, blk.mr⟩ :: ⟨blk.addr + blk.size / 2, blk.size / 2, blk.mr⟩ ::
      area.blockHead i)).addFree (i + 1) (-1)).addFree i 2

variable {area : Area} {others : List (Nat × Nat)} {index addr : Nat}

theorem dhmpGetFreeBlock_spec {rounds : Nat} (h : Buddies area others) (hc : area.Capped)
    (hindex : index < maxOrder) (hfree : ∃ j < maxOrder, index ≤ j ∧ j < index + rounds ∧
      area.blockHead j ≠ []) :
    ∃ area' blk, dhmpGetFreeBlock rounds area index = some (area', some blk) ∧
      Buddies area' (blk.span :: others) ∧ area'.Indexed ∧ area'.mr = area.mr ∧
      blk.mr = area.mr ∧ Placed area.mr.addr blk.span index := by
  induction rounds generalizing area with
  | zero =>
    obtain ⟨j, -, hle, hlt, -⟩ := hfree
    omega
  | succ rounds ih =>
    obtain ⟨j, hj, hle, hlt, hne⟩ := hfree
    obtain ⟨hfirst, hfirst', hhead⟩ := firstOrder_spec hle hj hne
    unfold dhmpGetFreeBlock
    generalize hi : firstOrder area index = i at hfirst hfirst' hhead
    have hmax : i < maxOrder := Nat.lt_of_le_of_lt hfirst' hj
    obtain ⟨blk, rest, hblk⟩ := List.exists_cons_of_ne_nil hhead
    simp only [Nat.ne_of_lt hmax, if_false, hblk]
    by_cases hsame : i = index
    · subst hsame
      have htaken := (h.take hmax hblk).addFree i (-1)
      have hcapped : ((area.setHead i rest).addFree i (-1)).Capped := by
        refine ⟨hc.1, fun k hk hne => ?_⟩
        by_cases hki : k = i
        · exact hki ▸ hc.2 i hmax hhead
        · rw [Area.addFree_blockHead, Area.setHead_ne hki] at hne
          exact hc.2 k hk hne
      obtain ⟨hmr, hplaced⟩ := h.free i hmax blk (by simp [hblk])
      refine ⟨area.taken i rest, blk, by simp only [ne_eq, not_true, if_false]; rfl,
        ⟨htaken.length, htaken.free, htaken.out, htaken.tiles⟩, ?_, rfl, hmr, hplaced⟩
      rw [Area.Indexed, Area.taken, lastOrder_maxIndex]
      exact hcapped.lastOrder_eq
    · -- the block is too large: halve it and try again
      obtain ⟨i, rfl⟩ : ∃ k, i = k + 1 := ⟨i - 1, by omega⟩
      have hhalved := ((h.halve hmax hblk).addFree (i + 1) (-1)).addFree i 2
      have hcapped : (area.split i blk rest).Capped := by
        have htop := hc.2 (i + 1) hmax hhead
        refine ⟨hc.1, fun k hk hne => ?_⟩
        rcases Nat.lt_or_ge (i + 1) k with hki | hki
        · rw [Area.split, Area.addFree_blockHead, Area.addFree_blockHead,
            Area.setHead_ne (by omega), Area.setHead_ne (by omega)] at hne
          exact hc.2 k hk hne
        · change (k : Int) ≤ area.maxIndex
          omega
      obtain ⟨area', blk', heq, hrest⟩ := ih hhalved hcapped
        ⟨i, Nat.lt_of_succ_lt hmax, by omega, by omega, by simp⟩
      refine ⟨area', blk', ?_, hrest⟩
      simp only [ne_eq, hsame, not_false_eq_true, if_true, Nat.add_sub_cancel,
        Area.setHead_ne (Nat.ne_of_lt (Nat.lt_succ_self i))]
      exact heq

/-- What one round does: it finds no block, takes the first one of the order, or halves the
first one of the next order that has any. -/
theorem dhmpGetFreeBlock_cases {rounds : Nat} {area' : Area} {r : Option FreeBlock}
    (h : dhmpGetFreeBlock (rounds + 1) area index = some (area', r)) :
    (area' = area ∧ r = none ∧ firstOrder area index = maxOrder) ∨
    (∃ blk rest, index < maxOrder ∧ area.blockHead index = blk :: rest ∧
      area' = area.taken index rest ∧ r = some blk) ∨
    ∃ i blk rest, index ≤ i ∧ i + 1 < maxOrder ∧ area.blockHead (i + 1) = blk :: rest ∧
      (∀ j, index ≤ j → j ≤ i → area.blockHead j = []) ∧
      dhmpGetFreeBlock rounds (area.split i blk rest) index = some (area', r) := by
  unfold dhmpGetFreeBlock at h
  by_cases hmax : firstOrder area index = maxOrder
  · simp only [hmax, if_true, Option.some.injEq, Prod.mk.injEq] at h
    exact .inl ⟨h.1.symm, h.2.symm, hmax⟩
  obtain ⟨hle, hlt, hne⟩ := firstOrder_mem hmax
  have hbelow : ∀ j, index ≤ j → j < firstOrder area index → area.blockHead j = [] := by
    intro j hj hjlt
    by_contra hjne
    exact absurd (firstOrder_spec hj (Nat.lt_trans hjlt hlt) hjne).2.1 (Nat.not_le.mpr hjlt)
  right
  generalize firstOrder area index = i at *
  obtain ⟨blk, rest, hblk⟩ := List.exists_cons_of_ne_nil hne
  simp only [hmax, if_false, hblk] at h
  by_cases hsame : i = index
  · subst hsame
    simp only [ne_eq, not_true, if_false, Option.some.injEq, Prod.mk.injEq] at h
    exact .inl ⟨blk, rest, hlt, hblk, h.1.symm, h.2.symm⟩
  · obtain ⟨i, rfl⟩ : ∃ k, i = k + 1 := ⟨i - 1, by omega⟩
    simp only [ne_eq, hsame, not_false_eq_true, if_true, Nat.add_sub_cancel,
      Area.setHead_ne (Nat.ne_of_lt (Nat.lt_succ_self i))] at h
    exact .inr ⟨i, blk, rest, by omega, hlt, hblk, fun j hj hji => hbelow j hj (by omega), h⟩

/-! ## Returning a block -/

theorem insertBlock_perm (new : FreeBlock) (list : List FreeBlock) :
    (insertBlock new list).Perm (new :: list) := by
  induction list with
  | nil => exact .refl _
  | cons large list ih =>
    unfold insertBlock
    split
    · exact .refl _
    · exact (ih.cons large).trans (.swap new large list)

/-- What `find?` finds is what `eraseP` removes. -/
theorem perm_eraseP {α : Type} {p : α → Bool} {l : List α} {a : α} (h : l.find? p = some a) :
    l.Perm (a :: l.eraseP p) := by
  obtain ⟨ha, before, after, rfl, hbefore⟩ := List.find?_eq_some_iff_append.mp h
  rw [List.eraseP_append_right _ fun b hb => by simpa using hbefore b hb,
    List.eraseP_cons_of_pos ha]
  exact List.perm_middle

/-- `tmp` is the other half of the block of order `index + 1` that the block at `addr` is in. -/
def IsBuddy (area : Area) (addr index : Nat) (tmp : FreeBlock) : Prop :=
  (addr - area.mr.addr) % buddySize (index + 1) = 0 ∧ addr + buddySize index = tmp.addr ∨
    (addr - area.mr.addr) % buddySize (index + 1) ≠ 0 ∧ tmp.addr + buddySize index = addr

/-- What `dhmp_recycle_free_block` does: it puts the block on its list, when the order is the last
or the buddy is not free, or takes the buddy off. -/
theorem dhmpRecycleFreeBlock_cases (area : Area) (addr index : Nat) :
    (∃ list, dhmpRecycleFreeBlock area addr index = (area.setHead index list, addr, false) ∧
        list.Perm (⟨addr, buddySize index, area.mr⟩ :: area.blockHead index) ∧
        (index = maxOrder - 1 ∨ ∀ tmp ∈ area.blockHead index, ¬ IsBuddy area addr index tmp)) ∨
      ∃ tmp list, dhmpRecycleFreeBlock area addr index =
          (area.setHead index list, min addr tmp.addr, true) ∧
        index ≠ maxOrder - 1 ∧ (area.blockHead index).Perm (tmp :: list) ∧
        IsBuddy area addr index tmp := by
  have hperm := insertBlock_perm ⟨addr, buddySize index, area.mr⟩ (area.blockHead index)
  unfold dhmpRecycleFreeBlock
  by_cases hempty : area.blockHead index = []
  · exact .inl ⟨[⟨addr, buddySize index, area.mr⟩], by simp [hempty], by simp [hempty],
      .inr (by simp [hempty])⟩
  simp only [List.isEmpty_iff, hempty, if_false]
  by_cases hlast : index = maxOrder - 1
  · exact .inl ⟨_, by rw [if_pos hlast], hperm, .inl hlast⟩
  rw [if_neg hlast]
  cases hfind : (area.blockHead index).find? _ with
  | none =>
    refine .inl ⟨_, rfl, hperm, .inr fun tmp htmp hbuddy => ?_⟩
    have hnot := List.find?_eq_none.mp hfind tmp htmp
    exact hnot (by simpa [IsBuddy] using hbuddy)
  | some tmp =>
    have hbuddy := List.find?_some hfind
    exact .inr ⟨tmp, _, rfl, hlast, perm_eraseP hfind, by simpa [IsBuddy] using hbuddy⟩

/-- The block is put on its list, or taken together with its buddy. -/
theorem dhmpRecycleFreeBlock_spec (h : Buddies area ((addr, buddySize index) :: others))
    (hindex : index < maxOrder) (hp : Placed area.mr.addr (addr, buddySize index) index) :
    (∃ area', dhmpRecycleFreeBlock area addr index = (area', addr, false) ∧
        Buddies area' others ∧ area'.mr = area.mr ∧ area'.blockHead index ≠ []) ∨
      ∃ area' addr', dhmpRecycleFreeBlock area addr index = (area', addr', true) ∧
        index + 1 < maxOrder ∧ Buddies area' ((addr', buddySize (index + 1)) :: others) ∧
        Placed area.mr.addr (addr', buddySize (index + 1)) (index + 1) ∧ area'.mr = area.mr := by
  rcases dhmpRecycleFreeBlock_cases area addr index with
    ⟨list, heq, hperm, -⟩ | ⟨tmp, list, heq, hlast, hperm, hbuddy⟩
  · have hne : list ≠ [] := by
      rw [← List.length_pos_iff, hperm.length_eq]
      exact Nat.zero_lt_succ _
    exact .inl ⟨_, heq, h.put hindex hp hperm, rfl, by rwa [Area.setHead_self]⟩
  · have hnext : index + 1 < maxOrder := by omega
    obtain ⟨hplaced, hmerged⟩ := h.merge hnext hp hperm hbuddy
    exact .inr ⟨_, _, heq, hnext, hmerged, hplaced, rfl⟩

/-- The retries end at the last order at the latest. -/
theorem recycleLoop_spec {rounds : Nat} (h : Buddies area ((addr, buddySize index) :: others))
    (hindex : index < maxOrder) (hp : Placed area.mr.addr (addr, buddySize index) index)
    (hrounds : maxOrder ≤ index + rounds) :
    ∃ area', recycleLoop rounds area addr index = some area' ∧ Buddies area' others ∧
      area'.mr = area.mr ∧ ∃ j < maxOrder, area'.blockHead j ≠ [] := by
  induction rounds generalizing area addr index with
  | zero => omega
  | succ rounds ih =>
    unfold recycleLoop
    rcases dhmpRecycleFreeBlock_spec h hindex hp with
      ⟨area', heq, hb, hmr, hne⟩ | ⟨area', addr', heq, hnext, hb, hplaced, hmr⟩
    · exact ⟨area', by simp [heq], hb, hmr, index, hindex, hne⟩
    · have hlast : index ≠ maxOrder - 1 := by omega
      obtain ⟨area'', heq', hb', hmr', hne⟩ := ih hb hnext (hmr ▸ hplaced) (by omega)
      refine ⟨area'', ?_, hb', hmr'.trans hmr, hne⟩
      rw [heq]
      dsimp only
      rw [if_pos ⟨rfl, hlast⟩, heq']

/-- The order of a block is found by its size. -/
theorem find_buddySize {n : Nat} (hindex : index < maxOrder) (hn : n = buddySize index) :
    (List.range maxOrder).find? (fun i => n = buddySize i) = some index := by
  rw [List.find?_range_eq_some]
  refine ⟨by simpa using hn, List.mem_range.mpr hindex, fun j hj => ?_⟩
  have hne : buddySize index ≠ buddySize j := fun heq =>
    absurd (buddySize_injective hindex (Nat.lt_trans hj hindex) heq) (by omega)
  simpa [hn] using hne

theorem freeInArea_spec (mr : IbvMr) (h : Buddies area ((mr.addr, mr.length) :: others)) :
    ∃ area', freeInArea area mr = some area' ∧ Buddies area' others ∧ area'.Indexed ∧
      area'.mr = area.mr := by
  obtain ⟨index, hindex, hp⟩ := h.out _ (List.mem_cons_self ..)
  have hlen : mr.length = buddySize index := hp.1
  rw [hlen] at h hp
  have hfind := find_buddySize hindex hlen
  obtain ⟨area', heq, hb, hmr, j, hj, hne⟩ := recycleLoop_spec h hindex hp
    (Nat.le_add_left maxOrder index)
  have hnonneg : ¬ lastOrder area' maxOrder < 0 := by
    rcases lastOrder_spec area' maxOrder with ⟨-, hnone⟩ | ⟨i, -, hi, -⟩
    · exact absurd (hnone j hj) hne
    · omega
  refine ⟨{ area' with maxIndex := lastOrder area' maxOrder }, ?_,
    ⟨hb.length, hb.free, hb.out, hb.tiles⟩, ?_, hmr⟩
  · simp only [freeInArea, hfind, heq, Option.bind_eq_bind, Option.bind_some, Option.pure_def,
      hnonneg, if_false]
  · exact (lastOrder_maxIndex area' _ maxOrder).symm

/-! ## A fresh buddy area -/

/-- Two blocks of order 0, and one of every other order, which starts where the smaller ones
end. -/
theorem dhmpBuddySystemBuild_blockHead (area : Area) :
    (dhmpBuddySystemBuild area).blockHead 0 = [⟨area.mr.addr + 0, buddySize 0, area.mr⟩,
        ⟨area.mr.addr + buddySize 0, buddySize 0, area.mr⟩] ∧
      ∀ i < maxOrder, 0 < i → (dhmpBuddySystemBuild area).blockHead i =
        [⟨area.mr.addr + buddySize i, buddySize i, area.mr⟩] := by
  refine ⟨rfl, fun i hi hpos => ?_⟩
  change i < 5 at hi
  obtain rfl | rfl | rfl | rfl : i = 1 ∨ i = 2 ∨ i = 3 ∨ i = 4 := by omega
  all_goals rfl

theorem dhmpBuddySystemBuild_freeSpans (area : Area) :
    (dhmpBuddySystemBuild area).freeSpans = [(area.mr.addr + 0, 65536),
      (area.mr.addr + 65536, 65536), (area.mr.addr + 131072, 131072),
      (area.mr.addr + 262144, 262144), (area.mr.addr + 524288, 524288),
      (area.mr.addr + 1048576, 1048576)] := rfl

theorem dhmpBuddySystemBuild_spec (hlen : area.mr.length = singleAreaSize)
    (hindex : area.maxIndex = maxOrder - 1) :
    Buddies (dhmpBuddySystemBuild area) [] ∧ (dhmpBuddySystemBuild area).Indexed := by
  obtain ⟨hzero, hpos⟩ := dhmpBuddySystemBuild_blockHead area
  refine ⟨⟨hlen, fun i hi b hb => ?_, by simp, ?_⟩, ?_⟩
  · rcases Nat.eq_zero_or_pos i with rfl | hi0
    · rw [hzero] at hb
      rcases List.mem_pair.mp hb with rfl | rfl
      · exact ⟨rfl, rfl, 0, by simp [FreeBlock.span, dhmpBuddySystemBuild]⟩
      · exact ⟨rfl, rfl, 1, by simp [FreeBlock.span, dhmpBuddySystemBuild]⟩
    · rw [hpos i hi hi0, List.mem_singleton] at hb
      subst hb
      exact ⟨rfl, rfl, 1, by simp [FreeBlock.span, dhmpBuddySystemBuild]⟩
  · have hmr : (dhmpBuddySystemBuild area).mr = area.mr := rfl
    rw [List.append_nil, dhmpBuddySystemBuild_freeSpans, hmr]
    generalize area.mr.addr = base
    simp only [singleAreaSize]
    refine .cons (m := base + 65536) rfl rfl (by omega) ?_
    refine .cons (m := base + 131072) rfl (by omega) (by omega) ?_
    refine .cons (m := base + 262144) rfl (by omega) (by omega) ?_
    refine .cons (m := base + 524288) rfl (by omega) (by omega) ?_
    refine .cons (m := base + 1048576) rfl (by omega) (by omega) ?_
    exact .cons (m := base + 2097152) rfl (by omega) (by omega) (.nil _)
  · have htop : (dhmpBuddySystemBuild area).blockHead 4 ≠ [] := by
      rw [hpos 4 (by decide) (by decide)]
      simp
    have hlast : lastOrder (dhmpBuddySystemBuild area) maxOrder = 4 := by
      rw [lastOrder, if_neg (by simpa using htop)]
      rfl
    exact hindex.trans hlast.symm

end DhmpFs
