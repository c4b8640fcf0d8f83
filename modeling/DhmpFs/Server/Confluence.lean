import DhmpFs.Library.Dyadic
import DhmpFs.Server.AreaRuns

/-!
# The order of frees

No two halves of a block are both free, apart from the first two blocks of a new area, which
stay apart until one of them is taken. So the free lists are determined by the addresses that
are free, and these do not depend on the order in which blocks are freed.

## Main definitions

* `Area.Free`: the block of an order with an index is free.
* `Merged`: no two halves are free.
* `freeAll`: blocks are freed one after the other.
-/

namespace DhmpFs

open Library

/-- The block number `k` of the order `i` is in its list. -/
def Area.Free (area : Area) (i k : Nat) : Prop :=
  ∃ b ∈ area.blockHead i, b.addr = area.mr.addr + k * buddySize i

/-- No two halves of a block are free, but if `held` the first two blocks of the area are. -/
structure Merged (area : Area) (held : Prop) : Prop where
  halves : ∀ i k, i + 1 < maxOrder → area.Free i (2 * k) → area.Free i (2 * k + 1) →
    held ∧ i = 0 ∧ k = 0
  pair : held → area.Free 0 0 ∧ area.Free 0 1

section free

variable {area area' : Area} {others : List (Nat × Nat)} {held : Prop} {i j k l addr : Nat}
  {list : List FreeBlock}

theorem Area.Free.of_ne (hj : j ≠ i) :
    (area.setHead i list).Free j k ↔ area.Free j k := by
  simp [Area.Free, hj]

/-- One address is not the address of two blocks of an order. -/
theorem index_injective {base : Nat} (hi : i < maxOrder)
    (h : base + k * buddySize i = base + l * buddySize i) : k = l :=
  Nat.eq_of_mul_eq_mul_right (buddySize_pos hi) (Nat.add_left_cancel h)

theorem Area.Free.of_setHead (hsub : list ⊆ area.blockHead i)
    (h : (area.setHead i list).Free j k) : area.Free j k := by
  by_cases hj : j = i
  · subst hj
    obtain ⟨b, hb, haddr⟩ := h
    rw [Area.setHead_self] at hb
    exact ⟨b, hsub hb, haddr⟩
  · exact (Area.Free.of_ne hj).mp h

/-- Blocks are taken off one list, and the two blocks that are held stay. -/
theorem Merged.drop (h : Merged area held) (hsub : list ⊆ area.blockHead i)
    (hpair : held → i = 0 → (area.setHead i list).Free 0 0 ∧ (area.setHead i list).Free 0 1) :
    Merged (area.setHead i list) held := by
  refine ⟨fun j k hj hl hr => h.halves j k hj (hl.of_setHead hsub) (hr.of_setHead hsub),
    fun hheld => ?_⟩
  by_cases hi : i = 0
  · exact hpair hheld hi
  · rw [Area.Free.of_ne (Ne.symm hi), Area.Free.of_ne (Ne.symm hi)]
    exact h.pair hheld

/-- If one of the blocks that are held is taken, none are held afterwards. -/
theorem Merged.take (h : Merged area held) (hsub : list ⊆ area.blockHead i) :
    ∃ held', Merged (area.setHead i list) held' := by
  by_cases hpair : held → i = 0 → (area.setHead i list).Free 0 0 ∧ (area.setHead i list).Free 0 1
  · exact ⟨held, h.drop hsub hpair⟩
  simp only [Classical.not_imp] at hpair
  obtain ⟨hheld, rfl, hnot⟩ := hpair
  refine ⟨False, fun j k hj hl hr => ?_, False.elim⟩
  obtain ⟨-, rfl, rfl⟩ := h.halves j k hj (hl.of_setHead hsub) (hr.of_setHead hsub)
  exact (hnot ⟨hl, hr⟩).elim

/-- A list of one block holds no two halves. -/
theorem Merged.single {b : FreeBlock} (h : Merged area held) (hi : i < maxOrder)
    (hempty : area.blockHead i = []) : Merged (area.setHead i [b]) held := by
  have hone : ∀ k l, (area.setHead i [b]).Free i k → (area.setHead i [b]).Free i l → k = l := by
    rintro k l ⟨c, hc, hk⟩ ⟨d, hd, hl⟩
    rw [Area.setHead_self, List.mem_singleton] at hc hd
    subst hc hd
    exact index_injective hi (hk.symm.trans hl)
  refine ⟨fun j k hj hl hr => ?_, fun hheld => ?_⟩
  · by_cases hji : j = i
    · subst hji
      have := hone _ _ hl hr
      omega
    · rw [Area.Free.of_ne hji] at hl hr
      exact h.halves j k hj hl hr
  · by_cases h0 : 0 = i
    · subst h0
      obtain ⟨⟨c, hc, -⟩, -⟩ := h.pair hheld
      simp [hempty] at hc
    · rw [Area.Free.of_ne h0, Area.Free.of_ne h0]
      exact h.pair hheld

/-- A block whose other half is not free is put on its list. -/
theorem Merged.put {b : FreeBlock} (h : Merged area held) (hi : i < maxOrder)
    (hlist : list.Perm (b :: area.blockHead i)) (hb : b.addr = area.mr.addr + k * buddySize i)
    (hbuddy : i + 1 < maxOrder → ∀ m, (k = 2 * m → ¬ area.Free i (2 * m + 1)) ∧
      (k = 2 * m + 1 → ¬ area.Free i (2 * m))) :
    Merged (area.setHead i list) held := by
  have hfree : ∀ l, (area.setHead i list).Free i l ↔ l = k ∨ area.Free i l := by
    intro l
    unfold Area.Free
    rw [Area.setHead_self, Area.setHead_mr]
    constructor
    · rintro ⟨c, hc, haddr⟩
      rcases List.mem_cons.mp (hlist.mem_iff.mp hc) with rfl | hc
      · exact .inl (index_injective hi (haddr.symm.trans hb))
      · exact .inr ⟨c, hc, haddr⟩
    · rintro (rfl | ⟨c, hc, haddr⟩)
      · exact ⟨b, hlist.mem_iff.mpr List.mem_cons_self, hb⟩
      · exact ⟨c, hlist.mem_iff.mpr (List.mem_cons_of_mem _ hc), haddr⟩
  refine ⟨fun j m hj hl hr => ?_, fun hheld => ?_⟩
  · by_cases hji : j = i
    · subst hji
      rw [hfree] at hl hr
      obtain ⟨hleft, hright⟩ := hbuddy hj m
      rcases hl with hl | hl <;> rcases hr with hr | hr
      · omega
      · exact absurd hr (hleft hl.symm)
      · exact absurd hl (hright hr.symm)
      · exact h.halves j m hj hl hr
    · rw [Area.Free.of_ne hji] at hl hr
      exact h.halves j m hj hl hr
  · obtain ⟨hfirst, hsecond⟩ := h.pair hheld
    by_cases h0 : 0 = i
    · subst h0
      exact ⟨(hfree 0).mpr (.inr hfirst), (hfree 1).mpr (.inr hsecond)⟩
    · exact ⟨(Area.Free.of_ne h0).mpr hfirst, (Area.Free.of_ne h0).mpr hsecond⟩

/-! ## Taking a block -/

/-- Once the first block of the order that is halved is off its list, the halves that stay are
alone in theirs. -/
theorem merged_split {rest : List FreeBlock} (blk : FreeBlock)
    (h : Merged (area.setHead (i + 1) rest) held) (hi : i + 1 < maxOrder)
    (hempty : area.blockHead i = []) :
    ∃ right, (area.split i blk rest).blockHead i =
        [⟨blk.addr, blk.size / 2, blk.mr⟩, right] ∧
      Merged ((area.split i blk rest).setHead i [right]) held := by
  have hne : i ≠ i + 1 := Nat.ne_of_lt (Nat.lt_succ_self i)
  refine ⟨⟨blk.addr + blk.size / 2, blk.size / 2, blk.mr⟩, by simp [Area.split, hempty], ?_⟩
  generalize (⟨blk.addr + blk.size / 2, blk.size / 2, blk.mr⟩ : FreeBlock) = right
  have hhead : ((area.split i blk rest).setHead i [right]).blockHead =
      ((area.setHead (i + 1) rest).setHead i [right]).blockHead := by
    funext j
    by_cases hj : j = i
    · subst hj
      simp
    · simp [Area.split, hj]
  have hfree : ∀ j k, ((area.split i blk rest).setHead i [right]).Free j k ↔
      ((area.setHead (i + 1) rest).setHead i [right]).Free j k := by
    intro j k
    unfold Area.Free
    rw [hhead]
    rfl
  have hsingle := h.single (b := right) (Nat.lt_of_succ_lt hi)
    (by rw [Area.setHead_ne hne, hempty])
  exact ⟨fun j k hj hl hr => hsingle.halves j k hj ((hfree _ _).mp hl) ((hfree _ _).mp hr),
    fun hheld => (hsingle.pair hheld).imp (hfree _ _).mpr (hfree _ _).mpr⟩

theorem dhmpGetFreeBlock_merged {rounds index : Nat} {r : Option FreeBlock}
    (h : dhmpGetFreeBlock rounds area index = some (area', r))
    (hfirst : ∀ j b rest, index ≤ j → (∀ m, index ≤ m → m < j → area.blockHead m = []) →
      area.blockHead j = b :: rest → ∃ held, Merged (area.setHead j rest) held)
    (hnone : firstOrder area index = maxOrder → ∃ held, Merged area held) :
    ∃ held, Merged area' held := by
  induction rounds generalizing area with
  | zero => simp [dhmpGetFreeBlock] at h
  | succ rounds ih =>
    rcases dhmpGetFreeBlock_cases h with ⟨rfl, -, hmax⟩ | ⟨blk, rest, hi, hblk, rfl, -⟩ |
      ⟨i, blk, rest, hle, hi, hblk, hbelow, hrest⟩
    · exact hnone hmax
    · obtain ⟨held, hm⟩ := hfirst index blk rest (Nat.le_refl _) (by omega) hblk
      exact ⟨held, hm.halves, hm.pair⟩
    · -- the order below gets the halves, and the first of them is next
      obtain ⟨held, hm⟩ := hfirst (i + 1) blk rest (by omega)
        (fun m hm hlt => hbelow m hm (Nat.le_of_lt_succ hlt)) hblk
      obtain ⟨right, hhead, hsplit⟩ :=
        merged_split blk hm hi (hbelow i hle (Nat.le_refl i))
      refine ih hrest (fun j b tail hj hempty hcons => ?_) fun hmax => ?_
      · obtain rfl : j = i := by
          rcases Nat.lt_trichotomy j i with hlt | rfl | hlt
          · have hj' : (area.split i blk rest).blockHead j = area.blockHead j := by
              simp [Area.split, Nat.ne_of_lt hlt, Nat.ne_of_lt (Nat.lt_succ_of_lt hlt)]
            rw [hj', hbelow j hj (Nat.le_of_lt hlt)] at hcons
            exact absurd hcons (by simp)
          · rfl
          · rw [hempty i hle hlt] at hhead
            exact absurd hhead (by simp)
        rw [hhead] at hcons
        obtain ⟨-, rfl⟩ := List.cons.inj hcons
        exact ⟨held, hsplit⟩
      · have hspec := firstOrder_spec hle (Nat.lt_of_succ_lt hi)
          (by rw [hhead]; simp : (area.split i blk rest).blockHead i ≠ [])
        omega

/-! ## Freeing a block -/

/-- What is out is not free. -/
theorem Buddies.not_free (h : Buddies area ((addr, buddySize i) :: others)) (hi : i < maxOrder)
    (haddr : addr = area.mr.addr + k * buddySize i) : ¬ area.Free i k := by
  rintro ⟨b, hb, hbaddr⟩
  have hpos := buddySize_pos hi
  have hspan : b.span ∈ area.freeSpans :=
    List.mem_flatMap.mpr ⟨i, List.mem_range.mpr hi, List.mem_map_of_mem hb⟩
  have hsize : b.size = buddySize i := (h.free i hi b hb).2.1
  have hin : InBlock b.span addr := ⟨(hbaddr.trans haddr.symm).le, by
    change addr < b.addr + b.size
    omega⟩
  have hfree := cover_pos hspan hin
  have hout : 0 < cover ((addr, buddySize i) :: others) addr :=
    cover_pos List.mem_cons_self ⟨Nat.le_refl _, by dsimp only; omega⟩
  have htiles := h.tiles addr
  rw [cover_append] at htiles
  split_ifs at htiles <;> omega

/-- The buddy of a block is the block with the other index below the same larger block. -/
theorem isBuddy_iff {tmp : FreeBlock} (hi : i + 1 < maxOrder)
    (haddr : addr = area.mr.addr + k * buddySize i) :
    IsBuddy area addr i tmp ↔ ∃ m,
      k = 2 * m ∧ tmp.addr = area.mr.addr + (2 * m + 1) * buddySize i ∨
      k = 2 * m + 1 ∧ tmp.addr = area.mr.addr + 2 * m * buddySize i := by
  have hpos := buddySize_pos (Nat.lt_of_succ_lt hi)
  have hmod : (addr - area.mr.addr) % buddySize (i + 1) = k % 2 * buddySize i := by
    rw [haddr, Nat.add_sub_cancel_left, buddySize_succ hi, Nat.mul_mod_mul_right]
  have hzero : k % 2 * buddySize i = 0 ↔ k % 2 = 0 := by
    rw [Nat.mul_eq_zero]
    omega
  unfold IsBuddy
  rw [hmod, ne_eq, hzero, haddr]
  constructor
  · rintro (⟨heven, hadj⟩ | ⟨hodd, hadj⟩)
    · obtain ⟨m, rfl⟩ : ∃ m, k = 2 * m := ⟨k / 2, by omega⟩
      exact ⟨m, .inl ⟨rfl, by rw [← hadj, Nat.add_mul]; omega⟩⟩
    · obtain ⟨m, rfl⟩ : ∃ m, k = 2 * m + 1 := ⟨k / 2, by omega⟩
      rw [Nat.add_mul] at hadj
      exact ⟨m, .inr ⟨rfl, by omega⟩⟩
  · rintro ⟨m, ⟨rfl, htmp⟩ | ⟨rfl, htmp⟩⟩
    · exact .inl ⟨by omega, by rw [htmp, Nat.add_mul]; omega⟩
    · exact .inr ⟨by omega, by rw [htmp, Nat.add_mul (2 * m)]; omega⟩

theorem dhmpRecycleFreeBlock_merged {res : Bool} {addr' : Nat}
    (h : Buddies area ((addr, buddySize i) :: others)) (hi : i < maxOrder)
    (haddr : addr = area.mr.addr + k * buddySize i) (hm : Merged area held)
    (heq : dhmpRecycleFreeBlock area addr i = (area', addr', res)) : Merged area' held := by
  rcases dhmpRecycleFreeBlock_cases area addr i with
    ⟨list, hput, hperm, hbuddy⟩ | ⟨tmp, list, hmerge, hlast, hperm, hbuddy⟩
  · obtain ⟨rfl, -⟩ := Prod.mk.inj (heq.symm.trans hput)
    refine hm.put hi hperm haddr fun hnext m => ?_
    have hnone : ∀ b ∈ area.blockHead i, ¬ IsBuddy area addr i b :=
      hbuddy.resolve_left (by omega)
    refine ⟨?_, ?_⟩
    · rintro rfl ⟨b, hb, hbaddr⟩
      exact hnone b hb ((isBuddy_iff hnext haddr).mpr ⟨m, .inl ⟨rfl, hbaddr⟩⟩)
    · rintro rfl ⟨b, hb, hbaddr⟩
      exact hnone b hb ((isBuddy_iff hnext haddr).mpr ⟨m, .inr ⟨rfl, hbaddr⟩⟩)
  · obtain ⟨rfl, -⟩ := Prod.mk.inj (heq.symm.trans hmerge)
    have hnext : i + 1 < maxOrder := by omega
    have hsub : list ⊆ area.blockHead i := fun b hb => hperm.mem_iff.mpr (by simp [hb])
    refine hm.drop hsub fun hheld h0 => ?_
    subst h0
    -- the buddy of a block that is out is not one of the two
    have hout := h.not_free hi haddr
    obtain ⟨hfirst, hsecond⟩ := hm.pair hheld
    have hk0 : k ≠ 0 := by
      rintro rfl
      exact hout hfirst
    have hk1 : k ≠ 1 := by
      rintro rfl
      exact hout hsecond
    have hother : ∀ l < 2, tmp.addr ≠ area.mr.addr + l * buddySize 0 := by
      intro l hl heq
      obtain ⟨m, ⟨rfl, htmp⟩ | ⟨rfl, htmp⟩⟩ := (isBuddy_iff hnext haddr).mp hbuddy
      all_goals
        have := index_injective hi (heq.symm.trans htmp)
        omega
    have hstay : ∀ l < 2, area.Free 0 l → (area.setHead 0 list).Free 0 l := by
      rintro l hl ⟨b, hb, hbaddr⟩
      rcases List.mem_cons.mp (hperm.mem_iff.mp hb) with rfl | hb
      · exact absurd hbaddr (hother l hl)
      · exact ⟨b, by rwa [Area.setHead_self], hbaddr⟩
    exact ⟨hstay 0 (by omega) hfirst, hstay 1 (by omega) hsecond⟩

theorem recycleLoop_merged {rounds : Nat} (h : Buddies area ((addr, buddySize i) :: others))
    (hi : i < maxOrder) (hp : Placed area.mr.addr (addr, buddySize i) i) (hm : Merged area held)
    (heq : recycleLoop rounds area addr i = some area') : Merged area' held := by
  induction rounds generalizing area addr i with
  | zero => simp [recycleLoop] at heq
  | succ rounds ih =>
    obtain ⟨k, hk⟩ := hp.2
    rw [recycleLoop] at heq
    rcases dhmpRecycleFreeBlock_spec h hi hp with
      ⟨area'', hput, -, -, -⟩ | ⟨area'', addr', hmerge, hnext, hb, hplaced, hmr⟩
    · have hm' := dhmpRecycleFreeBlock_merged h hi hk hm hput
      simp only [hput, Bool.false_eq_true, false_and, if_false, Option.some.injEq] at heq
      exact heq ▸ hm'
    · have hm' := dhmpRecycleFreeBlock_merged h hi hk hm hmerge
      have hlast : i ≠ maxOrder - 1 := by omega
      simp only [hmerge, hlast, ne_eq, not_false_eq_true, and_self, if_true] at heq
      exact ih hb hnext (hmr ▸ hplaced) hm' heq

/-- Freeing keeps the lists merged, and the two blocks apart if they were. -/
theorem freeInArea_merged (mr : IbvMr) (h : Buddies area ((mr.addr, mr.length) :: others))
    (hm : Merged area held) (heq : freeInArea area mr = some area') : Merged area' held := by
  obtain ⟨index, hindex, hp⟩ := h.out _ (List.mem_cons_self ..)
  have hlen : mr.length = buddySize index := hp.1
  have hfind := find_buddySize hindex hlen
  rw [hlen] at h hp
  unfold freeInArea at heq
  cases hloop : recycleLoop maxOrder area mr.addr index with
  | none => simp [hfind, hloop] at heq
  | some area'' =>
    have hm'' := recycleLoop_merged h hindex hp hm hloop
    simp only [hfind, hloop, Option.bind_eq_bind, Option.bind_some, Option.pure_def,
      Option.some.injEq] at heq
    rw [← heq]
    split_ifs
    · exact hm''
    · exact ⟨hm''.halves, hm''.pair⟩

/-! ## The free lists are determined -/

/-- The free blocks, without the two that are held. -/
def Area.freeBlocks (area : Area) (held : Prop) : Set DyadicBlock :=
  {b | b.order < maxOrder ∧ area.Free b.order b.index ∧ ¬ (held ∧ b.order = 0 ∧ b.index < 2)}

theorem buddySize_eq (hi : i < maxOrder) : buddySize i = 65536 * 2 ^ i := by
  have : ∀ i < 5, buddySize i = 65536 * 2 ^ i := by decide
  exact this i hi

/-- A block has a unit if it has the first byte of it. -/
theorem inBlock_iff {base y : Nat} (hi : i < maxOrder) :
    InBlock (base + k * buddySize i, buddySize i) (base + y * 65536) ↔ y / 2 ^ i = k := by
  have hpos := Nat.two_pow_pos i
  rw [InBlock, buddySize_eq hi, Nat.div_eq_iff hpos]
  dsimp only
  have hk : k * (65536 * 2 ^ i) = 65536 * (k * 2 ^ i) := by grind
  rw [hk]
  omega

/-- The free block that has a unit. -/
theorem exists_free_iff (h : Buddies area others) (y : Nat) :
    (∃ i < maxOrder, area.Free i (y / 2 ^ i)) ↔
      0 < cover area.freeSpans (area.mr.addr + y * 65536) := by
  constructor
  · rintro ⟨i, hi, b, hb, haddr⟩
    have hspan : b.span = (area.mr.addr + y / 2 ^ i * buddySize i, buddySize i) :=
      Prod.ext haddr (h.free i hi b hb).2.1
    refine cover_pos (List.mem_flatMap.mpr ⟨i, List.mem_range.mpr hi, List.mem_map_of_mem hb⟩) ?_
    rw [hspan]
    exact (inBlock_iff hi).mpr rfl
  · intro hpos
    obtain ⟨c, hc, hin⟩ := List.countP_pos_iff.mp hpos
    obtain ⟨i, hi, b, hb, rfl⟩ : ∃ i < maxOrder, ∃ b ∈ area.blockHead i, b.span = c := by
      simpa [Area.freeSpans] using hc
    obtain ⟨-, hsize, k, haddr⟩ := h.free i hi b hb
    have hspan : b.span = (area.mr.addr + k * buddySize i, buddySize i) := Prod.ext haddr hsize
    rw [hspan, decide_eq_true_eq] at hin
    exact ⟨i, hi, b, hb, by rw [(inBlock_iff hi).mp hin]; exact haddr⟩

/-- A unit is in one free block only. -/
theorem free_order_unique (h : Buddies area others) (hi : i < maxOrder) (hj : j < maxOrder)
    {y : Nat} (hfi : area.Free i (y / 2 ^ i)) (hfj : area.Free j (y / 2 ^ j)) : i = j := by
  obtain ⟨b, hb, hbaddr⟩ := hfi
  obtain ⟨c, hc, hcaddr⟩ := hfj
  have hbspan : b.span = (area.mr.addr + y / 2 ^ i * buddySize i, buddySize i) :=
    Prod.ext hbaddr (h.free i hi b hb).2.1
  have hcspan : c.span = (area.mr.addr + y / 2 ^ j * buddySize j, buddySize j) :=
    Prod.ext hcaddr (h.free j hj c hc).2.1
  have hbin : InBlock b.span (area.mr.addr + y * 65536) := hbspan ▸ (inBlock_iff hi).mpr rfl
  have hcin : InBlock c.span (area.mr.addr + y * 65536) := hcspan ▸ (inBlock_iff hj).mpr rfl
  by_cases hsame : b.span = c.span
  · rw [hbspan, hcspan] at hsame
    exact buddySize_injective hi hj (Prod.ext_iff.mp hsame).2
  · have hpair := h.tiles.pairwise_apart fun _ => h.pos
    have hapart := hpair.forall
      (List.mem_append_left _ (List.mem_flatMap.mpr
        ⟨i, List.mem_range.mpr hi, List.mem_map_of_mem hb⟩))
      (List.mem_append_left _ (List.mem_flatMap.mpr
        ⟨j, List.mem_range.mpr hj, List.mem_map_of_mem hc⟩)) hsame
    unfold Apart at hapart
    omega

theorem reduced_freeBlocks (h : Buddies area others) (hm : Merged area held) :
    Reduced maxOrder (area.freeBlocks held) := by
  refine ⟨fun b hb => hb.1, fun i k hi hl hr => ?_, ?_⟩
  · obtain ⟨hheld, rfl, rfl⟩ := hm.halves i k hi hl.2.1 hr.2.1
    exact hl.2.2 ⟨hheld, rfl, by decide⟩
  · rintro ⟨i, k⟩ ⟨hi, hb, -⟩ ⟨j, l⟩ ⟨hj, hc, -⟩ y hy hy'
    obtain rfl : y / 2 ^ i = k := hy
    obtain rfl : y / 2 ^ j = l := hy'
    obtain rfl := free_order_unique h hi hj hb hc
    rfl

/-- The two blocks that are held have the first two units. -/
theorem freeBlocks_covers (h : Buddies area others) (hm : Merged area held) (y : Nat) :
    (∃ b ∈ area.freeBlocks held, b.Has y) ↔
      0 < cover area.freeSpans (area.mr.addr + y * 65536) ∧ ¬ (held ∧ y < 2) := by
  rw [← exists_free_iff h]
  constructor
  · rintro ⟨⟨i, k⟩, ⟨hi, hfree, hnot⟩, hy⟩
    obtain rfl : y / 2 ^ i = k := hy
    refine ⟨⟨i, hi, hfree⟩, fun ⟨hheld, hy⟩ => ?_⟩
    have hpair : area.Free 0 (y / 2 ^ 0) := by
      obtain rfl | rfl : y = 0 ∨ y = 1 := by omega
      · exact (hm.pair hheld).1
      · exact (hm.pair hheld).2
    obtain rfl := free_order_unique h hi (by decide) hfree hpair
    exact hnot ⟨hheld, rfl, by simpa using hy⟩
  · rintro ⟨⟨i, hi, hfree⟩, hnot⟩
    refine ⟨⟨i, y / 2 ^ i⟩, ⟨hi, hfree, fun ⟨hheld, h0, hlt⟩ => hnot ⟨hheld, ?_⟩⟩, rfl⟩
    subst h0
    simpa using hlt

/-- Areas with the same blocks out have the same free blocks. -/
theorem Merged.free_iff (h : Buddies area others) (h' : Buddies area' others)
    (hm : Merged area held) (hm' : Merged area' held) (hmr : area'.mr = area.mr)
    (hi : i < maxOrder) : area.Free i k ↔ area'.Free i k := by
  have heq : area.freeBlocks held = area'.freeBlocks held := by
    refine (reduced_freeBlocks h hm).unique (reduced_freeBlocks h' hm') fun y => ?_
    rw [freeBlocks_covers h hm, freeBlocks_covers h' hm', hmr]
    -- what is not out is free
    have ht := h.tiles (area.mr.addr + y * 65536)
    have ht' := h'.tiles (area.mr.addr + y * 65536)
    rw [cover_append] at ht ht'
    rw [hmr, ← ht] at ht'
    have hsame := Nat.add_right_cancel ht'
    rw [hsame]
  by_cases hheld : held ∧ i = 0 ∧ k < 2
  · obtain ⟨hheld, rfl, hk⟩ := hheld
    obtain ⟨hfirst, hsecond⟩ := hm.pair hheld
    obtain ⟨hfirst', hsecond'⟩ := hm'.pair hheld
    obtain rfl | rfl : k = 0 ∨ k = 1 := by omega
    · exact iff_of_true hfirst hfirst'
    · exact iff_of_true hsecond hsecond'
  · have hmem := Set.ext_iff.mp heq ⟨i, k⟩
    exact ⟨fun hf => (hmem.mp ⟨hi, hf, hheld⟩).2.1, fun hf => (hmem.mpr ⟨hi, hf, hheld⟩).2.1⟩

theorem mem_span_iff (h : Buddies area others) (hi : i < maxOrder) {b : Nat × Nat} :
    b ∈ (area.blockHead i).map FreeBlock.span ↔
      ∃ k, area.Free i k ∧ b = (area.mr.addr + k * buddySize i, buddySize i) := by
  constructor
  · intro hb
    obtain ⟨c, hc, rfl⟩ := List.mem_map.mp hb
    obtain ⟨-, hsize, k, haddr⟩ := h.free i hi c hc
    exact ⟨k, ⟨c, hc, haddr⟩, Prod.ext haddr hsize⟩
  · rintro ⟨k, ⟨c, hc, haddr⟩, rfl⟩
    exact List.mem_map.mpr ⟨c, hc, Prod.ext haddr (h.free i hi c hc).2.1⟩

end free

theorem lastOrder_congr {area area' : Area} {n : Nat}
    (h : ∀ i < n, area.blockHead i = [] ↔ area'.blockHead i = []) :
    lastOrder area n = lastOrder area' n := by
  induction n with
  | zero => rfl
  | succ n ih =>
    have hn := h n (Nat.lt_succ_self n)
    simp only [lastOrder, List.isEmpty_iff, hn, ih fun i hi => h i (Nat.lt_succ_of_lt hi)]

/-! ## Every run -/

/-- The blocks of the list are freed. -/
def freeAll (area : Area) (l : List (Nat × Nat)) : Option Area :=
  l.foldlM (fun area b => freeInArea area ⟨b.1, b.2, area.mr.lkey⟩) area

theorem freeAll_spec {area : Area} {l rest : List (Nat × Nat)} {held : Prop}
    (h : Buddies area (l ++ rest)) (hx : area.Indexed) (hm : Merged area held) :
    ∃ area', freeAll area l = some area' ∧ Buddies area' rest ∧ area'.Indexed ∧
      Merged area' held ∧ area'.mr = area.mr := by
  induction l generalizing area with
  | nil => exact ⟨area, rfl, h, hx, hm, rfl⟩
  | cons b l ih =>
    obtain ⟨area₁, heq, hb, hx₁, hmr⟩ :=
      freeInArea_spec ⟨b.1, b.2, area.mr.lkey⟩ h
    have hm₁ := freeInArea_merged ⟨b.1, b.2, area.mr.lkey⟩ h hm heq
    obtain ⟨area', heq', hrest⟩ := ih hb hx₁ hm₁
    refine ⟨area', ?_, hrest.1, hrest.2.1, hrest.2.2.1, hrest.2.2.2.trans hmr⟩
    rw [freeAll, List.foldlM_cons, heq]
    exact heq'

theorem merged_built (area : Area) : Merged area.built True := by
  obtain ⟨hzero, hpos⟩ := dhmpBuddySystemBuild_blockHead { area with maxIndex := maxOrder - 1 }
  refine ⟨fun i k hi hl hr => ?_, fun _ => ⟨?_, ?_⟩⟩
  · obtain ⟨b, hb, hbaddr⟩ := hl
    obtain ⟨c, hc, hcaddr⟩ := hr
    have hi' : i < maxOrder := Nat.lt_of_succ_lt hi
    rcases Nat.eq_zero_or_pos i with rfl | h0
    · refine ⟨trivial, rfl, ?_⟩
      rw [Area.built, hzero] at hc
      have hsize : buddySize 0 = 65536 := rfl
      rcases List.mem_pair.mp hc with rfl | rfl
      all_goals
        simp only [Area.built, dhmpBuddySystemBuild, hsize] at hcaddr
        omega
    · rw [Area.built, hpos i hi' h0, List.mem_singleton] at hb hc
      subst hb hc
      have := index_injective hi' (hbaddr.symm.trans hcaddr)
      omega
  · exact ⟨⟨area.mr.addr + 0, buddySize 0, area.mr⟩, by rw [Area.built, hzero]; simp,
      by simp [Area.built, dhmpBuddySystemBuild]⟩
  · exact ⟨⟨area.mr.addr + buddySize 0, buddySize 0, area.mr⟩, by rw [Area.built, hzero]; simp,
      by simp [Area.built, dhmpBuddySystemBuild]⟩

/-- What is free and what is out tile the area, and what is free is merged. -/
structure AreaInv (area : Area) (out : List (Nat × Nat)) : Prop where
  buddies : Buddies area out
  indexed : area.Indexed
  merged : ∃ held, Merged area held

theorem AreaInv.get {area area' : Area} {out : List (Nat × Nat)} {index : Nat}
    {r : Option FreeBlock} (h : AreaInv area out)
    (heq : dhmpGetFreeBlock maxOrder area index = some (area', r)) :
    AreaInv area' ((r.map FreeBlock.span).toList ++ out) := by
  obtain ⟨held, hm⟩ := h.merged
  have hmerged : ∃ held, Merged area' held := by
    refine dhmpGetFreeBlock_merged heq (fun j b rest _ _ hhead => hm.take ?_) fun _ => ⟨held, hm⟩
    rw [hhead]
    exact List.subset_cons_self b rest
  by_cases hmax : firstOrder area index = maxOrder
  · have hnone : dhmpGetFreeBlock maxOrder area index = some (area, none) := by
      simp [dhmpGetFreeBlock, hmax]
    obtain ⟨rfl, rfl⟩ := Prod.mk.inj (Option.some.inj (heq.symm.trans hnone))
    exact h
  · obtain ⟨hle, hlt, hne⟩ := firstOrder_mem hmax
    obtain ⟨area'', blk, heq', hb, hx, -⟩ := dhmpGetFreeBlock_spec h.buddies h.indexed.capped
      (Nat.lt_of_le_of_lt hle hlt) ⟨_, hlt, hle, Nat.lt_of_lt_of_le hlt (Nat.le_add_left _ _), hne⟩
    obtain ⟨rfl, rfl⟩ := Prod.mk.inj (Option.some.inj (heq.symm.trans heq'))
    exact ⟨hb, hx, hmerged⟩

theorem AreaInv.free {area area' : Area} {out : List (Nat × Nat)} {b : Nat × Nat}
    (h : AreaInv area out) (hb : b ∈ out)
    (heq : freeInArea area ⟨b.1, b.2, area.mr.lkey⟩ = some area') :
    AreaInv area' (out.erase b) := by
  obtain ⟨held, hm⟩ := h.merged
  have hout := h.buddies.perm (List.perm_cons_erase hb)
  obtain ⟨area'', heq', hb', hx, -⟩ := freeInArea_spec ⟨b.1, b.2, area.mr.lkey⟩ hout
  obtain rfl := Option.some.inj (heq.symm.trans heq')
  exact ⟨hb', hx, held, freeInArea_merged ⟨b.1, b.2, area.mr.lkey⟩ hout hm heq⟩

theorem areaInv_run {area s : Area} (hlen : area.mr.length = singleAreaSize) {ops : List AreaOp}
    {out : List (Nat × Nat)} (run : Run AreaStep (area.built, []) ops (s, out)) :
    AreaInv s out := by
  refine run.invariant (fun st => AreaInv st.1 st.2) (fun st op st' h hs => ?_) ?_
  · cases hs with
    | get heq => exact h.get heq
    | free hb heq => exact h.free hb heq
  · obtain ⟨hb, hx⟩ : Buddies area.built [] ∧ area.built.Indexed :=
      dhmpBuddySystemBuild_spec hlen rfl
    exact ⟨hb, hx, True, merged_built area⟩

/-- In every state of an area, blocks that are out can be freed in any order: the free lists hold
the same blocks afterwards, and `max_index` is the same. -/
theorem free_any_order {area s : Area} (hlen : area.mr.length = singleAreaSize)
    {ops : List AreaOp} {out : List (Nat × Nat)}
    (run : Run AreaStep (area.built, []) ops (s, out)) {l l' : List (Nat × Nat)}
    (nodup : l.Nodup) (hsub : l ⊆ out) (hperm : l.Perm l') :
    ∃ t t', freeAll s l = some t ∧ freeAll s l' = some t' ∧
      (∀ i < maxOrder, ∀ b, b ∈ (t.blockHead i).map FreeBlock.span ↔
        b ∈ (t'.blockHead i).map FreeBlock.span) ∧
      t.maxIndex = t'.maxIndex := by
  obtain ⟨hb, hx, held, hm⟩ := areaInv_run hlen run
  obtain ⟨k, hk, hsublist⟩ := List.subperm_of_subset nodup hsub
  obtain ⟨rest, hrest⟩ := hsublist.exists_perm_append
  have hrest := hrest.trans (hk.append_right rest)
  obtain ⟨t, heq, ht, hxt, hmt, hmr⟩ := freeAll_spec (hb.perm hrest) hx hm
  obtain ⟨t', heq', ht', hxt', hmt', hmr'⟩ :=
    freeAll_spec (hb.perm (hrest.trans (hperm.append_right rest))) hx hm
  have hsame : ∀ i < maxOrder, ∀ b, b ∈ (t.blockHead i).map FreeBlock.span ↔
      b ∈ (t'.blockHead i).map FreeBlock.span := by
    intro i hi b
    rw [mem_span_iff ht hi, mem_span_iff ht' hi, hmr, hmr']
    refine exists_congr fun k => and_congr_left fun _ => ?_
    exact hmt.free_iff ht ht' hmt' (hmr'.trans hmr.symm) hi
  refine ⟨t, t', heq, heq', hsame, ?_⟩
  rw [hxt, hxt']
  refine lastOrder_congr fun i hi => ?_
  rw [← List.map_eq_nil_iff (f := FreeBlock.span), ← List.map_eq_nil_iff (f := FreeBlock.span),
    List.eq_nil_iff_forall_not_mem, List.eq_nil_iff_forall_not_mem]
  exact forall_congr' fun b => not_congr (hsame i hi b)

theorem free_any_order_pair : ∃ s t t',
    Run AreaStep (exampleArea.built, []) [.get 0, .get 0] (s, [(65536, 65536), (0, 65536)]) ∧
    freeAll s [(0, 65536), (65536, 65536)] = some t ∧
    freeAll s [(65536, 65536), (0, 65536)] = some t' ∧ t.maxIndex = t'.maxIndex := by
  have run : Run AreaStep (exampleArea.built, []) [.get 0, .get 0] _ :=
    .cons (.get rfl) (.single (.get rfl))
  obtain ⟨t, t', heq, heq', -, hindex⟩ := free_any_order rfl run
    (by decide : [(0, 65536), (65536, 65536)].Nodup) (by decide) (.swap _ _ _)
  exact ⟨_, t, t', run, heq, heq', hindex⟩

end DhmpFs
