import DhmpFs.Fs.NaiveContent

/-!
# `dhmp_fs_write` and `dhmp_fs_read` on a list of chunks

The specifications of the two operations at an offset within the file. A write can fail only for
lack of chunks; a read returns what lies between its offset and the end.

## Main definitions

* `capacity`: the chunks a file has or can get.
-/

namespace DhmpFs.Naive

section

variable {n n' : State} {f : InodeId} {a : Content} {size : Nat}

/-! ## The chunks left -/

def freeChunks (n : State) : Finset Nat := {c ∈ Finset.range chunkNum | n.bitmap c = false}

/-- The chunks that `f` has or can get. -/
def capacity (n : State) (f : InodeId) : Nat :=
  (freeChunks n).card + (n.inodes f).context.length

theorem capacity_append (h : append n f = some n') : capacity n' f = capacity n f := by
  obtain ⟨i, hlt, hfree, rfl⟩ := append_some h
  have hmem : i ∈ freeChunks n := Finset.mem_filter.mpr ⟨Finset.mem_range.mpr hlt, hfree⟩
  have herase : freeChunks (State.modify { n with bitmap := Function.update n.bitmap i true } f
      fun x => { x with context := x.context ++ [⟨i, 0⟩] }) = (freeChunks n).erase i := by
    ext c
    rw [Finset.mem_erase, freeChunks, Finset.mem_filter, freeChunks, Finset.mem_filter]
    by_cases hc : c = i
    · simp [hc, State.modify]
    · simp [hc, State.modify]
  have hpos := Finset.card_pos.mpr ⟨i, hmem⟩
  rw [capacity, herase, Finset.card_erase_of_mem hmem, capacity]
  simp only [State.modify, Function.update_self, List.length_append, List.length_singleton]
  omega

/-- No chunk is free. -/
theorem capacity_of_append_none (h : append n f = none) :
    capacity n f = (n.inodes f).context.length := by
  have hfull : firstFree n.bitmap chunkNum 0 = chunkNum := by
    by_contra hne
    simp [append, getFreeChunk, hne] at h
  obtain ⟨-, -, -, hused⟩ := firstFree_spec n.bitmap chunkNum 0
  have hempty : freeChunks n = ∅ := by
    refine Finset.filter_eq_empty_iff.mpr fun c hc => ?_
    rw [hused c (Nat.zero_le c) (by rw [hfull]; exact Finset.mem_range.mp hc)]
    exact Bool.noConfusion
  rw [capacity, hempty, Finset.card_empty, Nat.zero_add]

/-- Placing bytes adds no chunk and takes none. -/
theorem placed_capacity (n : State) (f : InodeId) (cnt newSize c offset : Nat) (x : Context)
    (bytes : List UInt8) :
    ((resize (writeToBank n c bytes offset) f cnt x newSize).inodes f).context.length =
        (n.inodes f).context.length ∧
      capacity (resize (writeToBank n c bytes offset) f cnt x newSize) f = capacity n f := by
  have hfree : freeChunks (resize (writeToBank n c bytes offset) f cnt x newSize) =
      freeChunks n := rfl
  have hlen : ((resize (writeToBank n c bytes offset) f cnt x newSize).inodes f).context.length =
      (n.inodes f).context.length := by simp
  exact ⟨hlen, by rw [capacity, hfree, hlen, capacity]⟩

/-- Skipping keeps the capacity, and fails only for lack of it. -/
theorem skipWrite_capacity {i cnt writeOffset : Nat} :
    (∀ n' cnt', skipWrite n f writeOffset i cnt = some (n', cnt') →
        capacity n' f = capacity n f) ∧
      (skipWrite n f writeOffset i cnt = none → capacity n f ≤ cnt + i) := by
  induction i generalizing cnt with
  | zero => exact ⟨fun _ _ h => by rw [(Prod.mk.inj (Option.some.inj h)).1], by simp [skipWrite]⟩
  | succ i ih =>
    rw [skipWrite]
    cases hx : (n.inodes f).context[cnt]? with
    | none => exact ⟨fun _ _ h => by rw [(Prod.mk.inj (Option.some.inj h)).1], by simp⟩
    | some x =>
      dsimp only
      split
      · exact ⟨fun _ _ h => by rw [(Prod.mk.inj (Option.some.inj h)).1], by simp⟩
      split
      · next hlast =>
        obtain ⟨rfl, -, hnone⟩ := hlast
        refine ⟨fun n' cnt' h => ?_, fun h => ?_⟩
        · obtain ⟨n₁, happ, heq⟩ := Option.map_eq_some_iff.mp h
          rw [← (Prod.mk.inj heq).1, capacity_append happ]
        · rw [capacity_of_append_none (Option.map_eq_none_iff.mp h)]
          exact List.getElem?_eq_none_iff.mp hnone
      · have hsum : cnt + 1 + i = cnt + (i + 1) := by omega
        rw [← hsum]
        exact ih

/-- Writing keeps the capacity, and fails only for lack of it. -/
theorem writeLoop_capacity {rounds cnt writeOffset : Nat} {rest : List UInt8}
    (hwo : writeOffset < chunkSize) (hcnt : rest ≠ [] → cnt < (n.inodes f).context.length) :
    (∀ n', writeLoop rounds n f rest cnt writeOffset = some n' → capacity n' f = capacity n f) ∧
      (writeLoop rounds n f rest cnt writeOffset = none →
        capacity n f * chunkSize < cnt * chunkSize + writeOffset + rest.length) := by
  induction rounds generalizing n rest cnt writeOffset with
  | zero => exact ⟨fun _ h => by rw [Option.some.inj h], by simp [writeLoop]⟩
  | succ rounds ih =>
    by_cases hne : rest = []
    · rw [writeLoop, if_pos hne]
      exact ⟨fun _ h => by rw [Option.some.inj h], by simp⟩
    obtain ⟨x, hx⟩ : ∃ x, (n.inodes f).context[cnt]? = some x :=
      ⟨_, List.getElem?_eq_getElem (hcnt hne)⟩
    have hlt := hcnt hne
    have hsub : subU64 chunkSize writeOffset = chunkSize - writeOffset :=
      subU64_eq (by decide) (Nat.le_of_lt hwo)
    rw [writeLoop, if_neg hne, hx]
    simp only [hsub]
    by_cases hfill : chunkSize - writeOffset ≤ rest.length
    · rw [if_pos hfill]
      have hend : (cnt + 1) * chunkSize + 0 + (rest.drop (chunkSize - writeOffset)).length =
          cnt * chunkSize + writeOffset + rest.length := by
        rw [List.length_drop, Nat.add_zero ((cnt + 1) * chunkSize), Nat.succ_mul]
        omega
      obtain ⟨hlen, hcap⟩ := placed_capacity n f cnt chunkSize x.chunkIndex writeOffset x
        (rest.take (chunkSize - writeOffset))
      generalize resize (writeToBank n x.chunkIndex (rest.take (chunkSize - writeOffset))
        writeOffset) f cnt x chunkSize = n₁ at hlen hcap
      split
      · next hnext =>
        have hlast := List.getElem?_eq_none_iff.mp hnext.1
        have hpos := List.length_pos_iff.mpr hnext.2
        cases happ : append n₁ f with
        | none =>
          refine ⟨by simp, fun _ => ?_⟩
          rw [← hcap, capacity_of_append_none happ]
          have := Nat.mul_le_mul_right chunkSize hlast
          omega
        | some n₂ =>
          have hgrow := append_length happ
          rw [← hcap, ← capacity_append happ, ← hend]
          exact ih chunkSize_pos fun _ => by omega
      · next hnext =>
        rw [← hcap, ← hend]
        refine ih chunkSize_pos fun hdrop => ?_
        by_contra hge
        exact hnext ⟨List.getElem?_eq_none (Nat.not_lt.mp hge), hdrop⟩
    · rw [if_neg hfill]
      split
      · exact ⟨fun _ h => by rw [← Option.some.inj h, (placed_capacity ..).2], by simp⟩
      · exact ⟨fun _ h => by rw [← Option.some.inj h]; rfl, by simp⟩

/-! ## The operations -/

/-- The number of chunks to skip fits an `int`. -/
theorem toNat_toInt_div {offset : Nat} (h : offset ≤ sizeThirdDirectEnd) :
    (toInt (offset / chunkSize)).toNat = offset / chunkSize := by
  have hlt : offset / chunkSize < 2 ^ 31 := by
    refine Nat.div_lt_of_lt_mul (h.trans_lt ?_)
    decide
  rw [toInt_eq hlt]
  rfl

theorem Carries.firstChunk (h : Carries n f a size) (hopen : firstChunk n f = some n') :
    Carries n' f a size ∧ 0 < (n'.inodes f).context.length := by
  unfold Naive.firstChunk at hopen
  split at hopen
  · next hempty =>
    have hzero : (n.inodes f).context.length * chunkSize ≤ size := by simp [hempty]
    exact ⟨h.append hzero hopen, by rw [append_length hopen]; exact Nat.succ_pos _⟩
  · next hne =>
    obtain rfl := Option.some.inj hopen
    exact ⟨h, List.length_pos_iff.mpr hne⟩

theorem firstChunk_capacity :
    (∀ n', firstChunk n f = some n' → capacity n' f = capacity n f) ∧
      (firstChunk n f = none → capacity n f = 0) := by
  unfold firstChunk
  split
  · next hempty =>
    refine ⟨fun _ h => capacity_append h, fun h => ?_⟩
    rw [capacity_of_append_none h, hempty, List.length_nil]
  · exact ⟨fun _ h => by rw [Option.some.inj h], by simp⟩

/-- A write that returns has written the whole buffer. -/
theorem Carries.dhmpFsWrite (h : Carries n f a size) {buf : List UInt8} {offset : Nat}
    (hle : offset ≤ size) (hmax : max size (offset + buf.length) ≤ sizeThirdDirectEnd) {r : Int}
    (hw : dhmpFsWrite n (some f) buf offset = some (n', r)) :
    r = toInt buf.length ∧ Carries n' f (patch a offset buf) (sizeAfter size offset buf.length) ∧
      (n'.inodes f).context ≠ [] ∧ capacity n' f = capacity n f := by
  have hdiv := Nat.div_add_mod' offset chunkSize
  simp only [Naive.dhmpFsWrite, h.regular, Bool.false_eq_true, if_false,
    toNat_toInt_div (hle.trans ((Nat.le_max_left ..).trans hmax))] at hw
  obtain ⟨n₁, hopen, hw⟩ := Option.bind_eq_some_iff.mp hw
  obtain ⟨⟨n₂, cnt⟩, hskip, hw⟩ := Option.bind_eq_some_iff.mp hw
  obtain ⟨h₁, hpos⟩ := h.firstChunk hopen
  obtain ⟨h₂, rfl, hcnt⟩ := h₁.skipWrite hpos (by rwa [Nat.zero_add, hdiv]) hskip
  rw [Nat.zero_add] at hcnt hw
  obtain ⟨n₃, hloop, hw⟩ := Option.bind_eq_some_iff.mp hw
  obtain ⟨rfl, rfl⟩ := Prod.mk.inj (Option.some.inj hw)
  have hbound : sizeThirdDirectEnd < 2 ^ 62 := by decide
  have hmod := Nat.mod_lt offset chunkSize_pos
  obtain ⟨h₃, hlen⟩ := h₂.writeLoop hmod (by rwa [hdiv])
    (by rw [hdiv]; exact hmax.trans_lt hbound) (fun _ => hcnt) (Nat.le_refl _) hloop
  rw [hdiv] at h₃
  refine ⟨rfl, h₃, List.length_pos_iff.mp ((Nat.zero_lt_of_lt hcnt).trans_le hlen), ?_⟩
  rw [(writeLoop_capacity hmod fun _ => hcnt).1 _ hloop, skipWrite_capacity.1 _ _ hskip,
    firstChunk_capacity.1 _ hopen]

/-- A write that starts in the file fails only when the chunks do not reach beyond its end. -/
theorem Carries.dhmpFsWrite_none (h : Carries n f a size) {buf : List UInt8} {offset : Nat}
    (hle : offset ≤ size) (hmax : size ≤ sizeThirdDirectEnd)
    (hw : Naive.dhmpFsWrite n (some f) buf offset = none) :
    capacity n f * chunkSize ≤ offset + buf.length := by
  have hdiv := Nat.div_add_mod' offset chunkSize
  simp only [Naive.dhmpFsWrite, h.regular, Bool.false_eq_true, if_false,
    toNat_toInt_div (hle.trans hmax)] at hw
  cases hopen : Naive.firstChunk n f with
  | none =>
    rw [firstChunk_capacity.2 hopen, Nat.zero_mul]
    exact Nat.zero_le _
  | some n₁ =>
    obtain ⟨h₁, hpos⟩ := h.firstChunk hopen
    rw [← firstChunk_capacity.1 _ hopen]
    simp only [hopen, Option.bind_eq_bind, Option.bind_some] at hw
    cases hskip : Naive.skipWrite n₁ f (offset % chunkSize) (offset / chunkSize) 0 with
    | none =>
      have hcap := Nat.mul_le_mul_right chunkSize (skipWrite_capacity.2 hskip)
      rw [Nat.zero_add] at hcap
      omega
    | some res =>
      obtain ⟨n₂, cnt⟩ := res
      obtain ⟨h₂, rfl, hcnt⟩ := h₁.skipWrite hpos (by rwa [Nat.zero_add, hdiv]) hskip
      rw [Nat.zero_add] at hcnt hskip
      simp only [hskip, Option.bind_some] at hw
      rw [← skipWrite_capacity.1 _ _ hskip]
      cases hloop : Naive.writeLoop buf.length n₂ f buf (offset / chunkSize)
          (offset % chunkSize) with
      | some n₃ => simp [hloop] at hw
      | none =>
        have hcap := (writeLoop_capacity (Nat.mod_lt offset chunkSize_pos) fun _ => hcnt).2 hloop
        omega

/-- A read delivers what lies between the offset and the end, if its buffer has room for the
terminator. A file without a chunk needs no buffer. -/
theorem Carries.dhmpFsRead (h : Carries n f a size) (hfull : ∀ p < size, a p ≠ none)
    (mallocSize : Nat → Nat) {offset : Nat} (k : Nat) (hle : offset ≤ size)
    (hmax : size ≤ sizeThirdDirectEnd) :
    dhmpFsRead mallocSize n (some f) k offset =
      if (n.inodes f).context = [] ∨ min k (size - offset) < mallocSize k then
        some (bytesOf a offset (min k (size - offset)), toInt (min k (size - offset)))
      else none := by
  have hdiv := Nat.div_add_mod' offset chunkSize
  have hmod := Nat.mod_lt offset chunkSize_pos
  simp only [Naive.dhmpFsRead, h.regular, Bool.false_eq_true, if_false,
    toNat_toInt_div (hle.trans hmax)]
  by_cases hempty : (n.inodes f).context = []
  · have hcovers := h.covers
    rw [hempty, List.length_nil, Nat.zero_mul] at hcovers
    have hzero : min k (size - offset) = 0 := by omega
    rw [if_pos hempty, if_pos (.inl hempty), hzero]
    rfl
  · have hskip : skipRead (n.inodes f).context (offset / chunkSize) =
        some ((n.inodes f).context.drop (offset / chunkSize)) := by
      refine skipRead_eq_drop fun j hj => ?_
      have hj' : (j + 1) * chunkSize ≤ offset :=
        (Nat.mul_le_mul_right _ hj).trans (Nat.div_mul_le_self offset chunkSize)
      have hlt : j < (n.inodes f).context.length := by
        refine Nat.lt_of_mul_lt_mul_right (Nat.lt_of_lt_of_le ?_ h.covers)
        exact Nat.lt_of_lt_of_le (Nat.mul_lt_mul_of_pos_right (Nat.lt_succ_self j) chunkSize_pos)
          (hj'.trans hle)
      have hx := List.getElem?_eq_getElem hlt
      exact ⟨_, hx, (h.full_iff hx).mpr (hj'.trans hle)⟩
    have hstart : offset % chunkSize ≤ size - offset / chunkSize * chunkSize := by omega
    have hloop := h.readLoop hfull k rfl hstart hmod
    rw [hdiv] at hloop
    simp only [hskip, hempty, false_or, hloop]
    simp [bytesOf]

end

end DhmpFs.Naive
