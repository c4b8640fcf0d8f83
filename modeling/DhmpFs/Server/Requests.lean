import DhmpFs.Server.Allocator
import Mathlib.Data.List.Nodup

/-!
# Requests keep the allocator sound

A request changes one area, adds one, or takes one off a list.
-/

namespace DhmpFs

open Library

namespace AllocInv

variable {s s' : Server} {out out' : List Allocation} {id : AreaId} {a : Allocation} {k : Nat}
  {area : Area} {reg : Registration} {reqSize length : Nat}

/-! ## One buddy area changes -/

/-- The rule for a request that works in one buddy area. -/
theorem update (h : AllocInv s out) (hid : id ∈ s.areaList) (hmr : area.mr = (s.areas id).mr)
    (hb : Buddies area (spansOf out' area.mr.lkey)) (hx : area.Indexed)
    (hother : ∀ k, k ≠ area.mr.lkey → (outOf out' k).Perm (outOf out k))
    (howned : ∀ a ∈ out', a.reqSize ≤ a.mr.length ∧ (a ∈ out ∨ a.mr.lkey = area.mr.lkey)) :
    AllocInv (s.setArea id area) out' := by
  have hid' : id ∈ s.ids := List.mem_append_left _ hid
  have hmrs : ∀ id', ((s.setArea id area).areas id').mr = (s.areas id').mr := by
    intro id'
    by_cases hi : id' = id
    · subst hi
      simpa [Server.setArea] using hmr
    · simp [Server.setArea, hi]
  have hkey : ∀ id' ∈ s.ids, id' ≠ id → (s.areas id').mr.lkey ≠ area.mr.lkey := by
    intro id' hi hne hk
    exact hne (h.lkey id' hi id hid' (hmr ▸ hk))
  have hperm : ∀ id' ∈ s.ids, id' ≠ id →
      (outOf out' (s.areas id').mr.lkey).Perm (outOf out (s.areas id').mr.lkey) :=
    fun id' hi hne => hother _ (hkey id' hi hne)
  refine ⟨h.nodup, fun id' hi id'' hi' hk => ?_, fun id' hi id'' hi' hne => ?_, fun a ha => ?_,
    fun id' hi => ?_, fun id' hi => ?_, h.cur⟩
  · rw [hmrs, hmrs] at hk
    exact h.lkey id' hi id'' hi' hk
  · rw [hmrs, hmrs]
    exact h.apart id' hi id'' hi' hne
  · obtain ⟨hsize, hold | hk⟩ := howned a ha
    · obtain ⟨-, id', hi, hk⟩ := h.owned a hold
      exact ⟨hsize, id', hi, by rw [hmrs, hk]⟩
    · exact ⟨hsize, id, hid', by rw [hmrs, hk, hmr]⟩
  · by_cases hne : id' = id
    · subst hne
      rw [hmrs, ← hmr]
      simpa [Server.setArea] using And.intro hb hx
    · have harea : (s.setArea id area).areas id' = s.areas id' := by simp [Server.setArea, hne]
      obtain ⟨hbuddies, hindexed⟩ := h.buddies id' hi
      rw [harea]
      exact ⟨hbuddies.perm ((hperm id' (List.mem_append_left _ hi) hne).symm.map _), hindexed⟩
  · have hne : id' ≠ id := by
      rintro rfl
      exact (List.nodup_append'.mp h.nodup).2.2 hid hi
    obtain ⟨hlen, n, hn⟩ := h.whole id' hi
    rw [hmrs]
    refine ⟨hlen, n, ?_⟩
    have := hperm id' (List.mem_append_right _ hi) hne
    rw [hn] at this
    exact List.perm_singleton.mp this

/-- Another current area. -/
theorem setCur (h : AllocInv s out) (hid : id ∈ s.areaList) :
    AllocInv { s with curArea := id } out :=
  ⟨h.nodup, h.lkey, h.apart, h.owned, h.buddies, h.whole, hid⟩

/-! ## An area is added -/

/-- The key of a fresh registration has nothing out. -/
theorem outOf_fresh (h : AllocInv s out) (hf : reg.Fresh s reqSize) : outOf out reg.lkey = [] := by
  rw [List.eq_nil_iff_forall_not_mem]
  intro a ha
  obtain ⟨ha, hk⟩ := mem_outOf.mp ha
  obtain ⟨-, id, hid, hk'⟩ := h.owned a ha
  exact (hf id hid).2.1 (hk'.symm.trans hk)

theorem not_mem_of_fresh (hf : reg.Fresh s reqSize) : reg.area ∉ s.ids :=
  fun hid => (hf _ hid).1 rfl

/-- The rule for a new area at the head of one of the lists. -/
theorem addArea (h : AllocInv s out) (hf : reg.Fresh s reqSize)
    (hmr : area.mr = ⟨reg.addr, areaLength reqSize, reg.lkey⟩) {t : Server}
    (hareas : t.areas = Function.update s.areas reg.area area)
    (hids : t.ids.Perm (reg.area :: s.ids)) (hcur : t.curArea ∈ t.areaList)
    (hother : ∀ k, k ≠ reg.lkey → outOf out' k = outOf out k)
    (howned : ∀ a ∈ out', a.reqSize ≤ a.mr.length ∧ (a ∈ out ∨ a.mr.lkey = reg.lkey))
    (hlist : ∀ id ∈ t.areaList, id ∈ s.areaList ∨ id = reg.area ∧
      Buddies area (spansOf out' reg.lkey) ∧ area.Indexed)
    (hmore : ∀ id ∈ t.moreAreaList, id ∈ s.moreAreaList ∨ id = reg.area ∧
      singleAreaSize ≤ area.mr.length ∧ ∃ n, outOf out' reg.lkey = [⟨area.mr, n⟩]) :
    AllocInv t out' := by
  have hnew := not_mem_of_fresh hf
  have hold : ∀ id ∈ s.ids, t.areas id = s.areas id := by
    intro id hid
    rw [hareas, Function.update_of_ne]
    rintro rfl
    exact hnew hid
  have hself : t.areas reg.area = area := by rw [hareas, Function.update_self]
  have hcases : ∀ id ∈ t.ids, id = reg.area ∨ id ∈ s.ids := fun id hid =>
    List.mem_cons.mp (hids.mem_iff.mp hid)
  have hkey : ∀ id ∈ s.ids, outOf out' (s.areas id).mr.lkey = outOf out (s.areas id).mr.lkey :=
    fun id hid => hother _ (hf id hid).2.1
  refine ⟨?_, ?_, ?_, fun a ha => ?_, fun id hid => ?_, fun id hid => ?_, hcur⟩
  · rw [hids.nodup_iff]
    exact List.nodup_cons.mpr ⟨hnew, h.nodup⟩
  · intro id hid id' hid' hk
    rcases hcases id hid with rfl | hi <;> rcases hcases id' hid' with rfl | hi'
    · rfl
    · rw [hself, hold _ hi', hmr] at hk
      exact absurd hk.symm (hf _ hi').2.1
    · rw [hself, hold _ hi, hmr] at hk
      exact absurd hk (hf _ hi).2.1
    · rw [hold _ hi, hold _ hi'] at hk
      exact h.lkey id hi id' hi' hk
  · intro id hid id' hid' hne
    rcases hcases id hid with rfl | hi <;> rcases hcases id' hid' with rfl | hi'
    · exact absurd rfl hne
    · rw [hself, hold _ hi', hmr]
      exact (hf _ hi').2.2.symm
    · rw [hself, hold _ hi, hmr]
      exact (hf _ hi).2.2
    · rw [hold _ hi, hold _ hi']
      exact h.apart id hi id' hi' hne
  · obtain ⟨hsize, ha | hk⟩ := howned a ha
    · obtain ⟨-, id, hid, hk⟩ := h.owned a ha
      exact ⟨hsize, id, hids.mem_iff.mpr (by simp [hid]), by rw [hold _ hid, hk]⟩
    · exact ⟨hsize, reg.area, hids.mem_iff.mpr (by simp), by rw [hself, hk, hmr]⟩
  · rcases hlist id hid with hi | ⟨rfl, hb, hx⟩
    · have hi' : id ∈ s.ids := List.mem_append_left _ hi
      rw [hold _ hi', spansOf, hkey _ hi']
      exact h.buddies id hi
    · rw [hself]
      exact ⟨by simpa [hmr] using hb, hx⟩
  · rcases hmore id hid with hi | ⟨rfl, hlen, hn⟩
    · have hi' : id ∈ s.ids := List.mem_append_right _ hi
      rw [hold _ hi', hkey _ hi']
      exact h.whole id hi
    · rw [hself]
      exact ⟨hlen, by simpa [hmr] using hn⟩

/-- A new buddy area becomes the current one. -/
theorem createBuddy (h : AllocInv s out) (hf : reg.Fresh s reqSize)
    (hsize : reqSize ≤ singleAreaSize) :
    AllocInv { dhmpAreaCreate s reg true singleAreaSize with curArea := reg.area } out := by
  have hlen : areaLength reqSize = singleAreaSize := if_pos hsize
  have hbuild : Buddies (dhmpBuddySystemBuild { s.areas reg.area with
        maxIndex := maxOrder - 1, mr := ⟨reg.addr, singleAreaSize, reg.lkey⟩ }) [] ∧
      (dhmpBuddySystemBuild { s.areas reg.area with
        maxIndex := maxOrder - 1, mr := ⟨reg.addr, singleAreaSize, reg.lkey⟩ }).Indexed :=
    dhmpBuddySystemBuild_spec rfl rfl
  refine h.addArea hf ?_ rfl (.refl _) List.mem_cons_self (fun _ _ => rfl)
    (fun a ha => ⟨(h.owned a ha).1, .inl ha⟩) (fun id hid => ?_) fun id hid => .inl hid
  · rw [hlen]
    rfl
  · rcases List.mem_cons.mp hid with rfl | hid
    · exact .inr ⟨rfl, by simpa [spansOf, h.outOf_fresh hf] using hbuild.1, hbuild.2⟩
    · exact .inl hid

/-- A new area that is out as a whole. -/
theorem createWhole (h : AllocInv s out) (hf : reg.Fresh s reqSize)
    (hlength : length = areaLength reqSize) :
    AllocInv (dhmpAreaCreate s reg false length)
      (⟨⟨reg.addr, length, reg.lkey⟩, reqSize⟩ :: out) := by
  have hle : reqSize ≤ length ∧ singleAreaSize ≤ length := by
    rw [hlength, areaLength]
    split <;> omega
  refine h.addArea hf ?_ rfl List.perm_middle h.cur (fun k hk => ?_) (fun a ha => ?_)
    (fun id hid => .inl hid) fun id hid => ?_
  · rw [hlength]
  · rw [outOf_cons, if_neg (Ne.symm hk)]
  · rcases List.mem_cons.mp ha with rfl | ha
    · exact ⟨hle.1, .inr rfl⟩
    · exact ⟨(h.owned a ha).1, .inl ha⟩
  · rcases List.mem_cons.mp hid with rfl | hid
    · refine .inr ⟨rfl, hle.2, reqSize, ?_⟩
      rw [outOf_cons, if_pos rfl, h.outOf_fresh hf]
    · exact .inl hid

/-! ## Allocation -/

/-- The order `dhmp_malloc_one_block` looks for. -/
theorem index_spec (hle : reqSize ≤ buddySize (maxOrder - 1)) :
    ∃ index < maxOrder, ((List.range maxOrder).find? fun i => reqSize ≤ buddySize i).getD maxOrder =
      index ∧ reqSize ≤ buddySize index := by
  cases hf : (List.range maxOrder).find? fun i => decide (reqSize ≤ buddySize i) with
  | none =>
    have := List.find?_eq_none.mp hf (maxOrder - 1) (List.mem_range.mpr (by decide))
    exact absurd hle (by simpa using this)
  | some index =>
    exact ⟨index, List.mem_range.mp (List.mem_of_find?_eq_some hf), rfl,
      by simpa using List.find?_some hf⟩

/-- A block of the current area goes out. -/
theorem takeBlock (h : AllocInv s out) {index : Nat} (hindex : index < maxOrder)
    (hmax : index ≤ (s.areas s.curArea).maxIndex) (hle : reqSize ≤ buddySize index) :
    ∃ area blk, dhmpGetFreeBlock maxOrder (s.areas s.curArea) index = some (area, some blk) ∧
      AllocInv (s.setArea s.curArea area)
        (⟨{ blk.mr with addr := blk.addr, length := blk.size }, reqSize⟩ :: out) := by
  obtain ⟨hb, hx⟩ := h.buddies _ h.cur
  obtain ⟨j, hj, hij, hne⟩ := hx.exists_free hmax
  obtain ⟨area, blk, heq, hb', hx', hmr, hblk, hp⟩ := dhmpGetFreeBlock_spec hb hx.capped hindex
    ⟨j, hj, hij, Nat.lt_of_lt_of_le hj (Nat.le_add_left _ _), hne⟩
  have hsize : blk.size = buddySize index := hp.1
  refine ⟨area, blk, heq, h.update h.cur hmr ?_ hx' (fun k hk => ?_) fun a ha => ?_⟩
  · rw [spansOf, outOf_cons, if_pos (by rw [hblk, hmr]), hmr]
    exact hb'
  · rw [outOf_cons, if_neg]
    rw [hblk, ← hmr]
    exact Ne.symm hk
  · rcases List.mem_cons.mp ha with rfl | ha
    · exact ⟨hsize ▸ hle, .inr (by rw [hblk, hmr])⟩
    · exact ⟨(h.owned a ha).1, .inl ha⟩

theorem dhmpMallocOneBlock (h : AllocInv s out) (hf : reg.Fresh s reqSize)
    (hle : reqSize ≤ buddySize (maxOrder - 1)) :
    ∃ s' mr, DhmpFs.dhmpMallocOneBlock s reg reqSize = some (s', some mr) ∧
      AllocInv s' (⟨mr, reqSize⟩ :: out) := by
  obtain ⟨index, hindex, hfind, hreq⟩ := index_spec hle
  unfold DhmpFs.dhmpMallocOneBlock
  rw [hfind]
  have finish : ∀ t, AllocInv t out → (index : Int) ≤ (t.areas t.curArea).maxIndex →
      ∃ s' mr, ((dhmpGetFreeBlock maxOrder (t.areas t.curArea) index).bind fun r =>
        some (t.setArea t.curArea r.1, r.2.map fun blk =>
          ({ blk.mr with addr := blk.addr, length := blk.size } : IbvMr))) = some (s', some mr) ∧
        AllocInv s' (⟨mr, reqSize⟩ :: out) := by
    intro t ht hmax
    obtain ⟨area, blk, heq, hinv⟩ := ht.takeBlock hindex hmax hreq
    exact ⟨_, _, by rw [heq]; rfl, hinv⟩
  by_cases hmax : index ≤ (s.areas s.curArea).maxIndex
  · simp only [hmax, if_true]
    exact finish s h hmax
  simp only [hmax, if_false]
  cases hs : s.areaList.find? fun id => decide (index ≤ (s.areas id).maxIndex) with
  | some id =>
    exact finish _ (h.setCur (List.mem_of_find?_eq_some hs)) (by simpa using List.find?_some hs)
  | none =>
    -- no area has a block: a new one has
    have hsize : reqSize ≤ singleAreaSize := Nat.le_trans hle (by decide)
    refine finish _ (h.createBuddy hf hsize) ?_
    have hnew : ((dhmpAreaCreate s reg true singleAreaSize).areas reg.area).maxIndex =
        maxOrder - 1 := by
      simp [dhmpAreaCreate, Server.setArea, dhmpBuddySystemBuild]
    dsimp only
    omega

/-- Every allocation request is answered with memory. -/
theorem malloc (h : AllocInv s out) (hf : reg.Fresh s reqSize) :
    ∃ s' mr, dhmpMallocRequestHandler s reg reqSize = some (s', some mr) ∧
      AllocInv s' (⟨mr, reqSize⟩ :: out) := by
  unfold dhmpMallocRequestHandler
  by_cases hblock : reqSize ≤ buddySize (maxOrder - 1)
  · rw [if_pos hblock]
    exact h.dhmpMallocOneBlock hf hblock
  rw [if_neg hblock]
  by_cases hone : reqSize ≤ singleAreaSize
  · rw [if_pos hone]
    exact ⟨_, _, rfl, h.createWhole hf (if_pos hone).symm⟩
  · rw [if_neg hone]
    exact ⟨_, _, rfl, h.createWhole hf (if_neg hone).symm⟩

/-! ## Freeing -/

/-- What is out without one allocation. -/
theorem outOf_erase (ha : a ∈ out) (k : Nat) : (outOf out k).Perm
    (if a.mr.lkey = k then a :: outOf (out.erase a) k else outOf (out.erase a) k) := by
  have := outOf_perm (List.perm_cons_erase ha) k
  rwa [outOf_cons] at this

theorem outOf_erase_ne (ha : a ∈ out) (hk : a.mr.lkey ≠ k) :
    (outOf (out.erase a) k).Perm (outOf out k) := by
  have := outOf_erase ha k
  rw [if_neg hk] at this
  exact this.symm

theorem dhmpFreeOneBlock (h : AllocInv s out) (ha : a ∈ out) (hid : id ∈ s.areaList)
    (hk : a.mr.lkey = (s.areas id).mr.lkey) :
    ∃ s', DhmpFs.dhmpFreeOneBlock s a.mr = some s' ∧ AllocInv s' (out.erase a) := by
  have hfind := h.findArea (List.subset_append_left _ _) hid hk
  have hout : (spansOf out (s.areas id).mr.lkey).Perm
      (a.mr.span :: spansOf (out.erase a) (s.areas id).mr.lkey) := by
    have := outOf_erase ha (s.areas id).mr.lkey
    rw [if_pos hk] at this
    exact this.map _
  obtain ⟨hb, -⟩ := h.buddies id hid
  obtain ⟨area, heq, hb', hx, hmr⟩ := freeInArea_spec _ (hb.perm hout)
  refine ⟨s.setArea id area, by simp [DhmpFs.dhmpFreeOneBlock, hfind, heq],
    h.update hid hmr (hmr ▸ hb') hx (fun k' hk' => ?_) fun b hb => ?_⟩
  · exact outOf_erase_ne ha (by rw [hk, ← hmr]; exact Ne.symm hk')
  · have hb := List.mem_of_mem_erase hb
    exact ⟨(h.owned b hb).1, .inl hb⟩

theorem ids_erase_sublist (s : Server) (id : AreaId) :
    (s.areaList ++ s.moreAreaList.erase id).Sublist s.ids :=
  (List.Sublist.refl _).append List.erase_sublist

/-- An area that leaves the second list is in neither. -/
theorem notMem_erase (h : AllocInv s out) (hid : id ∈ s.moreAreaList) :
    id ∉ s.areaList ++ s.moreAreaList.erase id := by
  intro hi
  have hsplit : s.ids.Perm (id :: (s.areaList ++ s.moreAreaList.erase id)) :=
    ((List.perm_cons_erase hid).append_left _).trans List.perm_middle
  exact (List.nodup_cons.mp (hsplit.nodup_iff.mp h.nodup)).1 hi

/-- An area that was out as a whole is given back. -/
theorem dropWhole (h : AllocInv s out) (ha : a ∈ out) (hid : id ∈ s.moreAreaList)
    (hout : outOf out (s.areas id).mr.lkey = [a]) :
    AllocInv { s with moreAreaList := s.moreAreaList.erase id } (out.erase a) := by
  have hk : a.mr.lkey = (s.areas id).mr.lkey := by
    have : a ∈ outOf out (s.areas id).mr.lkey := by simp [hout]
    exact (mem_outOf.mp this).2
  have hid' : id ∈ s.ids := List.mem_append_right _ hid
  have hsub := ids_erase_sublist s id
  have hnot := h.notMem_erase hid
  have hne : ∀ id' ∈ s.ids, id' ≠ id → a.mr.lkey ≠ (s.areas id').mr.lkey := by
    intro id' hi hne hk'
    exact hne (h.lkey id' hi id hid' (hk'.symm.trans hk))
  have hgone : outOf (out.erase a) (s.areas id).mr.lkey = [] := by
    have := outOf_erase ha (s.areas id).mr.lkey
    rw [if_pos hk, hout] at this
    simpa using List.perm_singleton.mp this.symm
  refine ⟨h.nodup.sublist hsub, fun i hi j hj => h.lkey i (hsub.subset hi) j (hsub.subset hj),
    fun i hi j hj => h.apart i (hsub.subset hi) j (hsub.subset hj), fun b hb => ?_,
    fun i hi => ?_, fun i hi => ?_, h.cur⟩
  · have hb' := List.mem_of_mem_erase hb
    obtain ⟨hsize, j, hj, hkey⟩ := h.owned b hb'
    have hji : j ≠ id := by
      rintro rfl
      have hmem := mem_outOf.mpr ⟨hb, hkey⟩
      simp [hgone] at hmem
    refine ⟨hsize, j, ?_, hkey⟩
    rcases List.mem_append.mp hj with hj | hj
    · exact List.mem_append_left _ hj
    · exact List.mem_append_right _ ((List.mem_erase_of_ne hji).mpr hj)
  · have hi' : i ∈ s.ids := List.mem_append_left _ hi
    have hii : i ≠ id := by
      rintro rfl
      exact hnot (List.mem_append_left _ hi)
    obtain ⟨hb, hx⟩ := h.buddies i hi
    exact ⟨hb.perm ((outOf_erase_ne ha (hne i hi' hii)).symm.map _), hx⟩
  · have hi' : i ∈ s.moreAreaList := List.mem_of_mem_erase hi
    have hii : i ≠ id := by
      rintro rfl
      exact hnot (List.mem_append_right _ hi)
    obtain ⟨hlen, n, hn⟩ := h.whole i hi'
    have hperm := outOf_erase_ne ha (hne i (List.mem_append_right _ hi') hii)
    rw [hn] at hperm
    exact ⟨hlen, n, List.perm_singleton.mp hperm⟩

/-- An area of the size of buddy areas becomes one. -/
theorem dhmpFreeOneArea (h : AllocInv s out) (ha : a ∈ out) (hid : id ∈ s.moreAreaList)
    (hmr : a.mr = (s.areas id).mr) (hout : outOf out (s.areas id).mr.lkey = [a])
    (hlen : a.mr.length = singleAreaSize) :
    ∃ s', DhmpFs.dhmpFreeOneArea s a.mr = some s' ∧ AllocInv s' (out.erase a) := by
  have hfind := h.findArea (List.subset_append_right _ _) hid (congrArg IbvMr.lkey hmr)
  have hdrop := h.dropWhole ha hid hout
  have hid' : id ∈ s.ids := List.mem_append_right _ hid
  have hlen' : (s.areas id).mr.length = singleAreaSize := hmr ▸ hlen
  have hsub := ids_erase_sublist s id
  have hne : ∀ i ∈ s.areaList ++ s.moreAreaList.erase id, i ≠ id := by
    rintro i hi rfl
    exact h.notMem_erase hid hi
  -- what was registered is as good as a fresh registration
  have hfresh : Registration.Fresh { s with moreAreaList := s.moreAreaList.erase id }
      ⟨id, (s.areas id).mr.addr, (s.areas id).mr.lkey⟩ singleAreaSize := by
    intro i hi
    have hi' := hsub.subset hi
    refine ⟨hne i hi, fun hk => hne i hi (h.lkey i hi' id hid' hk), ?_⟩
    have hspan : (s.areas id).mr.span = ((s.areas id).mr.addr, areaLength singleAreaSize) :=
      Prod.ext rfl hlen'
    exact hspan ▸ h.apart i hi' id hid' (hne i hi)
  have hbuild : Buddies (dhmpBuddySystemBuild { s.areas id with maxIndex := maxOrder - 1 }) [] ∧
      (dhmpBuddySystemBuild { s.areas id with maxIndex := maxOrder - 1 }).Indexed :=
    dhmpBuddySystemBuild_spec hlen' rfl
  have hgone : spansOf (out.erase a) (s.areas id).mr.lkey = [] := by
    rw [spansOf, hdrop.outOf_fresh hfresh, List.map_nil]
  have heq : DhmpFs.dhmpFreeOneArea s a.mr = some
      { areas := Function.update s.areas id
          (dhmpBuddySystemBuild { s.areas id with maxIndex := maxOrder - 1 })
        areaList := id :: s.areaList
        moreAreaList := s.moreAreaList.erase id
        curArea := s.curArea } := by
    simp only [DhmpFs.dhmpFreeOneArea, hfind, Option.bind_eq_bind, Option.bind_some]
    rfl
  refine ⟨_, heq, hdrop.addArea hfresh ?_ rfl (.refl _) (List.mem_cons_of_mem _ h.cur)
    (fun _ _ => rfl) (fun b hb => ⟨(hdrop.owned b hb).1, .inl hb⟩) (fun i hi => ?_)
    fun i hi => .inl hi⟩
  · exact congrArg (fun n => (⟨_, n, _⟩ : IbvMr)) hlen'
  · rcases List.mem_cons.mp hi with rfl | hi
    · exact .inr ⟨rfl, hgone ▸ hbuild.1, hbuild.2⟩
    · exact .inl hi

theorem dhmpFreeMoreArea (h : AllocInv s out) (ha : a ∈ out) (hid : id ∈ s.moreAreaList)
    (hmr : a.mr = (s.areas id).mr) (hout : outOf out (s.areas id).mr.lkey = [a]) :
    ∃ s', DhmpFs.dhmpFreeMoreArea s a.mr = some s' ∧ AllocInv s' (out.erase a) := by
  have hfind := h.findArea (List.subset_append_right _ _) hid (congrArg IbvMr.lkey hmr)
  exact ⟨_, by simp only [DhmpFs.dhmpFreeMoreArea, hfind, Option.bind_eq_bind, Option.bind_some,
    Option.pure_def], h.dropWhole ha hid hout⟩

/-- Every request to free what is out is carried out. -/
theorem free (h : AllocInv s out) (ha : a ∈ out) :
    ∃ s', dhmpFreeRequestHandler s a.mr = some s' ∧ AllocInv s' (out.erase a) := by
  have hsmall : buddySize (maxOrder - 1) < singleAreaSize := by decide
  unfold dhmpFreeRequestHandler
  rcases h.area_of ha with ⟨hlen, id, hid, hk⟩ | ⟨hlen, id, hid, hmr, hout⟩
  · rw [if_pos hlen]
    exact h.dhmpFreeOneBlock ha hid hk
  · rw [if_neg (Nat.not_le.mpr (Nat.lt_of_lt_of_le hsmall hlen))]
    by_cases hone : a.mr.length ≤ singleAreaSize
    · rw [if_pos hone]
      exact h.dhmpFreeOneArea ha hid hmr hout (Nat.le_antisymm hone hlen)
    · rw [if_neg hone]
      exact h.dhmpFreeMoreArea ha hid hmr hout

end AllocInv

/-! ## Runs -/

theorem allocInv_dhmpServerInit (areas : AreaId → Area) (reg : Registration) :
    AllocInv (dhmpServerInit areas reg) [] := by
  obtain ⟨hb, hx⟩ : Buddies (dhmpBuddySystemBuild { areas reg.area with
        maxIndex := maxOrder - 1, mr := ⟨reg.addr, singleAreaSize, reg.lkey⟩ }) [] ∧
      (dhmpBuddySystemBuild { areas reg.area with
        maxIndex := maxOrder - 1, mr := ⟨reg.addr, singleAreaSize, reg.lkey⟩ }).Indexed :=
    dhmpBuddySystemBuild_spec rfl rfl
  have hone : ∀ id ∈ (dhmpServerInit areas reg).ids, id = reg.area := by
    intro id hid
    simpa [dhmpServerInit, dhmpAreaCreate, Server.ids, Server.setArea] using hid
  refine ⟨List.nodup_singleton _, fun i hi j hj _ => (hone i hi).trans (hone j hj).symm,
    fun i hi j hj hne => absurd ((hone i hi).trans (hone j hj).symm) hne, by simp,
    fun id hid => ?_, fun id hid => absurd hid (List.not_mem_nil), List.mem_singleton_self _⟩
  obtain rfl := List.mem_singleton.mp hid
  have harea : (dhmpServerInit areas reg).areas reg.area = dhmpBuddySystemBuild
      { areas reg.area with
        maxIndex := maxOrder - 1, mr := ⟨reg.addr, singleAreaSize, reg.lkey⟩ } :=
    Function.update_self ..
  rw [harea]
  exact ⟨hb, hx⟩

/-- A request keeps the invariant. -/
theorem AllocStep.inv {st st' : Server × List Allocation} {r : Request} (hs : AllocStep st r st')
    (h : AllocInv st.1 st.2) : AllocInv st'.1 st'.2 := by
  cases hs with
  | malloc _ hf heq =>
    obtain ⟨s', mr, heq', hinv⟩ := h.malloc hf
    obtain ⟨rfl, hmr⟩ := Prod.mk.inj (Option.some.inj (heq'.symm.trans heq))
    obtain rfl := Option.some.inj hmr
    exact hinv
  | error _ hf heq =>
    obtain ⟨s', mr, heq', -⟩ := h.malloc hf
    simp [heq'] at heq
  | free ha heq =>
    obtain ⟨s', heq', hinv⟩ := h.free ha
    obtain rfl := Option.some.inj (heq'.symm.trans heq)
    exact hinv

/-- The allocator is sound after every run of requests, and handles every further one. -/
theorem allocator_run {areas : AreaId → Area} {reg : Registration} {reqs : List Request}
    {s : Server} {out : List Allocation}
    (h : Run AllocStep (dhmpServerInit areas reg, []) reqs (s, out)) :
    Sound s out ∧
      (∀ reg reqSize, 0 < reqSize → reg.Fresh s reqSize →
        ∃ s' mr, dhmpMallocRequestHandler s reg reqSize = some (s', some mr)) ∧
      ∀ a ∈ out, ∃ s', dhmpFreeRequestHandler s a.mr = some s' := by
  have hinv : AllocInv s out := h.invariant (fun st => AllocInv st.1 st.2)
    (fun _ _ _ hi hs => hs.inv hi) (allocInv_dhmpServerInit areas reg)
  refine ⟨hinv.sound, fun reg reqSize _ hf => ?_, fun a ha => ?_⟩
  · obtain ⟨s', mr, heq, -⟩ := hinv.malloc hf
    exact ⟨s', mr, heq⟩
  · obtain ⟨s', heq, -⟩ := hinv.free ha
    exact ⟨s', heq⟩

/-- A block and a whole area are handed out, and the area comes back as a buddy area. -/
theorem allocator_run_free :
    ∃ s, s.areaList = [2, 1] ∧ Sound s [⟨⟨0, 65536, 1⟩, 100⟩] := by
  have run : Run AllocStep
      (dhmpServerInit (fun _ => ⟨-1, ⟨0, 0, 0⟩, fun _ => [], fun _ => 0⟩) ⟨1, 0, 1⟩, [])
      [.malloc ⟨2, 4194304, 2⟩ 100, .malloc ⟨2, 4194304, 2⟩ 1500000,
        .free ⟨⟨4194304, 2097152, 2⟩, 1500000⟩] (_, [⟨⟨0, 65536, 1⟩, 100⟩]) :=
    .cons (.malloc (by decide) (by decide) rfl)
      (.cons (.malloc (by decide) (by decide) rfl) (.single (.free (by decide) rfl)))
  exact ⟨_, rfl, (allocator_run run).1⟩

end DhmpFs
