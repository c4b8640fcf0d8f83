import DhmpFs.Server.Requests

/-!
# The allocator finds what is free

`max_index` is recomputed in three places, and a request only looks at it. An area whose
`max_index` reaches the order of a request has a block for it, and when no area's does, none has.
So a request for a block fails only when the host has no memory for a new area.

## Main definitions

* `Host.dhmpMallocRequestHandler`: the handler, when an area may not be created.
* `selectArea`: the area that a request for a block works in.
* `CompleteInv`: the invariant.
-/

namespace DhmpFs

open Library

/-! ## Areas that cannot be created -/

/-- The order of a request, the first whose blocks are long enough. -/
def orderOf (reqSize : Nat) : Nat :=
  ((List.range maxOrder).find? fun i => reqSize ≤ buddySize i).getD maxOrder

/-- The first part of `dhmp_malloc_one_block`: the selected area is the current one afterwards.
There is none if a new one is needed and the host has nothing to register. -/
def selectArea (s : Server) (reg : Option Registration) (index : Nat) : Option Server :=
  if index ≤ (s.areas s.curArea).maxIndex then some s
  else match s.areaList.find? fun id => index ≤ (s.areas id).maxIndex with
    | some id => some { s with curArea := id }
    | none => reg.map fun reg =>
        { dhmpAreaCreate s reg true singleAreaSize with curArea := reg.area }

namespace Host

def dhmpMallocOneBlock (s : Server) (reg : Option Registration) (reqSize : Nat) :
    Option (Server × Option IbvMr) :=
  match selectArea s reg (orderOf reqSize) with
  | none => some (s, none)
  | some s => do
    let (area, blk) ← dhmpGetFreeBlock maxOrder (s.areas s.curArea) (orderOf reqSize)
    return (s.setArea s.curArea area,
      blk.map fun blk => { blk.mr with addr := blk.addr, length := blk.size })

/-- A request that finds no area changes nothing. -/
theorem dhmpMallocOneBlock_none {s : Server} {reg : Option Registration} {reqSize : Nat}
    (hs : selectArea s reg (orderOf reqSize) = none) :
    dhmpMallocOneBlock s reg reqSize = some (s, none) := by
  rw [dhmpMallocOneBlock, hs]

/-- The answer is the block of the area that was selected. -/
theorem dhmpMallocOneBlock_selected {s t : Server} {reg : Option Registration} {reqSize : Nat}
    {area : Area} {blk : FreeBlock} (hs : selectArea s reg (orderOf reqSize) = some t)
    (heq : dhmpGetFreeBlock maxOrder (t.areas t.curArea) (orderOf reqSize) =
      some (area, some blk)) :
    dhmpMallocOneBlock s reg reqSize = some (t.setArea t.curArea area,
      some { blk.mr with addr := blk.addr, length := blk.size }) := by
  simp only [dhmpMallocOneBlock, hs, heq]
  rfl

def dhmpMallocMoreArea (s : Server) (reg : Option Registration) (length : Nat) :
    Server × Option IbvMr :=
  reg.elim (s, none) fun reg => DhmpFs.dhmpMallocMoreArea s reg length

/-- `dhmp_malloc_request_handler`, with what the host would hand out for a new area. -/
def dhmpMallocRequestHandler (s : Server) (reg : Option Registration) (reqSize : Nat) :
    Option (Server × Option IbvMr) :=
  if reqSize ≤ buddySize (maxOrder - 1) then dhmpMallocOneBlock s reg reqSize
  else if reqSize ≤ singleAreaSize then some (dhmpMallocMoreArea s reg singleAreaSize)
  else some (dhmpMallocMoreArea s reg reqSize)

/-- The handler with memory to spare. -/
theorem dhmpMallocRequestHandler_some (s : Server) (reg : Registration) (reqSize : Nat) :
    dhmpMallocRequestHandler s (some reg) reqSize =
      DhmpFs.dhmpMallocRequestHandler s reg reqSize := by
  unfold dhmpMallocRequestHandler DhmpFs.dhmpMallocRequestHandler
  have hblock : dhmpMallocOneBlock s (some reg) reqSize =
      DhmpFs.dhmpMallocOneBlock s reg reqSize := by
    unfold dhmpMallocOneBlock DhmpFs.dhmpMallocOneBlock selectArea orderOf
    dsimp only
    generalize ((List.range maxOrder).find? fun i => reqSize ≤ buddySize i).getD maxOrder = index
    by_cases hcur : index ≤ (s.areas s.curArea).maxIndex
    · simp only [hcur, if_true]
    · simp only [hcur, if_false]
      cases s.areaList.find? fun id => decide (index ≤ (s.areas id).maxIndex) with
      | some id => rfl
      | none => rfl
  rw [hblock]
  rfl

end Host

/-! ## Requests -/

inductive HostRequest where
  | malloc (reg : Option Registration) (reqSize : Nat)
  | free (a : Allocation)

/-- A request is handled, and the host may be out of memory; the list holds what clients have
been given and not returned. -/
inductive HostStep :
    Server × List Allocation → HostRequest → Server × List Allocation → Prop where
  | malloc {s s' : Server} {out : List Allocation} {reg : Option Registration} {reqSize : Nat}
      {res : Option IbvMr} : (∀ r ∈ reg, r.Fresh s reqSize) →
      Host.dhmpMallocRequestHandler s reg reqSize = some (s', res) →
      HostStep (s, out) (.malloc reg reqSize) (s', (res.map fun mr => ⟨mr, reqSize⟩).toList ++ out)
  | free {s s' : Server} {out : List Allocation} {a : Allocation} : a ∈ out →
      dhmpFreeRequestHandler s a.mr = some s' → HostStep (s, out) (.free a) (s', out.erase a)

/-- The sound allocator, with the index of the areas outside the buddy system. -/
structure CompleteInv (s : Server) (out : List Allocation) : Prop extends AllocInv s out where
  outside : ∀ id ∈ s.moreAreaList, (s.areas id).maxIndex = -2

/-- `index` is the order that fits best. -/
theorem orderOf_spec {reqSize : Nat} (hle : reqSize ≤ buddySize (maxOrder - 1)) :
    orderOf reqSize < maxOrder ∧ reqSize ≤ buddySize (orderOf reqSize) ∧
      ∀ j < orderOf reqSize, buddySize j < reqSize := by
  obtain ⟨index, hindex, heq, hreq⟩ := AllocInv.index_spec hle
  obtain rfl : orderOf reqSize = index := heq
  refine ⟨hindex, hreq, fun j hj => ?_⟩
  apply Nat.lt_of_not_le
  intro hfit
  cases hf : (List.range maxOrder).find? fun i => decide (reqSize ≤ buddySize i) with
  | none =>
    have := List.find?_eq_none.mp hf (maxOrder - 1) (List.mem_range.mpr (by decide))
    exact absurd hle (by simpa using this)
  | some i =>
    have hi : orderOf reqSize = i := by simp [orderOf, hf]
    have hfirst := (List.find?_range_eq_some.mp hf).2.2 j (hi ▸ hj)
    exact absurd hfit (by simpa using hfirst)

/-- An area that is `Indexed` is filled up to its `max_index`. -/
theorem Area.Indexed.lt_iff {area : Area} (h : area.Indexed) (index : Nat) :
    area.maxIndex < index ↔ ∀ j, index ≤ j → j < maxOrder → area.blockHead j = [] := by
  constructor
  · intro hlt j hj hmax
    by_contra hne
    have := h.capped.2 j hmax hne
    omega
  · intro hnone
    by_contra hge
    obtain ⟨j, hj, hle, hne⟩ := h.exists_free (Int.not_lt.mp hge)
    exact hne (hnone j hle hj)

namespace CompleteInv

variable {s t s' : Server} {out : List Allocation} {id : AreaId} {area : Area}
  {reg : Option Registration} {reqSize index : Nat}

/-- A buddy area changes. -/
theorem setArea (h : CompleteInv s out) {out' : List Allocation} (hid : id ∈ s.areaList)
    (hinv : AllocInv (s.setArea id area) out') : CompleteInv (s.setArea id area) out' := by
  refine ⟨hinv, fun id' hid' => ?_⟩
  have hne : id' ≠ id := by
    rintro rfl
    exact (List.nodup_append'.mp h.nodup).2.2 hid hid'
  simpa [Server.setArea, hne] using h.outside id' hid'

/-- The areas outside the buddy system are not touched when one is created. -/
theorem outside_create (h : CompleteInv s out) {r : Registration} (hf : r.Fresh s reqSize)
    (hasBuddySys : Bool) (length : Nat) (hid : id ∈ s.moreAreaList) :
    ((dhmpAreaCreate s r hasBuddySys length).areas id).maxIndex = -2 := by
  have hne : id ≠ r.area := by
    rintro rfl
    exact AllocInv.not_mem_of_fresh hf (List.mem_append_right _ hid)
  have heq : (dhmpAreaCreate s r hasBuddySys length).areas id = s.areas id := by
    cases hasBuddySys <;> exact Function.update_of_ne hne ..
  rw [heq]
  exact h.outside id hid

/-- The selected area has a block, and it is a buddy area. -/
theorem selectArea_spec (h : CompleteInv s out) (hf : ∀ r ∈ reg, r.Fresh s reqSize)
    (hle : reqSize ≤ singleAreaSize) (hindex : index < maxOrder)
    (hs : selectArea s reg index = some t) :
    CompleteInv t out ∧ index ≤ (t.areas t.curArea).maxIndex := by
  unfold selectArea at hs
  by_cases hcur : index ≤ (s.areas s.curArea).maxIndex
  · rw [if_pos hcur] at hs
    obtain rfl := Option.some.inj hs
    exact ⟨h, hcur⟩
  rw [if_neg hcur] at hs
  cases hfind : s.areaList.find? fun id => decide (index ≤ (s.areas id).maxIndex) with
  | some id =>
    rw [hfind] at hs
    obtain rfl := Option.some.inj hs
    exact ⟨⟨h.setCur (List.mem_of_find?_eq_some hfind), h.outside⟩,
      by simpa using List.find?_some hfind⟩
  | none =>
    simp only [hfind, Option.map_eq_some_iff] at hs
    obtain ⟨r, rfl, rfl⟩ := hs
    have hfresh := hf r rfl
    refine ⟨⟨h.createBuddy hfresh hle, fun id hid => ?_⟩, ?_⟩
    · exact h.outside_create hfresh true singleAreaSize hid
    · have hnew : ((dhmpAreaCreate s r true singleAreaSize).areas r.area).maxIndex =
          maxOrder - 1 := by
        simp [dhmpAreaCreate, Server.setArea, dhmpBuddySystemBuild]
      dsimp only
      omega

/-- No area is selected exactly if no area has a block and none can be created. -/
theorem selectArea_eq_none (h : CompleteInv s out) : selectArea s reg index = none ↔
    reg = none ∧ ∀ id ∈ s.areaList, ∀ j, index ≤ j → j < maxOrder →
      (s.areas id).blockHead j = [] := by
  have hlt : ∀ id ∈ s.areaList, ¬ (index : Int) ≤ (s.areas id).maxIndex ↔
      ∀ j, index ≤ j → j < maxOrder → (s.areas id).blockHead j = [] := by
    intro id hid
    rw [Int.not_le]
    exact (h.buddies id hid).2.lt_iff index
  unfold selectArea
  by_cases hcur : index ≤ (s.areas s.curArea).maxIndex
  · rw [if_pos hcur]
    refine ⟨fun h => by simp at h, fun hnone => ?_⟩
    exact absurd hcur ((hlt _ h.cur).mpr (hnone.2 _ h.cur))
  rw [if_neg hcur]
  cases hfind : s.areaList.find? fun id => decide (index ≤ (s.areas id).maxIndex) with
  | some id =>
    refine ⟨fun h => by simp at h, fun hnone => ?_⟩
    have hid := List.mem_of_find?_eq_some hfind
    exact absurd (by simpa using List.find?_some hfind) ((hlt id hid).mpr (hnone.2 id hid))
  | none =>
    rw [Option.map_eq_none_iff]
    refine ⟨fun hreg => ⟨hreg, fun id hid => (hlt id hid).mp ?_⟩, And.left⟩
    simpa using List.find?_eq_none.mp hfind id hid

/-- The current area gives up a block of the order, if it has one. -/
theorem getFreeBlock (h : CompleteInv s out) (hindex : index < maxOrder)
    (hmax : index ≤ (s.areas s.curArea).maxIndex) :
    ∃ area blk, dhmpGetFreeBlock maxOrder (s.areas s.curArea) index = some (area, some blk) ∧
      blk.size = buddySize index := by
  obtain ⟨hb, hx⟩ := h.buddies _ h.cur
  obtain ⟨j, hj, hij, hne⟩ := hx.exists_free hmax
  obtain ⟨area, blk, heq, -, -, -, -, hp⟩ := dhmpGetFreeBlock_spec hb hx.capped hindex
    ⟨j, hj, hij, Nat.lt_of_lt_of_le hj (Nat.le_add_left _ _), hne⟩
  exact ⟨area, blk, heq, hp.1⟩

/-- A request for a block is answered, with memory if an area was selected. -/
theorem dhmpMallocOneBlock (h : CompleteInv s out) (hf : ∀ r ∈ reg, r.Fresh s reqSize)
    (hle : reqSize ≤ buddySize (maxOrder - 1)) :
    ∃ s' res, Host.dhmpMallocOneBlock s reg reqSize = some (s', res) ∧
      CompleteInv s' ((res.map fun mr => ⟨mr, reqSize⟩).toList ++ out) := by
  obtain ⟨hindex, hreq, -⟩ := orderOf_spec hle
  cases hs : selectArea s reg (orderOf reqSize) with
  | none => exact ⟨s, none, Host.dhmpMallocOneBlock_none hs, h⟩
  | some t =>
    have hsize : reqSize ≤ singleAreaSize := Nat.le_trans hle (by decide)
    obtain ⟨ht, hmax⟩ := h.selectArea_spec hf hsize hindex hs
    obtain ⟨area, blk, heq, hinv⟩ := ht.takeBlock hindex hmax hreq
    exact ⟨_, some _, Host.dhmpMallocOneBlock_selected hs heq, ht.setArea ht.cur hinv⟩

/-- A whole area is created, or the host has none. -/
theorem dhmpMallocMoreArea (h : CompleteInv s out) (hf : ∀ r ∈ reg, r.Fresh s reqSize) :
    CompleteInv (Host.dhmpMallocMoreArea s reg (areaLength reqSize)).1
      (((Host.dhmpMallocMoreArea s reg (areaLength reqSize)).2.map
        fun mr => ⟨mr, reqSize⟩).toList ++ out) := by
  cases reg with
  | none => exact h
  | some r =>
    refine ⟨h.createWhole (hf r rfl) rfl, fun id hid => ?_⟩
    rcases List.mem_cons.mp hid with rfl | hid
    · simp [Host.dhmpMallocMoreArea, DhmpFs.dhmpMallocMoreArea, dhmpAreaCreate, Server.setArea]
    · exact h.outside_create (hf r rfl) false _ hid

theorem malloc (h : CompleteInv s out) (hf : ∀ r ∈ reg, r.Fresh s reqSize) :
    ∃ s' res, Host.dhmpMallocRequestHandler s reg reqSize = some (s', res) ∧
      CompleteInv s' ((res.map fun mr => ⟨mr, reqSize⟩).toList ++ out) := by
  unfold Host.dhmpMallocRequestHandler
  by_cases hblock : reqSize ≤ buddySize (maxOrder - 1)
  · rw [if_pos hblock]
    exact h.dhmpMallocOneBlock hf hblock
  rw [if_neg hblock]
  have hmore := h.dhmpMallocMoreArea hf
  by_cases hone : reqSize ≤ singleAreaSize
  · rw [if_pos hone]
    rw [areaLength, if_pos hone] at hmore
    exact ⟨_, _, rfl, hmore⟩
  · rw [if_neg hone]
    rw [areaLength, if_neg hone] at hmore
    exact ⟨_, _, rfl, hmore⟩

/-- What is freed changes a buddy area, or leaves the second list. -/
theorem free (h : CompleteInv s out) {a : Allocation} (ha : a ∈ out) :
    ∃ s', dhmpFreeRequestHandler s a.mr = some s' ∧ CompleteInv s' (out.erase a) := by
  obtain ⟨s', heq, hinv⟩ := h.toAllocInv.free ha
  refine ⟨s', heq, hinv, ?_⟩
  have herase : ∀ id, id ∈ s.moreAreaList → ∀ id' ∈ s.moreAreaList.erase id,
      id' ≠ id ∧ (s.areas id').maxIndex = -2 := by
    intro id hid id' hid'
    refine ⟨?_, h.outside id' (List.mem_of_mem_erase hid')⟩
    rintro rfl
    exact h.notMem_erase hid (List.mem_append_right _ hid')
  unfold dhmpFreeRequestHandler dhmpFreeOneBlock dhmpFreeOneArea dhmpFreeMoreArea at heq
  by_cases hblock : a.mr.length ≤ buddySize (maxOrder - 1)
  · rw [if_pos hblock] at heq
    cases hfind : s.findArea s.areaList a.mr with
    | none =>
      rw [hfind] at heq
      obtain rfl := Option.some.inj heq
      exact h.outside
    | some id =>
      simp only [hfind, Option.map_eq_some_iff] at heq
      obtain ⟨area, -, rfl⟩ := heq
      exact (h.setArea (List.mem_of_find?_eq_some hfind) hinv).outside
  · rw [if_neg hblock] at heq
    cases hfind : s.findArea s.moreAreaList a.mr with
    | none => simp [hfind] at heq
    | some id =>
      have hid : id ∈ s.moreAreaList := List.mem_of_find?_eq_some hfind
      by_cases hone : a.mr.length ≤ singleAreaSize
      · simp only [hone, if_true, hfind, Option.bind_eq_bind, Option.bind_some, Option.pure_def,
          Option.some.injEq] at heq
        obtain rfl := heq
        intro id' hid'
        obtain ⟨hne, hindex⟩ := herase id hid id' hid'
        simpa [Server.setArea, hne] using hindex
      · simp only [hone, if_false, hfind, Option.bind_eq_bind, Option.bind_some, Option.pure_def,
          Option.some.injEq] at heq
        obtain rfl := heq
        exact fun id' hid' => (herase id hid id' hid').2

end CompleteInv

theorem HostStep.inv {st st' : Server × List Allocation} {r : HostRequest}
    (hs : HostStep st r st') (h : CompleteInv st.1 st.2) : CompleteInv st'.1 st'.2 := by
  cases hs with
  | malloc hf heq =>
    obtain ⟨s', res, heq', hinv⟩ := h.malloc hf
    obtain ⟨rfl, rfl⟩ := Prod.mk.inj (Option.some.inj (heq'.symm.trans heq))
    exact hinv
  | free ha heq =>
    obtain ⟨s', heq', hinv⟩ := h.free ha
    obtain rfl := Option.some.inj (heq'.symm.trans heq)
    exact hinv

/-- `max_index` is the largest order with a free block, `-1` if there is none. -/
def Area.TopFree (area : Area) : Prop :=
  (area.maxIndex = -1 ∧ ∀ j < maxOrder, area.blockHead j = []) ∨
    ∃ i < maxOrder, area.maxIndex = i ∧ area.blockHead i ≠ [] ∧
      ∀ j, i < j → j < maxOrder → area.blockHead j = []

/-- After every run of requests `max_index` is right in every area. A request for a block is
answered with the block that the selected area gives up, of the order that fits best, and it fails
only without a new area. -/
theorem allocator_complete {areas : AreaId → Area} {reg₀ : Registration}
    {reqs : List HostRequest} {s : Server} {out : List Allocation}
    (run : Run HostStep (dhmpServerInit areas reg₀, []) reqs (s, out)) :
    (∀ id ∈ s.areaList, (s.areas id).TopFree) ∧
    (∀ id ∈ s.moreAreaList, (s.areas id).maxIndex = -2) ∧
    ∀ reg reqSize, (∀ r ∈ reg, r.Fresh s reqSize) → reqSize ≤ buddySize (maxOrder - 1) →
      orderOf reqSize < maxOrder ∧ reqSize ≤ buddySize (orderOf reqSize) ∧
      (∀ j < orderOf reqSize, buddySize j < reqSize) ∧
      (∀ t, selectArea s reg (orderOf reqSize) = some t → ∃ area blk,
        dhmpGetFreeBlock maxOrder (t.areas t.curArea) (orderOf reqSize) = some (area, some blk) ∧
        blk.size = buddySize (orderOf reqSize) ∧
        Host.dhmpMallocRequestHandler s reg reqSize = some (t.setArea t.curArea area,
          some { blk.mr with addr := blk.addr, length := buddySize (orderOf reqSize) })) ∧
      (selectArea s reg (orderOf reqSize) = none →
        Host.dhmpMallocRequestHandler s reg reqSize = some (s, none)) ∧
      (selectArea s reg (orderOf reqSize) = none ↔
        reg = none ∧ ∀ id ∈ s.areaList, ∀ j, orderOf reqSize ≤ j → j < maxOrder →
          (s.areas id).blockHead j = []) := by
  have start : CompleteInv (dhmpServerInit areas reg₀) [] :=
    ⟨allocInv_dhmpServerInit areas reg₀, fun id hid => absurd hid List.not_mem_nil⟩
  have hinv : CompleteInv s out := run.invariant (fun st => CompleteInv st.1 st.2)
    (fun _ _ _ hi hs => hs.inv hi) start
  refine ⟨fun id hid => ?_, hinv.outside, fun reg reqSize hf hle => ?_⟩
  · have hx := (hinv.buddies id hid).2
    unfold Area.Indexed at hx
    rw [Area.TopFree, hx]
    exact lastOrder_spec (s.areas id) maxOrder
  obtain ⟨hindex, hreq, hfirst⟩ := orderOf_spec hle
  refine ⟨hindex, hreq, hfirst, fun t hs => ?_, fun hs => ?_, hinv.selectArea_eq_none⟩
  · obtain ⟨ht, hmax⟩ := hinv.selectArea_spec hf (Nat.le_trans hle (by decide)) hindex hs
    obtain ⟨area, blk, heq, hsize⟩ := ht.getFreeBlock hindex hmax
    refine ⟨area, blk, heq, hsize, ?_⟩
    rw [Host.dhmpMallocRequestHandler, if_pos hle, Host.dhmpMallocOneBlock_selected hs heq, hsize]
  · rw [Host.dhmpMallocRequestHandler, if_pos hle, Host.dhmpMallocOneBlock_none hs]

/-- The two largest blocks of the first area go out, and there is no memory for a second area. A
smaller block can still be had, another large one cannot. -/
theorem allocator_complete_full : ∃ s out,
    Run HostStep (dhmpServerInit (fun _ => ⟨-1, ⟨0, 0, 0⟩, fun _ => [], fun _ => 0⟩) ⟨1, 0, 1⟩, [])
      [.malloc none 1000000, .malloc none 500000] (s, out) ∧
    (∃ s' mr, Host.dhmpMallocRequestHandler s none 100000 = some (s', some mr) ∧
      mr.length = 131072) ∧
    Host.dhmpMallocRequestHandler s none 1000000 = some (s, none) := by
  have run : Run HostStep
      (dhmpServerInit (fun _ => ⟨-1, ⟨0, 0, 0⟩, fun _ => [], fun _ => 0⟩) ⟨1, 0, 1⟩, [])
      [.malloc none 1000000, .malloc none 500000] _ :=
    .cons (.malloc (by simp) rfl) (.single (.malloc (by simp) rfl))
  have hcomplete := (allocator_complete run).2.2
  refine ⟨_, _, run, ?_, (hcomplete none 1000000 (by simp) (by decide)).2.2.2.2.1 rfl⟩
  obtain ⟨area, blk, -, -, heq⟩ :=
    (hcomplete none 100000 (by simp) (by decide)).2.2.2.1 _ rfl
  exact ⟨_, _, heq, rfl⟩

end DhmpFs
