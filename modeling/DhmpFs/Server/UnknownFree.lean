import DhmpFs.Server.Requests
import Mathlib.Algebra.Order.Group.Nat
import Mathlib.Data.Int.Basic

/-!
# Freeing what is not there

`dhmp_free_request_handler` takes the length of the region off the counters of the connection
before it looks for the region. A block that is in no area is then ignored. For a whole area the
search ends at the head of `more_area_list`, and the guard compares with the head of `area_list`:
the head itself is taken for an area.

## Main definitions

* `Counted.dhmpFreeRequestHandler`: the handler, with the counters it changes.
* `Belongs`: the list that is searched has an area with this region.
* `Harmless`: the request changes nothing.
-/

namespace DhmpFs

open Library

/-! ## The counters -/

/-- An NVM region that is cached in DRAM. -/
structure DramEntry where
  nvmAddr : Nat
  length : Nat
  deriving DecidableEq

/-- The counters of a connection; both are `long`. -/
structure TransportCounters where
  dramUsedSize : Int64
  nvmUsedSize : Int64

/-- The server, with its counters and the table of what is cached. -/
structure CountedServer extends Server where
  dramUsedSize : Int64
  nvmUsedSize : Int64
  dramHt : Nat → List DramEntry

namespace CountedServer

variable (hashInServer : Nat → Nat) (s : CountedServer) (rdmaTrans : TransportCounters) (mr : IbvMr)

/-- `dhmp_destroy_dram_entry`: the entry of an address goes, if there is one. The bucket is the
one that `dhmp_hash_in_server` names. -/
def dhmpDestroyDramEntry (nvmAddr : Nat) : CountedServer × Bool :=
  let bucket := s.dramHt (hashInServer nvmAddr)
  if bucket.any fun e => e.nvmAddr = nvmAddr then
    let bucket := bucket.eraseP fun e => e.nvmAddr = nvmAddr
    ({ s with dramHt := Function.update s.dramHt (hashInServer nvmAddr) bucket }, true)
  else (s, false)

/-- `dhmp_free_request_handler`. -/
def dhmpFreeRequestHandler : Option (CountedServer × TransportCounters) := do
  let length := Int64.ofNat mr.length
  let rdmaTrans := { rdmaTrans with nvmUsedSize := rdmaTrans.nvmUsedSize - length }
  let (s, destroyed) := s.dhmpDestroyDramEntry hashInServer mr.addr
  let s := if destroyed then { s with dramUsedSize := s.dramUsedSize - length } else s
  let rdmaTrans :=
    if destroyed then { rdmaTrans with dramUsedSize := rdmaTrans.dramUsedSize - length }
    else rdmaTrans
  let server ← DhmpFs.dhmpFreeRequestHandler s.toServer mr
  return ({ s with toServer := server }, rdmaTrans)

/-! ## Unknown regions -/

/-- An area of the list that is searched has the key, and regions of this length. -/
def Belongs : Prop :=
  if mr.length ≤ buddySize (maxOrder - 1) then
    ∃ id ∈ s.areaList, mr.lkey = (s.areas id).mr.lkey ∧ ∃ i < maxOrder, mr.length = buddySize i
  else
    ∃ id ∈ s.moreAreaList, mr.lkey = (s.areas id).mr.lkey ∧ mr.length = (s.areas id).mr.length

/-- The handler returns, with the lists and the areas as they were. -/
def KeepsAreas : Prop :=
  ∃ s' rdmaTrans', s.dhmpFreeRequestHandler hashInServer rdmaTrans mr = some (s', rdmaTrans') ∧
    s'.areaList = s.areaList ∧ s'.moreAreaList = s.moreAreaList ∧ s'.areas = s.areas

/-- And so are the counters. -/
def Harmless : Prop :=
  ∃ s' rdmaTrans', s.dhmpFreeRequestHandler hashInServer rdmaTrans mr = some (s', rdmaTrans') ∧
    s'.areaList = s.areaList ∧ s'.moreAreaList = s.moreAreaList ∧ s'.areas = s.areas ∧
    s'.dramUsedSize = s.dramUsedSize ∧ s'.nvmUsedSize = s.nvmUsedSize ∧ rdmaTrans' = rdmaTrans

theorem dhmpDestroyDramEntry_spec (nvmAddr : Nat) :
    ∃ dramHt found, s.dhmpDestroyDramEntry hashInServer nvmAddr =
      ({ s with dramHt := dramHt }, found) := by
  unfold dhmpDestroyDramEntry
  dsimp only
  split_ifs
  · exact ⟨_, true, rfl⟩
  · exact ⟨s.dramHt, false, rfl⟩

theorem int64_sub_zero (x : Int64) : x - 0 = x := by grind

theorem int64_sub_eq_self {x : Int64} {n : Nat} (hn : n < 2 ^ 64) :
    x - Int64.ofNat n = x ↔ n = 0 := by
  constructor
  · intro h
    have hzero : Int64.ofNat n = 0 := by grind
    have hnat : (BitVec.ofNat 64 n).toNat = 0 := congrArg (fun y => y.toBitVec.toNat) hzero
    rwa [BitVec.toNat_ofNat, Nat.mod_eq_of_lt hn] at hnat
  · rintro rfl
    exact int64_sub_zero x

/-- The areas are handled by themselves, and the length comes off the counters whatever becomes
of them. -/
theorem dhmpFreeRequestHandler_eq : ∃ dramHt n, (n = 0 ∨ n = Int64.ofNat mr.length) ∧
    s.dhmpFreeRequestHandler hashInServer rdmaTrans mr =
      (DhmpFs.dhmpFreeRequestHandler s.toServer mr).map fun server =>
        (⟨server, s.dramUsedSize - n, s.nvmUsedSize, dramHt⟩,
          ⟨rdmaTrans.dramUsedSize - n, rdmaTrans.nvmUsedSize - Int64.ofNat mr.length⟩) := by
  obtain ⟨dramHt, found, hdram⟩ := dhmpDestroyDramEntry_spec hashInServer s mr.addr
  unfold dhmpFreeRequestHandler
  rw [hdram]
  cases found with
  | false =>
    refine ⟨dramHt, 0, .inl rfl, ?_⟩
    simp only [Bool.false_eq_true, if_false, int64_sub_zero]
    cases DhmpFs.dhmpFreeRequestHandler s.toServer mr <;> rfl
  | true =>
    refine ⟨dramHt, _, .inr rfl, ?_⟩
    simp only [if_true]
    cases DhmpFs.dhmpFreeRequestHandler s.toServer mr <;> rfl

variable {hashInServer s rdmaTrans mr}

/-- A block with a known key and an unknown length is not freed. -/
theorem dhmpFreeOneBlock_unknown (unknown : ¬ s.Belongs mr)
    (hblock : mr.length ≤ buddySize (maxOrder - 1)) {server : Server}
    (h : dhmpFreeOneBlock s.toServer mr = some server) :
    ∀ id ∈ s.areaList, mr.lkey ≠ (s.areas id).mr.lkey := by
  intro id hid hk
  rw [dhmpFreeOneBlock] at h
  cases hfind : s.findArea s.areaList mr with
  | none =>
    have := List.find?_eq_none.mp hfind id hid
    simp [hk] at this
  | some id =>
    have hid := List.mem_of_find?_eq_some hfind
    have hk : mr.lkey = (s.areas id).mr.lkey := by simpa using List.find?_some hfind
    have hnone : (List.range maxOrder).find? (fun i => mr.length = buddySize i) = none := by
      refine List.find?_eq_none.mpr fun i hi hsize => unknown ?_
      rw [Belongs, if_pos hblock]
      exact ⟨id, hid, hk, i, List.mem_range.mp hi, by simpa using hsize⟩
    simp [hfind, freeInArea, hnone] at h

/-- A free of a whole area takes one off its list. -/
theorem dhmpFreeOneArea_moreAreaList {server : Server}
    (h : (if mr.length ≤ singleAreaSize then dhmpFreeOneArea s.toServer mr
      else dhmpFreeMoreArea s.toServer mr) = some server) :
    server.moreAreaList ≠ s.moreAreaList := by
  cases hfind : s.findArea s.moreAreaList mr with
  | none =>
    rw [dhmpFreeOneArea, dhmpFreeMoreArea, hfind] at h
    simp at h
  | some id =>
    have hid : id ∈ s.moreAreaList := List.mem_of_find?_eq_some hfind
    have hgone : s.moreAreaList.erase id ≠ s.moreAreaList := by
      intro hsame
      have := List.length_erase_of_mem hid
      have := List.length_pos_of_mem hid
      rw [hsame] at *
      omega
    rw [dhmpFreeOneArea, dhmpFreeMoreArea, hfind] at h
    split_ifs at h with hone
    all_goals
      obtain rfl := Option.some.inj h
      exact hgone

/-- The areas stay as they are exactly if the request is for a block with an unknown key: the
searches for whole areas have no way to fail. -/
theorem keepsAreas_iff (unknown : ¬ s.Belongs mr) :
    s.KeepsAreas hashInServer rdmaTrans mr ↔ mr.length ≤ buddySize (maxOrder - 1) ∧
      ∀ id ∈ s.areaList, mr.lkey ≠ (s.areas id).mr.lkey := by
  obtain ⟨dramHt, n, -, heq⟩ := dhmpFreeRequestHandler_eq hashInServer s rdmaTrans mr
  unfold KeepsAreas
  rw [heq]
  unfold DhmpFs.dhmpFreeRequestHandler
  constructor
  · rintro ⟨s', rdmaTrans', h, hlist, hmore, -⟩
    obtain ⟨server, hserver, hpair⟩ := Option.map_eq_some_iff.mp h
    obtain ⟨rfl, -⟩ := Prod.mk.inj hpair
    by_cases hblock : mr.length ≤ buddySize (maxOrder - 1)
    · rw [if_pos hblock] at hserver
      exact ⟨hblock, dhmpFreeOneBlock_unknown unknown hblock hserver⟩
    · rw [if_neg hblock] at hserver
      exact absurd hmore (dhmpFreeOneArea_moreAreaList hserver)
  · rintro ⟨hblock, hkey⟩
    have hfind : s.findArea s.areaList mr = none :=
      List.find?_eq_none.mpr fun id hid => by simpa using hkey id hid
    rw [if_pos hblock, dhmpFreeOneBlock, hfind]
    exact ⟨_, _, rfl, rfl, rfl, rfl⟩

theorem Harmless.keepsAreas (h : s.Harmless hashInServer rdmaTrans mr) :
    s.KeepsAreas hashInServer rdmaTrans mr := by
  obtain ⟨s', rdmaTrans', heq, hlist, hmore, hareas, -⟩ := h
  exact ⟨s', rdmaTrans', heq, hlist, hmore, hareas⟩

/-- Freeing a whole area when there is none. -/
theorem not_harmless_of_nil (hmore : s.moreAreaList = [])
    (hlen : buddySize (maxOrder - 1) < mr.length) :
    ¬ s.Belongs mr ∧ ¬ s.Harmless hashInServer rdmaTrans mr := by
  have unknown : ¬ s.Belongs mr := by
    rw [Belongs, if_neg (Nat.not_le.mpr hlen), hmore]
    rintro ⟨id, hid, -⟩
    exact absurd hid List.not_mem_nil
  refine ⟨unknown, fun h => ?_⟩
  have hblock := ((keepsAreas_iff unknown).mp h.keepsAreas).1
  omega

/-- A request for an unknown region is harmless exactly if it frees nothing: the length is 0, and
no buddy area has its key. -/
theorem harmless_iff (hlen : mr.length < 2 ^ 64) (unknown : ¬ s.Belongs mr) :
    s.Harmless hashInServer rdmaTrans mr ↔
      mr.length = 0 ∧ ∀ id ∈ s.areaList, mr.lkey ≠ (s.areas id).mr.lkey := by
  obtain ⟨dramHt, n, hn, heq⟩ := dhmpFreeRequestHandler_eq hashInServer s rdmaTrans mr
  have hkeeps : s.KeepsAreas hashInServer rdmaTrans mr ↔ _ := keepsAreas_iff unknown
  constructor
  · intro hharmless
    refine ⟨?_, (hkeeps.mp hharmless.keepsAreas).2⟩
    obtain ⟨s', rdmaTrans', h, -, -, -, -, -, htrans⟩ := hharmless
    rw [heq] at h
    obtain ⟨server, -, hpair⟩ := Option.map_eq_some_iff.mp h
    obtain ⟨-, rfl⟩ := Prod.mk.inj hpair
    exact (int64_sub_eq_self hlen).mp (congrArg TransportCounters.nvmUsedSize htrans)
  · rintro ⟨hzero, hkey⟩
    obtain ⟨s', rdmaTrans', h, hlist, hmore, hareas⟩ :=
      hkeeps.mpr ⟨by rw [hzero]; exact Nat.zero_le _, hkey⟩
    refine ⟨s', rdmaTrans', h, hlist, hmore, hareas, ?_⟩
    rw [heq] at h
    obtain ⟨server, -, hpair⟩ := Option.map_eq_some_iff.mp h
    obtain ⟨rfl, rfl⟩ := Prod.mk.inj hpair
    have hnone : n = 0 := by
      rcases hn with rfl | rfl
      · rfl
      · rw [hzero]
        rfl
    have hlength : Int64.ofNat mr.length = 0 := by rw [hzero]; rfl
    simp only [hnone, hlength, int64_sub_zero, and_self]

/-- A new server, nothing is cached. -/
def start : CountedServer :=
  ⟨dhmpServerInit (fun _ => ⟨-1, ⟨0, 0, 0⟩, fun _ => [], fun _ => 0⟩) ⟨1, 0, 1⟩, 0, 0, fun _ => []⟩

/-- Nothing at all is freed. -/
theorem harmless_empty : start.Harmless (fun a => a % 251) ⟨0, 4096⟩ ⟨64, 0, 9⟩ := by
  have unknown : ¬ start.Belongs ⟨64, 0, 9⟩ := by
    rw [Belongs, if_pos (by decide)]
    rintro ⟨id, hid, hk, -⟩
    obtain rfl := List.mem_singleton.mp hid
    exact absurd hk (by decide)
  refine (harmless_iff (by decide) unknown).mpr ⟨rfl, fun id hid => ?_⟩
  obtain rfl := List.mem_singleton.mp hid
  decide

/-- A region of 2 MB is taken and freed, and freed again: its area is a buddy area by then, and
the handler works on the head of the empty list. -/
theorem not_harmless_repeated : ∃ s : Server,
    Run AllocStep (start.toServer, []) [.malloc ⟨2, 4194304, 2⟩ 1500000,
      .free ⟨⟨4194304, 2097152, 2⟩, 1500000⟩] (s, []) ∧ s.areaList = [2, 1] ∧
    ∀ hashInServer dramUsedSize nvmUsedSize dramHt rdmaTrans,
      ¬ (⟨s, dramUsedSize, nvmUsedSize, dramHt⟩ : CountedServer).Belongs ⟨4194304, 2097152, 2⟩ ∧
      ¬ (⟨s, dramUsedSize, nvmUsedSize, dramHt⟩ : CountedServer).Harmless hashInServer rdmaTrans
        ⟨4194304, 2097152, 2⟩ := by
  have run : Run AllocStep (start.toServer, []) [.malloc ⟨2, 4194304, 2⟩ 1500000,
      .free ⟨⟨4194304, 2097152, 2⟩, 1500000⟩] (_, []) :=
    .cons (.malloc (by decide) (by decide) rfl) (.single (.free (by decide) rfl))
  exact ⟨_, run, rfl, fun _ _ _ _ _ => not_harmless_of_nil rfl (by decide)⟩

end CountedServer

end DhmpFs
