import DhmpFs.Library.Run
import DhmpFs.Server.AreaOps

/-!
# The allocator

Requests are handled one after the other. The NUMA allocator and the device are asked for a new
area when none of the areas has a block; what they hand out is apart from what is registered.

## Main definitions

* `AllocStep`: the requests.
* `Sound`: what clients rely on.
* `AllocInv`: the invariant that carries it.
-/

namespace DhmpFs

open Library

/-! ## Requests -/

def IbvMr.span (mr : IbvMr) : Nat × Nat := (mr.addr, mr.length)

/-- Memory that was handed out, with the size that was asked for. -/
structure Allocation where
  mr : IbvMr
  reqSize : Nat
  deriving DecidableEq

inductive Request where
  | malloc (reg : Registration) (reqSize : Nat)
  | free (a : Allocation)

/-- The registered areas. -/
def Server.ids (s : Server) : List AreaId := s.areaList ++ s.moreAreaList

/-- The length of the area that may be created for a request. -/
def areaLength (reqSize : Nat) : Nat := if reqSize ≤ singleAreaSize then singleAreaSize else reqSize

/-- The structure, the key and the memory are not in use. -/
def Registration.Fresh (s : Server) (reg : Registration) (reqSize : Nat) : Prop :=
  ∀ id ∈ s.ids, id ≠ reg.area ∧ (s.areas id).mr.lkey ≠ reg.lkey ∧
    Apart (s.areas id).mr.span (reg.addr, areaLength reqSize)

instance (s : Server) (reg : Registration) (reqSize : Nat) : Decidable (reg.Fresh s reqSize) :=
  inferInstanceAs (Decidable (∀ id ∈ s.ids, id ≠ reg.area ∧ (s.areas id).mr.lkey ≠ reg.lkey ∧
    Apart (s.areas id).mr.span (reg.addr, areaLength reqSize)))

/-- A request is handled; the list holds what clients have been given and not returned. -/
inductive AllocStep : Server × List Allocation → Request → Server × List Allocation → Prop where
  | malloc {s s' : Server} {out : List Allocation} {reg : Registration} {reqSize : Nat}
      {mr : IbvMr} : 0 < reqSize → reg.Fresh s reqSize →
      dhmpMallocRequestHandler s reg reqSize = some (s', some mr) →
      AllocStep (s, out) (.malloc reg reqSize) (s', ⟨mr, reqSize⟩ :: out)
  | error {s s' : Server} {out : List Allocation} {reg : Registration} {reqSize : Nat} :
      0 < reqSize → reg.Fresh s reqSize →
      dhmpMallocRequestHandler s reg reqSize = some (s', none) →
      AllocStep (s, out) (.malloc reg reqSize) (s', out)
  | free {s s' : Server} {out : List Allocation} {a : Allocation} : a ∈ out →
      dhmpFreeRequestHandler s a.mr = some s' → AllocStep (s, out) (.free a) (s', out.erase a)

/-! ## Soundness -/

/-- What is out of the area with the key `k`. -/
def outOf (out : List Allocation) (k : Nat) : List Allocation := out.filter fun a => a.mr.lkey = k

def spansOf (out : List Allocation) (k : Nat) : List (Nat × Nat) :=
  (outOf out k).map fun a => a.mr.span

/-- Every allocation is long enough and inside its area, no two overlap, and in every buddy area
the free blocks and what is out of it partition the area. -/
structure Sound (s : Server) (out : List Allocation) : Prop where
  inside : ∀ a ∈ out, a.reqSize ≤ a.mr.length ∧ ∃ id ∈ s.ids,
    a.mr.lkey = (s.areas id).mr.lkey ∧ (s.areas id).mr.addr ≤ a.mr.addr ∧
    a.mr.addr + a.mr.length ≤ (s.areas id).mr.addr + (s.areas id).mr.length
  apart : out.Pairwise fun a b => Apart a.mr.span b.mr.span
  partition : ∀ id ∈ s.areaList, Buddies (s.areas id) (spansOf out (s.areas id).mr.lkey)

/-- The areas are apart, and every allocation belongs to one: to a buddy area, or to an area
that is out as a whole. -/
structure AllocInv (s : Server) (out : List Allocation) : Prop where
  nodup : s.ids.Nodup
  lkey : ∀ id ∈ s.ids, ∀ id' ∈ s.ids, (s.areas id).mr.lkey = (s.areas id').mr.lkey → id = id'
  apart : ∀ id ∈ s.ids, ∀ id' ∈ s.ids, id ≠ id' →
    Apart (s.areas id).mr.span (s.areas id').mr.span
  owned : ∀ a ∈ out, a.reqSize ≤ a.mr.length ∧ ∃ id ∈ s.ids, a.mr.lkey = (s.areas id).mr.lkey
  buddies : ∀ id ∈ s.areaList,
    Buddies (s.areas id) (spansOf out (s.areas id).mr.lkey) ∧ (s.areas id).Indexed
  whole : ∀ id ∈ s.moreAreaList, singleAreaSize ≤ (s.areas id).mr.length ∧
    ∃ n, outOf out (s.areas id).mr.lkey = [⟨(s.areas id).mr, n⟩]
  cur : s.curArea ∈ s.areaList

section outOf

variable {out out' : List Allocation} {a : Allocation} {k : Nat}

theorem mem_outOf : a ∈ outOf out k ↔ a ∈ out ∧ a.mr.lkey = k := by
  simp [outOf]

theorem outOf_cons :
    outOf (a :: out) k = if a.mr.lkey = k then a :: outOf out k else outOf out k := by
  simp [outOf, List.filter_cons]

theorem outOf_perm (h : out.Perm out') (k : Nat) : (outOf out k).Perm (outOf out' k) :=
  h.filter _

end outOf

namespace AllocInv

variable {s : Server} {out out' : List Allocation} {id : AreaId} {a : Allocation} {k : Nat}

/-- An allocation lies in its area. -/
theorem inside (h : AllocInv s out) (ha : a ∈ out) (hid : id ∈ s.ids)
    (hk : a.mr.lkey = (s.areas id).mr.lkey) : (s.areas id).mr.addr ≤ a.mr.addr ∧
      a.mr.addr + a.mr.length ≤ (s.areas id).mr.addr + (s.areas id).mr.length := by
  have hmem := mem_outOf.mpr ⟨ha, hk⟩
  rcases List.mem_append.mp hid with hid | hid
  · obtain ⟨hb, -⟩ := h.buddies id hid
    have hspan : a.mr.span ∈ spansOf out (s.areas id).mr.lkey := List.mem_map_of_mem hmem
    obtain ⟨i, hi, hp⟩ := hb.out _ hspan
    rw [hb.length]
    exact hb.tiles.inside (List.mem_append_right _ hspan) (hp.1 ▸ buddySize_pos hi)
  · obtain ⟨-, n, hn⟩ := h.whole id hid
    rw [hn, List.mem_singleton] at hmem
    subst hmem
    exact ⟨Nat.le_refl _, Nat.le_refl _⟩

/-- What is out of one area does not overlap. -/
theorem pairwise_outOf (h : AllocInv s out) (k : Nat) :
    (outOf out k).Pairwise fun a b => Apart a.mr.span b.mr.span := by
  cases hout : outOf out k with
  | nil => exact .nil
  | cons a l =>
    obtain ⟨ha, hk⟩ := mem_outOf.mp (hout ▸ List.mem_cons_self : a ∈ outOf out k)
    obtain ⟨-, id, hid, hkey⟩ := h.owned a ha
    obtain rfl := hk
    rw [← hout]
    rcases List.mem_append.mp hid with hid | hid
    · obtain ⟨hb, -⟩ := h.buddies id hid
      have hpair := (List.pairwise_append.mp (hb.tiles.pairwise_apart fun _ => hb.pos)).2.1
      rw [hkey]
      exact List.pairwise_map.mp hpair
    · obtain ⟨-, n, hn⟩ := h.whole id hid
      rw [hkey, hn]
      exact List.pairwise_singleton _ _

theorem sound (h : AllocInv s out) : Sound s out := by
  refine ⟨fun a ha => ?_, pairwise_of_groups h.pairwise_outOf fun a ha b hb hne => ?_,
    fun id hid => (h.buddies id hid).1⟩
  · obtain ⟨hsize, id, hid, hk⟩ := h.owned a ha
    exact ⟨hsize, id, hid, hk, h.inside ha hid hk⟩
  · obtain ⟨-, id, hid, hk⟩ := h.owned a ha
    obtain ⟨-, id', hid', hk'⟩ := h.owned b hb
    have hids : id ≠ id' := by
      rintro rfl
      exact hne (hk.trans hk'.symm)
    exact (h.apart id hid id' hid' hids).mono (h.inside ha hid hk) (h.inside hb hid' hk')

/-- An allocation of at most the largest block size belongs to a buddy area, and a longer one is
a whole area. -/
theorem area_of (h : AllocInv s out) (ha : a ∈ out) :
    (a.mr.length ≤ buddySize (maxOrder - 1) ∧
        ∃ id ∈ s.areaList, a.mr.lkey = (s.areas id).mr.lkey) ∨
      (singleAreaSize ≤ a.mr.length ∧ ∃ id ∈ s.moreAreaList, a.mr = (s.areas id).mr ∧
        outOf out (s.areas id).mr.lkey = [a]) := by
  obtain ⟨-, id, hid, hk⟩ := h.owned a ha
  have hmem := mem_outOf.mpr ⟨ha, hk⟩
  rcases List.mem_append.mp hid with hid | hid
  · obtain ⟨i, hi, hp⟩ := (h.buddies id hid).1.out a.mr.span (List.mem_map_of_mem hmem)
    have hlen : a.mr.length = buddySize i := hp.1
    exact .inl ⟨hlen ▸ buddySize_le hi, id, hid, hk⟩
  · obtain ⟨hlen, n, hn⟩ := h.whole id hid
    rw [hn, List.mem_singleton] at hmem
    subst hmem
    exact .inr ⟨hlen, id, hid, rfl, hn⟩

/-- The search by key finds the area. -/
theorem findArea (h : AllocInv s out) {list : List AreaId} {mr : IbvMr} (hsub : list ⊆ s.ids)
    (hid : id ∈ list) (hk : mr.lkey = (s.areas id).mr.lkey) :
    s.findArea list mr = some id := by
  unfold Server.findArea
  cases hf : list.find? fun id => mr.lkey = (s.areas id).mr.lkey with
  | none =>
    have := List.find?_eq_none.mp hf id hid
    simp [hk] at this
  | some id' =>
    have hk' : mr.lkey = (s.areas id').mr.lkey := by simpa using List.find?_some hf
    have hid' := hsub (List.mem_of_find?_eq_some hf)
    rw [h.lkey id' hid' id (hsub hid) (hk'.symm.trans hk)]

end AllocInv

end DhmpFs
