import DhmpFs.Library.SonBro
import Mathlib.Data.List.Induction
import Mathlib.Data.List.Infix

/-!
# Paths of names in a forest

The nodes of a forest carry names. A path is the list of names met on the way down from a root.

## Main definitions

* `PathTo`: a path leads to a node.
-/

namespace Library

variable {ι N : Type*}

/-- `p` leads from `root` to a node: every step goes to a son and is labelled by its name. -/
inductive PathTo (kids : ι → List ι) (name : ι → N) (root : ι) : List N → ι → Prop where
  | root : PathTo kids name root [] root
  | son {p : List N} {d i : ι} : PathTo kids name root p d → i ∈ kids d →
      PathTo kids name root (p ++ [name i]) i

namespace PathTo

variable {kids kids' : ι → List ι} {name name' : ι → N} {root : ι} {p q : List N} {c : N}
  {d i j : ι}

@[simp] theorem nil_iff : PathTo kids name root [] i ↔ i = root := by
  refine ⟨fun h => ?_, by rintro rfl; exact .root⟩
  generalize hp : ([] : List N) = p at h
  cases h with
  | root => rfl
  | son => simp at hp

theorem snoc_iff : PathTo kids name root (p ++ [c]) i ↔
    ∃ d, PathTo kids name root p d ∧ i ∈ kids d ∧ name i = c := by
  refine ⟨fun h => ?_, by rintro ⟨d, hd, hi, rfl⟩; exact .son hd hi⟩
  generalize hp : p ++ [c] = p' at h
  cases h with
  | root => simp at hp
  | son hd hi =>
    obtain ⟨rfl, rfl⟩ : p = _ ∧ c = _ := by simpa using hp
    exact ⟨_, hd, hi, rfl⟩

/-- Where brothers have distinct names a path leads to one node at most. -/
theorem node_unique (hn : ∀ d, ((kids d).map name).Nodup) (hi : PathTo kids name root p i)
    (hj : PathTo kids name root p j) : i = j := by
  induction hi generalizing j with
  | root => exact (nil_iff.mp hj).symm
  | son _ hi ih =>
    obtain ⟨e, he, hj, heq⟩ := snoc_iff.mp hj
    obtain rfl := ih he
    exact List.inj_on_of_nodup_map (hn _) hi hj heq.symm

/-- Where nodes have one father at most a node is at the end of one path at most. -/
theorem path_unique (hf : ∀ d e i, i ∈ kids d → i ∈ kids e → d = e) (hr : ∀ d, root ∉ kids d)
    (hp : PathTo kids name root p i) (hq : PathTo kids name root q i) : p = q := by
  induction hp generalizing q with
  | root =>
    cases hq with
    | root => rfl
    | son _ hi => exact absurd hi (hr _)
  | son _ hi ih =>
    cases hq with
    | root => exact absurd hi (hr _)
    | son he hi' =>
      obtain rfl := hf _ _ _ hi hi'
      rw [ih he]

/-- Descent is extension of the path. -/
theorem prefix_iff (hn : ∀ d, ((kids d).map name).Nodup)
    (hf : ∀ d e i, i ∈ kids d → i ∈ kids e → d = e) (hr : ∀ d, root ∉ kids d)
    (hd : PathTo kids name root p d) (hi : PathTo kids name root q i) :
    p <+: q ↔ i = d ∨ Below kids d i := by
  constructor
  · rintro ⟨r, rfl⟩
    induction r using List.reverseRecOn generalizing i with
    | nil =>
      rw [List.append_nil] at hi
      exact .inl (hi.node_unique hn hd)
    | append_singleton r c ih =>
      rw [← List.append_assoc] at hi
      obtain ⟨e, he, hk, -⟩ := snoc_iff.mp hi
      rcases ih he with rfl | hb
      · exact .inr (.single hk)
      · exact .inr (hb.tail hk)
  · rintro (rfl | hb)
    · rw [hd.path_unique hf hr hi]
    · induction hb generalizing q with
      | single hk => rw [hi.path_unique hf hr (.son hd hk)]; exact List.prefix_append _ _
      | tail hb hk ih =>
        cases hi with
        | root => exact absurd hk (hr _)
        | son he hk' =>
          obtain rfl := hf _ _ _ hk hk'
          exact (ih he).trans (List.prefix_append _ _)

theorem mono (hk : ∀ d, kids d ⊆ kids' d) (hn : ∀ d, ∀ i ∈ kids d, name' i = name i)
    (h : PathTo kids name root p i) : PathTo kids' name' root p i := by
  induction h with
  | root => exact .root
  | son _ hi ih =>
    rw [← hn _ _ hi]
    exact .son ih (hk _ hi)

/-- Without the nodes of `l`, which have no sons outside `l`, the other nodes keep their
paths. -/
theorem remove_iff {l : List ι} (hk : ∀ d i, i ∈ kids' d ↔ i ∈ kids d ∧ i ∉ l)
    (hn : ∀ i, i ∉ l → name' i = name i) (hl : ∀ d ∈ l, ∀ i ∈ kids d, i ∈ l) (hr : root ∉ l) :
    PathTo kids' name' root p i ↔ PathTo kids name root p i ∧ i ∉ l := by
  constructor
  · intro h
    induction h with
    | root => exact ⟨.root, hr⟩
    | son _ hi ih =>
      obtain ⟨hi, hil⟩ := (hk _ _).mp hi
      rw [hn _ hil]
      exact ⟨.son ih.1 hi, hil⟩
  · rintro ⟨h, hil⟩
    induction h with
    | root => exact .root
    | @son p d i _ hi ih =>
      rw [← hn _ hil]
      exact .son (ih fun hd => hil (hl d hd i hi)) ((hk _ _).mpr ⟨hi, hil⟩)

/-- A new first son of `d` adds its own path and no other. -/
theorem insert_iff [DecidableEq ι] {now : ι} (hnow : ∀ e, now ∉ kids e) (hkids : kids now = [])
    (hr : now ≠ root) (hd : now ≠ d) :
    PathTo (Function.update kids d (now :: kids d)) (Function.update name now c) root p i ↔
      PathTo kids name root p i ∨ i = now ∧ ∃ q, p = q ++ [c] ∧ PathTo kids name root q d := by
  have hname : ∀ e, ∀ j ∈ kids e, Function.update name now c j = name j := by
    intro e j hj
    refine Function.update_of_ne ?_ _ _
    rintro rfl
    exact hnow e hj
  have hold : ∀ {p i}, PathTo kids name root p i →
      PathTo (Function.update kids d (now :: kids d)) (Function.update name now c) root p i := by
    intro p i h
    refine h.mono (fun e => ?_) hname
    by_cases he : e = d
    · subst he; simp
    · simp [he]
  constructor
  · intro h
    induction h with
    | root => exact .inl .root
    | @son p e i _ hi ih =>
      -- the father is an old node: the new one has no sons
      have he : e ≠ now := by
        rintro rfl
        simp [Function.update_of_ne hd, hkids] at hi
      have hp := ih.resolve_right fun hnew => he hnew.1
      by_cases hed : e = d
      · subst hed
        rw [Function.update_self, List.mem_cons] at hi
        rcases hi with rfl | hi
        · exact .inr ⟨rfl, p, by simp, hp⟩
        · exact .inl (hname e i hi ▸ .son hp hi)
      · rw [Function.update_of_ne hed] at hi
        exact .inl (hname e i hi ▸ .son hp hi)
  · rintro (h | ⟨rfl, q, rfl, hq⟩)
    · exact hold h
    · exact snoc_iff.mpr ⟨d, hold hq, by simp, by simp⟩

end PathTo

end Library
