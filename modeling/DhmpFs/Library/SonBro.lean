import Mathlib.Data.List.Nodup
import Mathlib.Data.List.Basic
import Mathlib.Logic.Function.Basic
import Mathlib.Logic.Relation
import Mathlib.Tactic.Common

/-!
# Forests of son and brother pointers

A node points to its first son and to its next brother. `kids` gives the sons of every node as
a list; the pointers represent it when every list is the chain that starts at the first son.

## Main definitions

* `Chain`: a linked list that ends in a null pointer.
* `Forest`: the son and brother pointers represent `kids`, and no node has two fathers.
* `Below`: descent from father to son.
* `Listing`: the nodes of a forest in the order a recursive walk leaves them.
-/

namespace Library

variable {ι : Type*}

/-! ## Chains -/

/-- `l` is the linked list that starts at `p`. -/
def Chain (next : ι → Option ι) : Option ι → List ι → Prop
  | p, [] => p = none
  | p, i :: l => p = some i ∧ Chain next (next i) l

namespace Chain

variable {next next' : ι → Option ι} {p : Option ι} {l l' : List ι} {i j : ι}

@[simp] theorem nil_iff : Chain next p [] ↔ p = none := Iff.rfl

@[simp] theorem cons_iff : Chain next p (i :: l) ↔ p = some i ∧ Chain next (next i) l := Iff.rfl

@[simp] theorem none_iff : Chain next none l ↔ l = [] := by
  cases l <;> simp

theorem some_iff : Chain next (some i) l ↔ ∃ l', l = i :: l' ∧ Chain next (next i) l' := by
  cases l with
  | nil => simp
  | cons j l =>
    simp only [cons_iff, Option.some.injEq, List.cons.injEq]
    constructor
    · rintro ⟨rfl, h⟩
      exact ⟨l, ⟨rfl, rfl⟩, h⟩
    · rintro ⟨l', ⟨rfl, rfl⟩, h⟩
      exact ⟨rfl, h⟩

/-- A pointer starts at most one list. -/
theorem unique (h : Chain next p l) (h' : Chain next p l') : l = l' := by
  induction l generalizing p l' with
  | nil => simpa [nil_iff.mp h, eq_comm] using h'
  | cons i l ih =>
    obtain ⟨rfl, h⟩ := h
    obtain ⟨l'', rfl, ht⟩ := some_iff.mp h'
    rw [ih h ht]

theorem congr (h : Chain next p l) (hn : ∀ i ∈ l, next' i = next i) : Chain next' p l := by
  induction l generalizing p with
  | nil => exact h
  | cons i l ih =>
    refine ⟨h.1, ?_⟩
    rw [hn i (by simp)]
    exact ih h.2 fun j hj => hn j (by simp [hj])

/-- Unlink a node that has a predecessor in the chain. -/
theorem unlink [DecidableEq ι] {a b : List ι} (h : Chain next p (a ++ j :: i :: b))
    (hn : (a ++ j :: i :: b).Nodup) :
    Chain (Function.update next j (next i)) p (a ++ j :: b) := by
  induction a generalizing p with
  | nil =>
    obtain ⟨rfl, -, h⟩ := h
    refine ⟨rfl, ?_⟩
    rw [Function.update_self]
    refine h.congr fun k hk => Function.update_of_ne ?_ _ _
    rintro rfl
    simp [hk] at hn
  | cons k a ih =>
    obtain ⟨rfl, h⟩ := h
    obtain ⟨hk, hn⟩ := List.nodup_cons.mp hn
    have hne : k ≠ j := by
      rintro rfl
      simp at hk
    refine ⟨rfl, ?_⟩
    rw [Function.update_of_ne hne]
    exact ih h hn

end Chain

/-! ## Forests -/

/-- `i` lies in the forest below `d`. -/
abbrev Below (kids : ι → List ι) : ι → ι → Prop := Relation.TransGen fun d i => i ∈ kids d

/-- Son and brother pointers represent `kids`, where every node has one father at most and
every path down is finite. -/
structure Forest (son bro : ι → Option ι) (kids : ι → List ι) : Prop where
  chain : ∀ d, Chain bro (son d) (kids d)
  nodup : ∀ d, (kids d).Nodup
  father : ∀ d e i, i ∈ kids d → i ∈ kids e → d = e
  ranked : ∃ depth : ι → Nat, ∀ d, ∀ i ∈ kids d, depth i = depth d + 1

namespace Forest

variable {son bro : ι → Option ι} {kids : ι → List ι} {d e i j : ι}

theorem irrefl (h : Forest son bro kids) : ¬ Below kids i i := by
  obtain ⟨depth, hd⟩ := h.ranked
  have hlt : ∀ d i, Below kids d i → depth d < depth i := by
    intro d i hb
    induction hb with
    | single hm => rw [hd _ _ hm]; omega
    | tail _ hm ih => rw [hd _ _ hm]; omega
  exact fun hb => Nat.lt_irrefl _ (hlt i i hb)

/-- The chain above a node is linear. -/
theorem below_or_eq (h : Forest son bro kids) (hd : Below kids d i) (hi : i ∈ kids e) :
    d = e ∨ Below kids d e := by
  cases hd with
  | single hm => exact .inl (h.father _ _ _ hm hi)
  | tail hb hm => exact .inr (h.father _ _ _ hm hi ▸ hb)

/-- A son is not its father. -/
theorem son_ne (h : Forest son bro kids) (hi : i ∈ kids d) : i ≠ d := by
  rintro rfl
  exact h.irrefl (.single hi)

/-- What lies below a son of `d` is neither `d` nor a son of it. -/
theorem below_son (h : Forest son bro kids) (hj : j ∈ kids d) (hb : Below kids j i) :
    i ≠ d ∧ i ∉ kids d := by
  have hcycle : ¬ Below kids j d := fun hb => h.irrefl (hb.tail hj)
  constructor
  · rintro rfl
    exact hcycle hb
  · intro hi
    rcases h.below_or_eq hb hi with rfl | hb'
    · exact h.irrefl (.single hj)
    · exact hcycle hb'

/-- Two brothers have no descendant in common. -/
theorem brothers_disjoint (h : Forest son bro kids) (hi : i ∈ kids d) (hj : j ∈ kids d)
    (hne : i ≠ j) {k : ι} (hk : k = i ∨ Below kids i k) : ¬ (k = j ∨ Below kids j k) := by
  have hself : ∀ {i j}, i ∈ kids d → j ∈ kids d → ¬ Below kids i j := by
    intro i j hi hj hb
    rcases h.below_or_eq hb hj with rfl | hb'
    · exact h.irrefl (.single hi)
    · exact h.irrefl (Relation.TransGen.head hi hb')
  rcases hk with rfl | hk
  · rintro (rfl | hb)
    · exact hne rfl
    · exact hself hj hi hb
  rintro (rfl | hb)
  · exact hself hi hj hk
  induction hk with
  | single hm =>
    rcases h.below_or_eq hb hm with rfl | hb
    · exact hne rfl
    · exact hself hj hi hb
  | tail hk hm ih =>
    rcases h.below_or_eq hb hm with rfl | hb
    · exact hself hi hj hk
    · exact ih hb

/-! ### Updates -/

variable [DecidableEq ι]

/-- A new first son. -/
theorem insert (h : Forest son bro kids) {now : ι} (hk : kids now = [])
    (hf : ∀ d, now ∉ kids d) (hne : now ≠ d) :
    Forest (Function.update son d (some now)) (Function.update bro now (son d))
      (Function.update kids d (now :: kids d)) := by
  have hbro : ∀ e, Chain (Function.update bro now (son d)) (son e) (kids e) := by
    intro e
    refine (h.chain e).congr fun i hi => Function.update_of_ne ?_ _ _
    rintro rfl
    exact hf e hi
  constructor
  · intro e
    by_cases he : e = d
    · subst he
      simpa using hbro e
    · simpa [he] using hbro e
  · intro e
    by_cases he : e = d
    · subst he
      simpa [hf] using h.nodup e
    · simpa [he] using h.nodup e
  · intro e e' i hi hi'
    have hcase : ∀ e, i ∈ Function.update kids d (now :: kids d) e →
        (i = now ∧ e = d) ∨ i ∈ kids e := by
      intro e he
      by_cases hed : e = d
      · subst hed
        rw [Function.update_self, List.mem_cons] at he
        exact he.imp_left (⟨·, rfl⟩)
      · exact .inr (by simpa [hed] using he)
    rcases hcase e hi with ⟨rfl, rfl⟩ | hold <;> rcases hcase e' hi' with ⟨hin, rfl⟩ | hold'
    · rfl
    · exact absurd hold' (hf e')
    · exact absurd (hin ▸ hold) (hf e)
    · exact h.father _ _ _ hold hold'
  · obtain ⟨depth, hd⟩ := h.ranked
    refine ⟨Function.update depth now (depth d + 1), fun e i hi => ?_⟩
    have hen : e ≠ now ∨ i ∉ kids e := by
      by_cases he : e = now
      · exact .inr (by simp [he, hk])
      · exact .inl he
    by_cases he : e = d
    · subst he
      rw [Function.update_self, List.mem_cons] at hi
      rw [Function.update_of_ne hne.symm]
      rcases hi with rfl | hi
      · simp
      · rw [Function.update_of_ne, hd _ _ hi]
        rintro rfl
        exact hf e hi
    · rw [Function.update_of_ne he] at hi
      have hin : i ≠ now := by
        rintro rfl
        exact hf e hi
      rw [Function.update_of_ne hin, Function.update_of_ne (hen.resolve_right (· hi)), hd _ _ hi]

omit [DecidableEq ι] in
/-- Fewer sons, with pointers that represent them. -/
theorem sub {son' bro' : ι → Option ι} {kids' : ι → List ι} (h : Forest son bro kids)
    (chain : ∀ d, Chain bro' (son' d) (kids' d)) (hsub : ∀ d, (kids' d).Sublist (kids d)) :
    Forest son' bro' kids' where
  chain := chain
  nodup d := (h.nodup d).sublist (hsub d)
  father d e i hi hi' := h.father d e i ((hsub d).subset hi) ((hsub e).subset hi')
  ranked := by
    obtain ⟨depth, hd⟩ := h.ranked
    exact ⟨depth, fun d i hi => hd d i ((hsub d).subset hi)⟩

end Forest

/-! ## Recursive walks -/

/-- `l` lists the forest at `p` in the order in which a recursive walk leaves the nodes: the
sons of a node come before it, its brothers after it. -/
inductive Listing (son bro : ι → Option ι) : Option ι → List ι → Prop
  | nil : Listing son bro none []
  | node {i : ι} {l l' : List ι} : Listing son bro (son i) l → Listing son bro (bro i) l' →
      Listing son bro (some i) (l ++ i :: l')

namespace Forest

variable {son bro : ι → Option ι} {kids : ι → List ι}

/-- The listing of some brothers, given the listing below each of them. -/
theorem listing_brothers (h : Forest son bro kids) {d : ι}
    (below : ∀ i ∈ kids d, ∃ l, Listing son bro (son i) l ∧ l.Nodup ∧ ∀ k, k ∈ l ↔ Below kids i k)
    {p : Option ι} {js : List ι} (hc : Chain bro p js) (hsub : js.Sublist (kids d)) :
    ∃ l, Listing son bro p l ∧ l.Nodup ∧ ∀ k, k ∈ l ↔ ∃ j ∈ js, k = j ∨ Below kids j k := by
  induction js generalizing p with
  | nil =>
    obtain rfl := Chain.nil_iff.mp hc
    exact ⟨[], .nil, List.nodup_nil, by simp⟩
  | cons i js ih =>
    obtain ⟨rfl, hc⟩ := hc
    have hi : i ∈ kids d := hsub.subset (by simp)
    have hjs : js.Sublist (kids d) := (List.sublist_cons_self i js).trans hsub
    have hnodup := (h.nodup d).sublist hsub
    obtain ⟨l, hl, hn, hm⟩ := below i hi
    obtain ⟨l', hl', hn', hm'⟩ := ih hc hjs
    have hdisj : ∀ k, (k = i ∨ Below kids i k) → k ∉ l' := by
      intro k hk hk'
      obtain ⟨j, hj, hkj⟩ := (hm' k).mp hk'
      have hne : i ≠ j := by
        rintro rfl
        exact (List.nodup_cons.mp hnodup).1 hj
      exact h.brothers_disjoint hi (hjs.subset hj) hne hk hkj
    refine ⟨l ++ i :: l', .node hl hl', ?_, fun k => ?_⟩
    · rw [List.nodup_append', List.nodup_cons]
      refine ⟨hn, ⟨hdisj i (.inl rfl), hn'⟩, fun k hk hk' => ?_⟩
      have hb := (hm k).mp hk
      rcases List.mem_cons.mp hk' with rfl | hk'
      · exact h.irrefl hb
      · exact hdisj k (.inr hb) hk'
    · simp only [List.mem_append, List.mem_cons, hm, hm', exists_eq_or_imp, or_assoc]
      exact or_left_comm

/-- Below every node of a finite forest there is a listing, with every descendant once. -/
theorem exists_listing (h : Forest son bro kids)
    (finite : ∀ depth : ι → Nat, ∃ D, ∀ d, ∀ i ∈ kids d, depth i ≤ D) (d : ι) :
    ∃ l, Listing son bro (son d) l ∧ l.Nodup ∧ ∀ k, k ∈ l ↔ Below kids d k := by
  obtain ⟨depth, hd⟩ := h.ranked
  obtain ⟨D, hD⟩ := finite depth
  -- induction on how far the node can be from the deepest ones
  induction hgap : D - depth d using Nat.strongRecOn generalizing d with
  | _ gap ih =>
    have below : ∀ i ∈ kids d,
        ∃ l, Listing son bro (son i) l ∧ l.Nodup ∧ ∀ k, k ∈ l ↔ Below kids i k := by
      intro i hi
      have h1 := hd d i hi
      have h2 := hD d i hi
      exact ih (D - depth i) (by omega) i rfl
    obtain ⟨l, hl, hn, hm⟩ := h.listing_brothers below (h.chain d) (List.Sublist.refl _)
    refine ⟨l, hl, hn, fun k => (hm k).trans ?_⟩
    constructor
    · rintro ⟨j, hj, rfl | hb⟩
      · exact .single hj
      · exact .head hj hb
    · intro hb
      rcases Relation.TransGen.head'_iff.mp hb with ⟨j, hj, hb⟩
      exact ⟨j, hj, (Relation.reflTransGen_iff_eq_or_transGen.mp hb).imp id id⟩

end Forest

end Library
