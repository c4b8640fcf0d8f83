import DhmpFs.Library.Linked
import DhmpFs.Library.Run

/-!
# The lists of `list.h`

A `list_head` is embedded in every entry, and one more is the head of the list. The functions only
ever see pointers; which entries a list has, and in which order, is in the links alone. The lists of
works, areas, free blocks, cache pages and inodes are all of this kind.

Left out: the functions of `list.h` that nothing calls, and `list_entry`, which only subtracts the
place of the member.

## Main definitions

* `ListHeads`: the memory of all `list_head`s.
* `ListOp`: what is done with lists.
* `AreLists`: the memory has the lists.
-/

namespace DhmpFs

open Library

/-- `struct list_head *` -/
abbrev ListPtr := Nat

/-- The two links in every `list_head`. -/
structure ListHeads where
  next : ListPtr → ListPtr
  prev : ListPtr → ListPtr

def listPoison1 : ListPtr := 0x00100100

def listPoison2 : ListPtr := 0x00200200

namespace ListHeads

def setNext (h : ListHeads) (p value : ListPtr) : ListHeads :=
  { h with next := Function.update h.next p value }

def setPrev (h : ListHeads) (p value : ListPtr) : ListHeads :=
  { h with prev := Function.update h.prev p value }

def initListHead (h : ListHeads) (list : ListPtr) : ListHeads :=
  (h.setNext list list).setPrev list list

/-- `__list_add` -/
def listAddBetween (h : ListHeads) (new prev next : ListPtr) : ListHeads :=
  (((h.setPrev next new).setNext new next).setPrev new prev).setNext prev new

def listAdd (h : ListHeads) (new head : ListPtr) : ListHeads :=
  h.listAddBetween new head (h.next head)

def listAddTail (h : ListHeads) (new head : ListPtr) : ListHeads :=
  h.listAddBetween new (h.prev head) head

/-- `__list_del` -/
def listDelBetween (h : ListHeads) (prev next : ListPtr) : ListHeads :=
  (h.setPrev next prev).setNext prev next

/-- `__list_del_entry` -/
def listDelEntry (h : ListHeads) (entry : ListPtr) : ListHeads :=
  h.listDelBetween (h.prev entry) (h.next entry)

def listDel (h : ListHeads) (entry : ListPtr) : ListHeads :=
  ((h.listDelBetween (h.prev entry) (h.next entry)).setNext entry listPoison1).setPrev entry
    listPoison2

def listMove (h : ListHeads) (list head : ListPtr) : ListHeads :=
  (h.listDelEntry list).listAdd list head

def listEmpty (h : ListHeads) (head : ListPtr) : Bool := h.next head = head

def listEmptyCareful (h : ListHeads) (head : ListPtr) : Bool :=
  let next := h.next head
  next = head && next = h.prev head

def listFirstEntry (h : ListHeads) (head : ListPtr) : ListPtr := h.next head

def listPrevEntry (h : ListHeads) (pos : ListPtr) : ListPtr := h.prev pos

/-- The entries that the loop `list_for_each_entry` visits; `none` if it takes more steps. -/
def listForEachEntry (h : ListHeads) (head : ListPtr) (fuel : Nat) : Option (List ListPtr) :=
  follow h.next head fuel (h.listFirstEntry head)

def listForEachEntryReverse (h : ListHeads) (head : ListPtr) (fuel : Nat) :
    Option (List ListPtr) :=
  follow h.prev head fuel (h.prev head)

/-! ### Links after an operation -/

section

variable (h : ListHeads) (new prev next entry head x : ListPtr)

theorem listAddBetween_next : (h.listAddBetween new prev next).next x =
    if x = prev then new else if x = new then next else h.next x := by
  simp [listAddBetween, setNext, setPrev, Function.update_apply]

theorem listAddBetween_prev : (h.listAddBetween new prev next).prev x =
    if x = new then prev else if x = next then new else h.prev x := by
  simp [listAddBetween, setNext, setPrev, Function.update_apply]

theorem listDelEntry_next : (h.listDelEntry entry).next x =
    if x = h.prev entry then h.next entry else h.next x := by
  simp [listDelEntry, listDelBetween, setNext, setPrev, Function.update_apply]

theorem listDelEntry_prev : (h.listDelEntry entry).prev x =
    if x = h.next entry then h.prev entry else h.prev x := by
  simp [listDelEntry, listDelBetween, setNext, setPrev, Function.update_apply]

theorem listDel_next : (h.listDel entry).next x =
    if x = entry then listPoison1 else (h.listDelEntry entry).next x := by
  simp [listDel, listDelEntry, setNext, setPrev, Function.update_apply]

theorem listDel_prev : (h.listDel entry).prev x =
    if x = entry then listPoison2 else (h.listDelEntry entry).prev x := by
  simp [listDel, listDelEntry, setNext, setPrev, Function.update_apply]

end

/-! ### A loop that may delete -/

/-- The rounds of `list_for_each_entry_safe` with the variables `pos` and `n`. -/
def safeRounds (body : ListHeads → ListPtr → ListHeads) (head : ListPtr) :
    Nat → ListHeads → ListPtr → ListPtr → Option (ListHeads × List ListPtr)
  | 0, _, _, _ => none
  | fuel + 1, h, pos, n =>
    if pos = head then some (h, [])
    else
      let h := body h pos
      (safeRounds body head fuel h n (h.next n)).map fun (h, visited) => (h, pos :: visited)

def listForEachEntrySafe (body : ListHeads → ListPtr → ListHeads) (h : ListHeads)
    (head : ListPtr) (fuel : Nat) : Option (ListHeads × List ListPtr) :=
  let pos := h.listFirstEntry head
  safeRounds body head fuel h pos (h.next pos)

end ListHeads

/-! ## Lists -/

/-- The lists by their heads. -/
abbrev Lists := ListPtr → Option (List ListPtr)

/-- The head or an entry of a list. -/
def Lists.InUse (lists : Lists) (p : ListPtr) : Prop :=
  ∃ head l, lists head = some l ∧ p ∈ head :: l

/-- Every list is a ring, and no two have a `list_head` in common. -/
structure AreLists (h : ListHeads) (lists : Lists) : Prop where
  ring : ∀ head l, lists head = some l → Ring h.next h.prev head l
  apart : ∀ head l head' l' p, lists head = some l → lists head' = some l' → p ∈ head :: l →
    p ∈ head' :: l' → head = head'

inductive ListOp where
  | init (list : ListPtr)
  | add (new head : ListPtr)
  | addTail (new head : ListPtr)
  | del (entry : ListPtr)
  | move (list head : ListPtr)

/-- What is put in a list is in no list, and what is taken out is in one. -/
inductive ListStep : ListHeads × Lists → ListOp → ListHeads × Lists → Prop
  | init {h : ListHeads} {lists : Lists} {list : ListPtr} (unused : ¬ lists.InUse list) :
    ListStep (h, lists) (.init list)
      (h.initListHead list, Function.update lists list (some []))
  | add {h : ListHeads} {lists : Lists} {new head : ListPtr} {l : List ListPtr}
    (list : lists head = some l) (unused : ¬ lists.InUse new) :
    ListStep (h, lists) (.add new head)
      (h.listAdd new head, Function.update lists head (some (new :: l)))
  | addTail {h : ListHeads} {lists : Lists} {new head : ListPtr} {l : List ListPtr}
    (list : lists head = some l) (unused : ¬ lists.InUse new) :
    ListStep (h, lists) (.addTail new head)
      (h.listAddTail new head, Function.update lists head (some (l ++ [new])))
  | del {h : ListHeads} {lists : Lists} {entry head : ListPtr} {l : List ListPtr}
    (list : lists head = some l) (entry_mem : entry ∈ l) :
    ListStep (h, lists) (.del entry)
      (h.listDel entry, Function.update lists head (some (l.erase entry)))
  | move {h : ListHeads} {lists rest : Lists} {entry source head : ListPtr} {l l' : List ListPtr}
    (list : lists source = some l) (entry_mem : entry ∈ l)
    (taken : rest = Function.update lists source (some (l.erase entry)))
    (target : rest head = some l') :
    ListStep (h, lists) (.move entry head)
      (h.listMove entry head, Function.update rest head (some (entry :: l')))

namespace AreLists

variable {h h' : ListHeads} {lists : Lists} {head new entry p : ListPtr} {l l' : List ListPtr}

theorem empty (h : ListHeads) : AreLists h fun _ => none := by
  constructor <;> simp

/-- One list changes, with the links of its own `list_head`s and of a new one. -/
theorem update (ok : AreLists h lists) (hring : Ring h'.next h'.prev head l')
    (hin : ∀ p ∈ head :: l', lists.InUse p → ∃ l, lists head = some l ∧ p ∈ head :: l)
    (hsame : ∀ other l, other ≠ head → lists other = some l → ∀ p ∈ other :: l,
      h'.next p = h.next p ∧ h'.prev p = h.prev p) :
    AreLists h' (Function.update lists head (some l')) := by
  have hlists : ∀ other l₁, Function.update lists head (some l') other = some l₁ →
      (other = head ∧ l₁ = l') ∨ (other ≠ head ∧ lists other = some l₁) := by
    intro other l₁ ho
    by_cases heq : other = head
    · subst heq
      exact .inl ⟨rfl, by simpa using ho.symm⟩
    · exact .inr ⟨heq, by simpa [heq] using ho⟩
  -- an entry of the changed list is in no other list
  have hother : ∀ other l₁ p, other ≠ head → lists other = some l₁ → p ∈ head :: l' →
      p ∈ other :: l₁ → False := by
    intro other l₁ p hne ho hp hp'
    obtain ⟨l, hl, hmem⟩ := hin p hp ⟨other, l₁, ho, hp'⟩
    exact hne (ok.apart other l₁ head l p ho hl hp' hmem)
  constructor
  · intro other l₁ ho
    rcases hlists other l₁ ho with ⟨rfl, rfl⟩ | ⟨hne, ho⟩
    · exact hring
    · exact (ok.ring other l₁ ho).frame (hsame other l₁ hne ho)
  · intro a la b lb p ha hb hpa hpb
    rcases hlists a la ha with ⟨rfl, rfl⟩ | ⟨hna, ha⟩
    · rcases hlists b lb hb with ⟨rfl, rfl⟩ | ⟨hnb, hb⟩
      · rfl
      · exact (hother b lb p hnb hb hpa hpb).elim
    · rcases hlists b lb hb with ⟨heq, hlb⟩ | ⟨hnb, hb⟩
      · rw [heq, hlb] at hpb
        exact (hother a la p hna ha hpb hpa).elim
      · exact ok.apart a la b lb p ha hb hpa hpb

theorem init (ok : AreLists h lists) (unused : ¬ lists.InUse p) :
    AreLists (h.initListHead p) (Function.update lists p (some [])) := by
  apply ok.update
  · constructor
    · simp [Linked, ListHeads.initListHead, ListHeads.setNext, ListHeads.setPrev]
    · simp
  · intro q hq huse
    obtain rfl : q = p := by simpa using hq
    exact absurd huse unused
  · intro other l hne ho q hq
    have hqp : q ≠ p := by
      rintro rfl
      exact unused ⟨other, l, ho, hq⟩
    simp [ListHeads.initListHead, ListHeads.setNext, ListHeads.setPrev, hqp]

/-- Links of other lists stay when links change next to an entry of this one. -/
theorem same (ok : AreLists h lists) (hl : lists head = some l) {other : ListPtr}
    {l₁ : List ListPtr} (hne : other ≠ head) (ho : lists other = some l₁) {q : ListPtr}
    (hq : q ∈ other :: l₁) : ∀ p ∈ head :: l, q ≠ p := by
  rintro p hp rfl
  exact hne (ok.apart other l₁ head l q ho hl hq hp)

theorem not_mem (unused : ¬ lists.InUse new) (hl : lists head = some l) : new ∉ head :: l :=
  fun hmem => unused ⟨head, l, hl, hmem⟩

/-- A new entry between two neighbours in a list. -/
theorem addBetween (ok : AreLists h lists) (hl : lists head = some l)
    (unused : ¬ lists.InUse new) {prev next : ListPtr} (hprev : prev ∈ head :: l)
    (hnext : next ∈ head :: l)
    (hring : Ring (h.listAddBetween new prev next).next (h.listAddBetween new prev next).prev
      head l') (hmem : ∀ p ∈ l', p = new ∨ p ∈ l) :
    AreLists (h.listAddBetween new prev next) (Function.update lists head (some l')) := by
  apply ok.update hring
  · intro p hp huse
    refine ⟨l, hl, ?_⟩
    rcases List.mem_cons.mp hp with rfl | hp
    · exact List.mem_cons_self
    · rcases hmem p hp with rfl | hp
      · exact absurd huse unused
      · exact List.mem_cons_of_mem head hp
  · intro other l₁ hne ho q hq
    have hsep := ok.same hl hne ho hq
    have hqn : q ≠ new := by
      rintro rfl
      exact unused ⟨other, l₁, ho, hq⟩
    rw [ListHeads.listAddBetween_next, ListHeads.listAddBetween_prev]
    simp [hqn, hsep prev hprev, hsep next hnext]

theorem add (ok : AreLists h lists) (hl : lists head = some l) (unused : ¬ lists.InUse new) :
    AreLists (h.listAdd new head) (Function.update lists head (some (new :: l))) := by
  have hring := ok.ring head l hl
  have hnew := not_mem unused hl
  have hnext : h.next head ∈ head :: l := hring.next_mem List.mem_cons_self
  apply ok.addBetween hl unused List.mem_cons_self hnext
  · apply hring.push hnew <;>
      grind [ListHeads.listAddBetween_next, ListHeads.listAddBetween_prev]
  · simp

theorem addTail (ok : AreLists h lists) (hl : lists head = some l) (unused : ¬ lists.InUse new) :
    AreLists (h.listAddTail new head) (Function.update lists head (some (l ++ [new]))) := by
  have hring := ok.ring head l hl
  have hnew := not_mem unused hl
  have hprev : h.prev head ∈ head :: l := hring.prev_mem List.mem_cons_self
  apply ok.addBetween hl unused hprev List.mem_cons_self
  · apply hring.pushBack hnew <;>
      grind [ListHeads.listAddBetween_next, ListHeads.listAddBetween_prev]
  · grind

/-- An entry leaves its list; its own links may be anything. -/
theorem remove (ok : AreLists h lists) (hl : lists head = some l) (hentry : entry ∈ l)
    (hn : ∀ x, x ≠ entry → h'.next x = (h.listDelEntry entry).next x)
    (hp : ∀ x, x ≠ entry → h'.prev x = (h.listDelEntry entry).prev x) :
    AreLists h' (Function.update lists head (some (l.erase entry))) ∧
      ¬ Lists.InUse (Function.update lists head (some (l.erase entry))) entry := by
  have hring := ok.ring head l hl
  have hmem : entry ∈ head :: l := List.mem_cons_of_mem head hentry
  have hprev := hring.prev_mem hmem
  have hnext := hring.next_mem hmem
  have hnodup := List.nodup_cons.mp hring.nodup
  have hgone : entry ∉ head :: l.erase entry := by
    intro hin
    rcases List.mem_cons.mp hin with rfl | hin
    · exact hnodup.1 hentry
    · exact (hnodup.2.mem_erase_iff.mp hin).1 rfl
  have hne := hring.neighbours_ne hentry
  have hok : AreLists h' (Function.update lists head (some (l.erase entry))) := by
    apply ok.update
    · apply hring.remove hentry <;>
        grind [ListHeads.listDelEntry_next, ListHeads.listDelEntry_prev]
    · intro p hp _
      refine ⟨l, hl, ?_⟩
      rcases List.mem_cons.mp hp with rfl | hp
      · exact List.mem_cons_self
      · exact List.mem_cons_of_mem head (List.mem_of_mem_erase hp)
    · intro other l₁ hother ho q hq
      have hsep := ok.same hl hother ho hq
      rw [hn q (hsep entry hmem), hp q (hsep entry hmem), ListHeads.listDelEntry_next,
        ListHeads.listDelEntry_prev]
      simp [hsep _ hprev, hsep _ hnext]
  refine ⟨hok, ?_⟩
  rintro ⟨other, l₁, ho, hin⟩
  by_cases hother : other = head
  · subst hother
    obtain rfl : l.erase entry = l₁ := by simpa using ho
    exact hgone hin
  · rw [Function.update_of_ne hother] at ho
    exact ok.same hl hother ho hin entry hmem rfl

theorem del (ok : AreLists h lists) (hl : lists head = some l) (hentry : entry ∈ l) :
    AreLists (h.listDel entry) (Function.update lists head (some (l.erase entry))) := by
  apply (ok.remove hl hentry _ _).1
  · intro x hx
    rw [ListHeads.listDel_next, if_neg hx]
  · intro x hx
    rw [ListHeads.listDel_prev, if_neg hx]

theorem move (ok : AreLists h lists) {source : ListPtr} (hl : lists source = some l)
    (hentry : entry ∈ l)
    (htarget : Function.update lists source (some (l.erase entry)) head = some l') :
    AreLists (h.listMove entry head) (Function.update
      (Function.update lists source (some (l.erase entry))) head (some (entry :: l'))) := by
  obtain ⟨hok, hunused⟩ := ok.remove hl hentry (fun _ _ => rfl) fun _ _ => rfl
  exact hok.add htarget hunused

theorem step {op : ListOp} {lists' : Lists} (ok : AreLists h lists)
    (hs : ListStep (h, lists) op (h', lists')) : AreLists h' lists' := by
  cases hs with
  | init unused => exact ok.init unused
  | add list unused => exact ok.add list unused
  | addTail list unused => exact ok.addTail list unused
  | del list mem => exact ok.del list mem
  | move list mem taken target =>
    subst taken
    exact ok.move list mem target

/-! ## Loops -/

/-- `list_for_each_entry_safe` with a body that deletes some entries: every entry is visited, and
those that are not deleted are left. -/
theorem safeRounds (del : ListPtr → Bool) (r : List ListPtr) :
    ∀ (kept : List ListPtr) (h : ListHeads) (lists : Lists) (fuel : Nat), AreLists h lists →
      lists head = some (kept ++ r) → r.length < fuel →
      ∃ h', ListHeads.safeRounds (fun h pos => if del pos then h.listDel pos else h) head fuel h
          (r.headD head) (h.next (r.headD head)) = some (h', r) ∧
        AreLists h' (Function.update lists head (some (kept ++ r.filter fun p => !del p))) := by
  induction r with
  | nil =>
    intro kept h lists fuel ok hl hfuel
    obtain ⟨n, rfl⟩ := Nat.exists_eq_add_of_lt hfuel
    refine ⟨h, by simp [ListHeads.safeRounds], ?_⟩
    have hsame : Function.update lists head (some (kept ++ [].filter fun p => !del p)) = lists := by
      rw [List.filter_nil, ← hl, Function.update_eq_self]
    rw [hsame]
    exact ok
  | cons x r ih =>
    intro kept h lists fuel ok hl hfuel
    obtain ⟨n, rfl⟩ : ∃ n, fuel = n + 1 := ⟨fuel - 1, by omega⟩
    have hn : r.length < n := by simpa using hfuel
    have hring := ok.ring head _ hl
    have hx : x ≠ head := by
      have := (List.nodup_cons.mp hring.nodup).1
      grind
    have hnext : h.next x = r.headD head := by
      have hlinked := (Linked.append.mp hring.linked).2.next_eq
      cases r with
      | nil => simpa using hlinked
      | cons y r => simpa using hlinked
    have hround : ∀ {h₁ h' : ListHeads}, (if del x then h.listDel x else h) = h₁ →
        ListHeads.safeRounds (fun h pos => if del pos then h.listDel pos else h) head n h₁
          (r.headD head) (h₁.next (r.headD head)) = some (h', r) →
        ListHeads.safeRounds (fun h pos => if del pos then h.listDel pos else h) head (n + 1) h
          ((x :: r).headD head) (h.next ((x :: r).headD head)) = some (h', x :: r) := by
      intro h₁ h' hbody hrest
      rw [List.headD_cons, ListHeads.safeRounds, if_neg hx]
      simp only [hbody, hnext, hrest, Option.map_some]
    by_cases hdel : del x
    · have hmem : x ∈ kept ++ x :: r := by simp
      have herase : (kept ++ x :: r).erase x = kept ++ r := by
        have := (List.nodup_cons.mp hring.nodup).2
        rw [List.erase_append_right _ (by grind), List.erase_cons_head]
      have hok := ok.del hl hmem
      rw [herase] at hok
      obtain ⟨h', hrest, hok'⟩ := ih kept (h.listDel x) _ n hok (Function.update_self ..) hn
      refine ⟨h', hround (by rw [if_pos hdel]) hrest, ?_⟩
      rw [Function.update_idem] at hok'
      simpa [hdel] using hok'
    · have hl' : lists head = some ((kept ++ [x]) ++ r) := by simpa using hl
      obtain ⟨h', hrest, hok'⟩ := ih (kept ++ [x]) h lists n ok hl' hn
      refine ⟨h', hround (by rw [if_neg hdel]) hrest, ?_⟩
      simpa [hdel] using hok'

end AreLists

/-! ## Runs -/

/-- What the functions that do not change a list say of the list `l`, and what a loop leaves. -/
structure ReadsList (h : ListHeads) (lists : Lists) (head : ListPtr) (l : List ListPtr) :
    Prop where
  empty : h.listEmpty head = l.isEmpty
  emptyCareful : h.listEmptyCareful head = l.isEmpty
  first : h.listFirstEntry head = l.headD head
  last : h.listPrevEntry head = l.getLastD head
  forEach : ∀ fuel, l.length < fuel → h.listForEachEntry head fuel = some l
  forEachReverse : ∀ fuel, l.length < fuel →
    h.listForEachEntryReverse head fuel = some l.reverse
  forEachSafe : ∀ (del : ListPtr → Bool) (fuel : Nat), l.length < fuel →
    ∃ h', ListHeads.listForEachEntrySafe (fun h pos => if del pos then h.listDel pos else h) h
        head fuel = some (h', l) ∧
      AreLists h' (Function.update lists head (some (l.filter fun p => !del p)))

theorem AreLists.reads {h : ListHeads} {lists : Lists} {head : ListPtr} {l : List ListPtr}
    (ok : AreLists h lists) (hl : lists head = some l) : ReadsList h lists head l := by
  have hring := ok.ring head l hl
  have hhead : head ∉ l := (List.nodup_cons.mp hring.nodup).1
  have hfirst : h.next head = l.headD head := by
    have := hring.linked.next_eq
    cases l with
    | nil => simpa using this
    | cons x l => simpa using this
  have hlast : h.prev head = l.getLastD head := by
    have := hring.reverse.linked.next_eq
    rw [this, List.getLastD_eq_getLast?, ← List.head?_reverse]
    cases l.reverse with
    | nil => rfl
    | cons x l => rfl
  have hnext : h.next head = head ↔ l = [] := hring.empty_iff
  have hprev : h.prev head = head ↔ l = [] := by
    simpa using hring.reverse.empty_iff
  constructor
  · by_cases hnil : l = [] <;> simp [ListHeads.listEmpty, hnext, hnil]
  · by_cases hnil : l = []
    · simp [ListHeads.listEmptyCareful, hnext.mpr hnil, hprev.mpr hnil, hnil]
    · simp [ListHeads.listEmptyCareful, hnext, hnil]
  · exact hfirst
  · exact hlast
  · intro fuel hfuel
    exact hring.linked.follow_eq hhead hfuel
  · intro fuel hfuel
    apply hring.reverse.linked.follow_eq
    · simpa using hhead
    · simpa using hfuel
  · intro del fuel hfuel
    obtain ⟨h', hrun, hok⟩ := AreLists.safeRounds del l [] h lists fuel ok hl hfuel
    refine ⟨h', ?_, hok⟩
    rw [← hfirst] at hrun
    exact hrun

/-- In every run, with any number of lists, every list reads as the list that the operations
make. -/
theorem listHead_run {h₀ h : ListHeads} {lists : Lists} {ops : List ListOp}
    (run : Run ListStep (h₀, fun _ => none) ops (h, lists)) {head : ListPtr} {l : List ListPtr}
    (hl : lists head = some l) : ReadsList h lists head l := by
  have inv : AreLists h lists := by
    apply run.invariant (fun s => AreLists s.1 s.2) _ (.empty h₀)
    rintro ⟨h, lists⟩ op ⟨h', lists'⟩ ok hs
    exact ok.step hs
  exact inv.reads hl

/-- Two entries change places. -/
theorem listHead_run_move : ∃ h lists, ReadsList h lists 1 [3, 2] := by
  have unused : ∀ p, ¬ Lists.InUse (fun _ => none) p := by
    rintro p ⟨head, l, hl, -⟩
    cases hl
  have one : ∀ {p : ListPtr} {l : List ListPtr}, p ∉ 1 :: l →
      ¬ Lists.InUse (Function.update (fun _ => none) 1 (some l)) p := by
    rintro p l hp ⟨head, l', hl, hmem⟩
    by_cases heq : head = 1
    · subst heq
      obtain rfl : l = l' := by simpa using hl
      exact hp hmem
    · simp [heq] at hl
  have run : Run ListStep (⟨fun _ => 0, fun _ => 0⟩, fun _ => none)
      [.init 1, .addTail 2 1, .addTail 3 1, .move 3 1] _ :=
    .cons (.init (unused 1))
    (.cons (.addTail (Function.update_self ..) (one (by decide)))
    (.cons (.addTail (Function.update_self ..) (by
      rw [Function.update_idem]
      exact one (by decide)))
    (.single (.move (Function.update_self ..) (by decide) rfl (Function.update_self ..)))))
  exact ⟨_, _, listHead_run run (Function.update_self ..)⟩

end DhmpFs
