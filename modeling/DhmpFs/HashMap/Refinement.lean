import DhmpFs.HashMap.Operations
import DhmpFs.Library.Run
import Mathlib.Data.Set.Card
import Mathlib.Data.Nat.Digits.Defs

/-!
# The hash map is a finite map from strings

Calls arrive in any order and memory may change between them, as long as the strings the
stored keys point to stay as they are. The abstract map is the history itself: the value of
a string is the one of the last `put` not followed by a `remove`.
-/

namespace DhmpFs.HashMap

open Library

variable {K V : Type}

/-- A call that changes the map. A probe key is given by its content. -/
inductive Call (K V : Type) where
  | put (key : K) (value : Option V)
  | remove (key : Str)

/-- A call together with the content of memory at its time. -/
structure TimedCall (K V : Type) where
  mem : K → Str
  call : Call K V

/-- The code run for a call. -/
def Call.exec (mem : K → Str) (m : HashMap K V) : Call K V → Option (HashMap K V)
  | .put key value => m.put mem key value
  | .remove key => (m.remove mem key).map (·.1)

/-- A map and the memory its keys point into. -/
structure Instance (K V : Type) where
  mem : K → Str
  map : HashMap K V

/-- The content of the keys has not changed while they were stored. -/
def Stable (s : Instance K V) (mem : K → Str) : Prop :=
  ∀ e ∈ s.map.entries, mem e.1 = s.mem e.1

/-- One call on a map whose stored keys are unchanged. -/
structure CallStep (s : Instance K V) (c : TimedCall K V) (t : Instance K V) : Prop where
  stable : Stable s c.mem
  exec : c.call.exec c.mem s.map = some t.map
  mem_eq : t.mem = c.mem

/-- A call while memory does not change. -/
theorem CallStep.of_eq {mem : K → Str} {call : Call K V} {m m' : HashMap K V}
    (exec : call.exec mem m = some m') : CallStep ⟨mem, m⟩ ⟨mem, call⟩ ⟨mem, m'⟩ :=
  ⟨fun _ _ => rfl, exec, rfl⟩

/-- What a call makes of the value of `key`: `none` is no entry. -/
def Call.lastPut (mem : K → Str) (key : Str) (old : Option (Option V)) :
    Call K V → Option (Option V)
  | .put k v => if mem k = key then some v else old
  | .remove k => if k = key then none else old

/-- The value of the last `put` of `key` not followed by a `remove` of it. -/
def lastPut (calls : List (TimedCall K V)) (key : Str) : Option (Option V) :=
  calls.foldl (fun old c => c.call.lastPut c.mem key old) none

/-- The keys present after a history. -/
def present (calls : List (TimedCall K V)) : Set Str := { key | lastPut calls key ≠ none }

@[simp] theorem lastPut_nil (key : Str) : lastPut ([] : List (TimedCall K V)) key = none := rfl

@[simp] theorem lastPut_snoc (calls : List (TimedCall K V)) (c : TimedCall K V) (key : Str) :
    lastPut (calls ++ [c]) key = c.call.lastPut c.mem key (lastPut calls key) := by
  simp [lastPut]

/-- The map agrees with its history. -/
structure Refines (calls : List (TimedCall K V)) (s : Instance K V) : Prop where
  valid : s.map.Valid s.mem
  find : ∀ key, Assoc.find s.mem s.map.entries key = lastPut calls key

theorem refines_create (mem : K → Str) : Refines [] (⟨mem, createHashMap⟩ : Instance K V) :=
  ⟨valid_createHashMap mem, fun key => by simp⟩

/-- Memory outside the stored keys may change. -/
theorem Refines.congr {calls : List (TimedCall K V)} {s : Instance K V} {mem : K → Str}
    (h : Refines calls s) (hs : Stable s mem) : Refines calls ⟨mem, s.map⟩ where
  valid := h.valid.congr hs
  find key := (Assoc.find_congr hs).trans (h.find key)

/-- One call keeps the agreement. -/
theorem Refines.step {calls : List (TimedCall K V)} {s t : Instance K V} {c : TimedCall K V}
    (h : Refines calls s) (hs : CallStep s c t) : Refines (calls ++ [c]) t := by
  obtain ⟨tmem, tmap⟩ := t
  obtain ⟨hstable, hexec, rfl⟩ := hs
  obtain ⟨hv, hfind⟩ := h.congr hstable
  obtain ⟨mem, call⟩ := c
  cases call with
  | put key value =>
    obtain ⟨hv', hput⟩ := put_some hv hexec
    refine ⟨hv', fun k => ?_⟩
    rw [hput.find hv.distinct, lastPut_snoc, hfind]
    rfl
  | remove key =>
    obtain ⟨m', hm', hv', hrem⟩ := remove_spec hv key
    obtain rfl : m' = tmap := by simpa [Call.exec, hm'] using hexec
    refine ⟨hv', fun k => ?_⟩
    rw [hrem.find hv.distinct, lastPut_snoc, hfind]
    rfl

/-- The number of entries is the number of present keys. -/
theorem Refines.size_eq {calls : List (TimedCall K V)} {s : Instance K V}
    (h : Refines calls s) : s.map.size = (present calls).ncard := by
  have hset : present calls = ((s.map.entries.map fun e => s.mem e.1).toFinset : Set Str) := by
    ext key
    have := (Assoc.find_eq_none (f := s.mem) (l := s.map.entries) (s := key)).not
    rw [h.find] at this
    simp only [present, Set.mem_ofPred_eq, this, List.coe_toFinset, List.mem_map]
    push Not
    rfl
  rw [hset, Set.ncard_coe_finset, List.toFinset_card_of_nodup h.valid.distinct, List.length_map]
  exact h.valid.size_eq

theorem Run.refines {mem : K → Str} {calls : List (TimedCall K V)} {s : Instance K V}
    (h : Run CallStep ⟨mem, createHashMap⟩ calls s) : Refines calls s :=
  h.history Refines (refines_create mem) fun _ _ _ _ hr hs => hr.step hs

/-- A call returns while fewer than `50 * 2 ^ 25` keys are present after it. -/
theorem Refines.exec_isSome {calls : List (TimedCall K V)} {s : Instance K V}
    (h : Refines calls s) {c : TimedCall K V} (hs : Stable s c.mem)
    (hroom : (present (calls ++ [c])).ncard < maxEntries) : ∃ t, CallStep s c t := by
  have hv : s.map.Valid c.mem := (h.congr hs).valid
  obtain ⟨mem, call⟩ := c
  cases call with
  | remove key =>
    obtain ⟨m', hm', -⟩ := remove_spec hv key
    exact ⟨⟨mem, m'⟩, hs, by simp [Call.exec, hm'], rfl⟩
  | put key value =>
    rcases put_spec hv key value with ⟨-, hmax, hnew⟩ | ⟨m', hm', -⟩
    · -- a new key that overflows would be one key too many
      have hnot : mem key ∉ present calls := by
        rw [present, Set.mem_ofPred_eq, not_not, ← (h.congr hs).find]
        exact Assoc.find_eq_none.mpr hnew
      have hins : present (calls ++ [⟨mem, .put key value⟩]) =
          insert (mem key) (present calls) := by
        ext k
        by_cases hk : mem key = k
        · simp [present, Call.lastPut, hk]
        · simp [present, Call.lastPut, hk, Ne.symm hk]
      have hfin : (present calls).Finite := by
        refine Set.Finite.subset (s.map.entries.map fun e => s.mem e.1).toFinset.finite_toSet ?_
        intro k hk
        rw [present, Set.mem_ofPred_eq, ← h.find] at hk
        simpa [Assoc.find_eq_none] using hk
      rw [hins, Set.ncard_insert_of_notMem hnot hfin, ← h.size_eq] at hroom
      omega
    · exact ⟨⟨mem, m'⟩, hs, hm', rfl⟩

/-- The hash map refines the finite map of its history, through every growth and shrink:
after every sequence of calls `get`, `exists` and `size` answer for the history, and the next
call returns as long as fewer than `50 * 2 ^ 25` keys are present after it. -/
theorem hashMap_refines_finiteMap {mem : K → Str} {calls : List (TimedCall K V)}
    {s : Instance K V} (h : Run CallStep ⟨mem, createHashMap⟩ calls s) :
    (∀ key, s.map.get s.mem key = (lastPut calls key).join) ∧
      (∀ key, s.map.exists s.mem key = (lastPut calls key).isSome) ∧
      s.map.size = (present calls).ncard ∧
      ∀ c, Stable s c.mem → (present (calls ++ [c])).ncard < maxEntries →
        ∃ t, CallStep s c t := by
  have hr := Run.refines h
  refine ⟨fun key => ?_, fun key => ?_, hr.size_eq, fun c => hr.exec_isSome⟩
  · rw [hr.valid.get_eq, hr.find]
  · rw [HashMap.exists, hr.valid.exists_eq, hr.find]

/-- The strings of the bytes 1 and 51 share a bucket. -/
abbrev oneByte (k : Nat) : Str := [UInt8.ofNat k]

abbrev oneByteCalls : List (TimedCall Nat Nat) :=
  [⟨oneByte, .put 1 (some 7)⟩, ⟨oneByte, .put 51 (some 8)⟩, ⟨oneByte, .put 2 none⟩,
    ⟨oneByte, .put 1 (some 9)⟩, ⟨oneByte, .remove [51]⟩]

/-- A string is put twice, and the one that shares its bucket is removed. -/
theorem hashMap_refines_finiteMap_remove : ∃ s : Instance Nat Nat,
    Run CallStep ⟨oneByte, createHashMap⟩ oneByteCalls s ∧
    s.map.get s.mem [1] = some 9 ∧ s.map.exists s.mem [51] = false ∧
    s.map.exists s.mem [2] = true ∧ s.map.size = 2 := by
  obtain ⟨m, run⟩ : ∃ m, Run CallStep ⟨oneByte, createHashMap⟩ oneByteCalls ⟨oneByte, m⟩ :=
    ⟨_, .cons (.of_eq rfl) (.cons (.of_eq rfl) (.cons (.of_eq rfl) (.cons (.of_eq rfl)
      (.single (.of_eq rfl)))))⟩
  obtain ⟨hget, hexists, hsize, -⟩ := hashMap_refines_finiteMap run
  have htwo : present oneByteCalls = {[1], [2]} := by
    ext key
    simp only [present, lastPut, List.foldl_cons, List.foldl_nil, Call.lastPut,
      Set.mem_ofPred_eq, Set.mem_insert_iff, Set.mem_singleton_iff]
    by_cases h1 : key = [1]
    · simp [h1]
    · by_cases h2 : key = [2] <;> grind
  refine ⟨_, run, (hget [1]).trans (by decide), (hexists [51]).trans (by decide),
    (hexists [2]).trans (by decide), ?_⟩
  rw [hsize, htwo, Set.ncard_pair (by decide)]

/-- The `n`-th of an endless list of distinct strings: the digits of `n` in base 255. -/
def nthKey (n : Nat) : Str := (Nat.digits 255 n).map fun d => UInt8.ofNat (d + 1)

/-- `n` insertions of distinct keys. -/
def puts (n : Nat) : List (TimedCall Nat Nat) :=
  (List.range n).map fun k => ⟨nthKey, .put k (some k)⟩

theorem puts_succ (n : Nat) :
    puts (n + 1) = puts n ++ [⟨nthKey, .put n (some n)⟩] := by
  simp [puts, List.range_succ]

theorem nthKey_injective : Function.Injective nthKey := by
  intro a b h
  have hinj : ∀ d ∈ Nat.digits 255 a, ∀ e ∈ Nat.digits 255 b,
      UInt8.ofNat (d + 1) = UInt8.ofNat (e + 1) → d = e := by
    intro d hd e he hde
    have hd' := Nat.digits_lt_base (by decide) hd
    have he' := Nat.digits_lt_base (by decide) he
    have := congrArg UInt8.toNat hde
    simp only [UInt8.toNat_ofNat', Nat.reducePow] at this
    omega
  have hlen : (Nat.digits 255 a).length = (Nat.digits 255 b).length := by
    simpa [nthKey] using congrArg List.length h
  refine Nat.digits_inj_iff.mp (List.ext_getElem hlen fun i hi hj => ?_)
  refine hinj _ (List.getElem_mem hi) _ (List.getElem_mem hj) ?_
  have := List.getElem_of_eq h (by simpa [nthKey] using hi)
  simpa [nthKey] using this

theorem present_puts (n : Nat) : present (puts n) = nthKey '' (Finset.range n : Set Nat) := by
  induction n with
  | zero => simp [puts, present]
  | succ n ih =>
    have hins : present (puts (n + 1)) = insert (nthKey n) (present (puts n)) := by
      ext k
      by_cases hk : nthKey n = k
      · simp [puts_succ, present, Call.lastPut, hk]
      · simp [puts_succ, present, Call.lastPut, hk, Ne.symm hk]
    rw [hins, ih, ← Set.image_insert_eq, Finset.range_add_one, Finset.coe_insert]

theorem ncard_present_puts (n : Nat) : (present (puts n)).ncard = n := by
  rw [present_puts, Set.ncard_image_of_injective _ nthKey_injective, Set.ncard_coe_finset,
    Finset.card_range]

theorem puts_run (n : Nat) (hn : n < maxEntries) :
    ∃ s : Instance Nat Nat, Run CallStep ⟨nthKey, createHashMap⟩ (puts n) s ∧ s.mem = nthKey := by
  induction n with
  | zero => exact ⟨_, .refl _, rfl⟩
  | succ n ih =>
    obtain ⟨s, hs, hmem⟩ := ih (by omega)
    obtain ⟨t, ht⟩ := (Run.refines hs).exec_isSome (c := ⟨nthKey, .put n (some n)⟩)
      (fun e _ => by rw [hmem]) (by rw [← puts_succ, ncard_present_puts]; exact hn)
    exact ⟨t, puts_succ n ▸ .snoc hs ht, ht.mem_eq⟩

/-- The put that makes `50 * 2 ^ 25` keys present doubles a cell count that no longer fits. -/
theorem puts_overflow :
    ∃ s : Instance Nat Nat,
      Run CallStep ⟨nthKey, createHashMap⟩ (puts (maxEntries - 1)) s ∧
        ¬ ∃ t, CallStep s ⟨nthKey, .put (maxEntries - 1) (some (maxEntries - 1))⟩ t := by
  obtain ⟨s, hs, -⟩ := puts_run (maxEntries - 1) (by norm_num)
  refine ⟨s, hs, fun ⟨t, ht⟩ => ?_⟩
  have hr := (Run.refines hs).step ht
  have hcard := hr.size_eq
  rw [← puts_succ, ncard_present_puts] at hcard
  have := hr.valid.size_lt_max
  omega

end DhmpFs.HashMap
