import DhmpFs.HashMap.Refinement

/-!
# What `remove` returns

A caller reads the result of `remove` as an answer: `NULL` says that there was no such entry.
`defaultRemove` keeps this answer in a variable of its own and returns the key at the head of
the bucket, whichever entry it took out.
-/

namespace DhmpFs.HashMap

open Library

variable {K V : Type} {mem : K → Str} {m : HashMap K V}

/-- The result of `remove` as its caller reads it: `NULL` for a key that was not in the map, an
equal key otherwise. -/
structure ReportsPresence (mem : K → Str) (calls : List (TimedCall K V)) (key : Str)
    (result : Option K) : Prop where
  absent : result = none ↔ key ∉ present calls
  equal : ∀ k, result = some k → mem k = key

/-- The entry a walk starts at, if the bucket has one. -/
theorem head_mem {key : Str} {head : K} (hb : (m.bucket key).key = some head) :
    (head, (m.bucket key).value) ∈ (m.bucket key).toList := by
  simp [Entry.toList, hb]

/-- A key is present if and only if an entry of its bucket has it. -/
theorem Refines.mem_present {calls : List (TimedCall K V)} {s : Instance K V}
    (h : Refines calls s) (key : Str) :
    key ∈ present calls ↔ ∃ e ∈ (s.map.bucket key).toList, s.mem e.1 = key := by
  rw [present, Set.mem_ofPred_eq, ← h.find, ← h.valid.find_bucket, Ne, Assoc.find_eq_none]
  push Not
  rfl

/-- The result of `remove` reports presence exactly when the bucket of the key is empty or
begins with an equal key. -/
theorem remove_reports_iff {mem mem' : K → Str} {calls : List (TimedCall K V)} {s : Instance K V}
    (h : Run CallStep ⟨mem, createHashMap⟩ calls s) (hs : Stable s mem') (key : Str) :
    ∃ m' result, s.map.remove mem' key = some (m', result) ∧
      (ReportsPresence mem' calls key result ↔
        ∀ head, (s.map.bucket key).key = some head → mem' head = key) := by
  have hr := (Run.refines h).congr hs
  obtain ⟨m', hm', -, -⟩ := remove_spec hr.valid key
  refine ⟨m', _, hm', fun hp => hp.equal, fun hhead => ⟨?_, hhead⟩⟩
  rw [hr.mem_present]
  cases hb : (s.map.bucket key).key with
  | none => simp [Entry.toList, hb]
  | some head =>
    have : ∃ e ∈ (s.map.bucket key).toList, mem' e.1 = key := ⟨_, head_mem hb, hhead head hb⟩
    simp [this]

/-- The map after `put("a", v)`, and two buckets of it: `"PC"` has the same hash code. -/
theorem put_run (v : Nat) :
    ∃ m : HashMap Nat Nat,
      Run CallStep ⟨fun _ => [97], createHashMap⟩ [⟨fun _ => [97], .put 3 (some v)⟩]
        ⟨fun _ => [97], m⟩ ∧
      (m.bucket [97]).key = some 3 ∧ (m.bucket [80, 67]).key = some 3 := by
  obtain ⟨m, hm, hls, ha⟩ : ∃ m, (createHashMap : HashMap Nat Nat).put (fun _ => [97]) 3 (some v) =
      some m ∧ m.listSize = 50 ∧ (m.bucket [97]).key = some 3 := by
    refine ⟨_, rfl, rfl, ?_⟩
    have := Function.update_self (defaultHashCode (createHashMap : HashMap Nat Nat) [97])
      (⟨some 3, some v, []⟩ : Entry Nat Nat) createHashMap.hashList
    exact congrArg Entry.key this
  have hcode : defaultHashCode m [80, 67] = defaultHashCode m [97] := by
    rw [defaultHashCode, defaultHashCode, hls]
    decide
  refine ⟨m, .single ⟨fun e he => by simp at he, hm, rfl⟩, ha, ?_⟩
  rwa [bucket, hcode]

/-- Removing the only key returns it. -/
theorem remove_reports_iff_put :
    ∃ (s : Instance Nat Nat) (calls : List (TimedCall Nat Nat)) (m' : HashMap Nat Nat) (k : Nat),
      s.map.remove s.mem [97] = some (m', some k) ∧
        ReportsPresence s.mem calls [97] (some k) := by
  obtain ⟨m, hrun, ha, -⟩ := put_run 7
  obtain ⟨m', result, hrem, hiff⟩ := remove_reports_iff hrun (fun _ _ => rfl) [97]
  have hp : ReportsPresence (fun _ => [97]) _ [97] result := hiff.mpr fun _ _ => rfl
  cases result with
  | none => simpa [present, lastPut, Call.lastPut] using hp.absent
  | some k => exact ⟨_, _, m', k, hrem, hp⟩

/-- With only `"a"` in the map, the result of removing `"PC"` is the key `"a"`. -/
theorem remove_returns_collision :
    ∃ (s : Instance Nat Nat) (calls : List (TimedCall Nat Nat)) (m' : HashMap Nat Nat),
      Run CallStep ⟨fun _ => [97], createHashMap⟩ calls s ∧ [80, 67] ∉ present calls ∧
        s.map.remove s.mem [80, 67] = some (m', some 3) ∧
        ¬ ReportsPresence s.mem calls [80, 67] (some 3) := by
  obtain ⟨m, hrun, -, hc⟩ := put_run 7
  obtain ⟨m', hm', -, -⟩ := remove_spec (Run.refines hrun).valid [80, 67]
  rw [hc] at hm'
  refine ⟨_, _, m', hrun, ?_, hm', fun hp => ?_⟩
  · simp [present, lastPut, Call.lastPut]
  · have : ([97] : Str) = [80, 67] := hp.equal 3 rfl
    exact absurd this (by decide)

end DhmpFs.HashMap
