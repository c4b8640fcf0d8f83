import DhmpFs.Remote.Agreement

/-!
# Reading when servers fail

`dhmp_fs_read_from_remote` tries servers until one answers, and its loop has no counter. Every
failed call takes one more server out of those that are CONNECTED, so the loop ends.

## Main definitions

* `readFailover`: the loop with the calls it makes.
* `Failover.Sound`: how many calls there are, which servers they go to, and when none answers.
* `Failover.Results`: what the calls have returned.
* `Remote.Answers`: some server will answer.
-/

namespace DhmpFs

/-- A call of `dhmp_read`: the server, and the state it was in. -/
structure ReadCall where
  server : Nat
  state : ServerState
  deriving DecidableEq, Repr

/-- How the loop ends: the servers, the calls in order, and the server that answered. -/
structure Failover where
  remote : Remote
  calls : List ReadCall
  served : Option Nat

/-- A server that did not answer. -/
def Remote.readFailed (r : Remote) (i : Nat) : Remote :=
  r.setServer i { r.sList i with alive := false, serverState := .disconnect }

/-- The loop of `dhmp_fs_read_from_remote`, where the call number `k` returns `re k`. -/
def readFailover (re : Nat → Int) : Nat → Nat → Remote → Nat → Option Failover
  | 0, _, _, _ => none
  | rounds + 1, k, r, readServer =>
    let readServer? :=
      if (r.sList readServer).serverState = .reconnect ∨
          (r.sList readServer).serverState = .recovering then r.findAliveServer
      else some readServer
    match readServer? with
    | none => some ⟨r, [], none⟩
    | some i =>
      let call : ReadCall := ⟨i, (r.sList i).serverState⟩
      if re k = -1 then
        let r := r.readFailed i
        match r.findAliveServer with
        | none => some ⟨r, [call], none⟩
        | some j => (readFailover re rounds (k + 1) r j).map fun t =>
          { t with calls := call :: t.calls }
      else some ⟨r, [call], some i⟩

/-- The loop makes at most one call more than there are servers, none to a server that is
reconnecting or recovering and no two to the same, and gives up only when no server is
connected. -/
structure Failover.Sound (t : Failover) (serverNum : Nat) : Prop where
  nodup : (t.calls.map ReadCall.server).Nodup
  length_le : t.calls.length ≤ serverNum + 1
  readable : ∀ call ∈ t.calls, call.server < serverNum ∧ call.state ≠ .reconnect ∧
    call.state ≠ .recovering
  gaveUp : t.served = none → ∀ i < serverNum, (t.remote.sList i).serverState ≠ .connected

/-- With the calls numbered from `k`: every call but the last has returned -1. Where a server
answered, the last call went to it and did not return -1; where none did, it returned -1 too. -/
structure Failover.Results (t : Failover) (re : Nat → Int) (k : Nat) : Prop where
  failed : ∀ n, n + 1 < t.calls.length → re (k + n) = -1
  answered : ∀ i, t.served = some i → ∃ n call, t.calls.length = n + 1 ∧
    t.calls[n]? = some call ∧ call.server = i ∧ re (k + n) ≠ -1
  gaveUp : t.served = none → ∀ n < t.calls.length, re (k + n) = -1

section

variable {r : Remote} {re : Nat → Int} {i k rounds : Nat} {t : Failover}

/-- A failed call takes the server out of those that are connected. -/
theorem Remote.readFailed_connected (r : Remote) (i j : Nat) :
    ((r.readFailed i).sList j).serverState = .connected ↔
      (r.sList j).serverState = .connected ∧ j ≠ i := by
  rcases eq_or_ne j i with rfl | hj <;> simp [Remote.readFailed, *]

theorem Remote.aliveNum_readFailed (hi : i < r.serverNum)
    (hc : (r.sList i).serverState = .connected) :
    (r.readFailed i).aliveNum + 1 = r.aliveNum := by
  let up := (List.range r.serverNum).filter fun j => (r.sList j).serverState = .connected
  have hup : up.Nodup := List.nodup_range.filter _
  have hmem : i ∈ up := by simp [up, hi, hc]
  have hfailed : (r.readFailed i).aliveNum = (up.erase i).length := by
    rw [hup.erase_eq_filter, List.filter_filter, ← List.countP_eq_length_filter]
    unfold Remote.aliveNum
    refine List.countP_congr fun j _ => ?_
    simp [Remote.readFailed_connected, and_comm]
  have hall : r.aliveNum = up.length := List.countP_eq_length_filter
  have hpos := List.length_pos_of_mem hmem
  rw [hfailed, hall, List.length_erase_of_mem hmem]
  omega

/-- With no server left to turn to, none is connected. -/
theorem Remote.findAliveServer_none (h : r.findAliveServer = none) :
    ∀ i < r.serverNum, (r.sList i).serverState ≠ .connected := by
  simpa [Remote.findAliveServer] using h

/-- What the loop does from a server that is connected: its calls go to connected servers, to
each of them once. -/
structure Failover.Visits (t : Failover) (r : Remote) : Prop where
  nodup : (t.calls.map ReadCall.server).Nodup
  connected : ∀ call ∈ t.calls, call.server < r.serverNum ∧ call.state = .connected ∧
    (r.sList call.server).serverState = .connected
  length_le : t.calls.length ≤ r.aliveNum
  served : ∀ j, t.served = some j → j ∈ t.calls.map ReadCall.server
  gaveUp : t.served = none → ∀ i < r.serverNum, (t.remote.sList i).serverState ≠ .connected

/-- After a failed call its server is not asked again. -/
theorem Failover.Visits.notMem (v : t.Visits (r.readFailed i)) :
    i ∉ t.calls.map ReadCall.server := by
  intro hm
  obtain ⟨call, hcall, heq⟩ := List.mem_map.mp hm
  exact ((Remote.readFailed_connected r i call.server).mp (v.connected call hcall).2.2).2 heq

theorem readFailover_connected (re : Nat → Int) (k : Nat) (hrounds : r.aliveNum ≤ rounds)
    (hi : i < r.serverNum) (hc : (r.sList i).serverState = .connected) :
    ∃ t, readFailover re rounds k r i = some t ∧ t.Visits r := by
  induction rounds generalizing r i k with
  | zero =>
    have := Remote.aliveNum_readFailed hi hc
    omega
  | succ rounds ih =>
    have hdown := Remote.aliveNum_readFailed hi hc
    have hread : ¬ ((r.sList i).serverState = .reconnect ∨
        (r.sList i).serverState = .recovering) := by simp [hc]
    simp only [readFailover, if_neg hread]
    by_cases hre : re k = -1
    · cases hnext : (r.readFailed i).findAliveServer with
      | none =>
        refine ⟨_, if_pos hre, ⟨?_, ?_, ?_, ?_, ?_⟩⟩
        · simp
        · simp [hi, hc]
        · simp
          omega
        · simp
        · exact fun _ => Remote.findAliveServer_none hnext
      | some j =>
        obtain ⟨hj, hjc⟩ := Remote.findAliveServer_spec hnext
        obtain ⟨t, ht, v⟩ := ih (k + 1) (by omega) hj hjc
        refine ⟨{ t with calls := ⟨i, (r.sList i).serverState⟩ :: t.calls }, by simp [hre, ht],
          ⟨?_, ?_, ?_, ?_, ?_⟩⟩
        · exact List.nodup_cons.mpr ⟨v.notMem, v.nodup⟩
        · intro call hcall
          rcases List.mem_cons.mp hcall with rfl | hcall
          · exact ⟨hi, hc, hc⟩
          · obtain ⟨hlt, hstate, hconn⟩ := v.connected call hcall
            exact ⟨hlt, hstate, ((Remote.readFailed_connected r i _).mp hconn).1⟩
        · have := v.length_le
          simp only [List.length_cons]
          omega
        · exact fun j hj => List.mem_cons_of_mem _ (v.served j hj)
        · exact v.gaveUp
    · refine ⟨_, if_neg hre, ⟨?_, ?_, ?_, ?_, ?_⟩⟩
      · simp
      · simp [hi, hc]
      · simp
        omega
      · simp
      · simp

/-- The loop turns away from a server that cannot be read. -/
theorem readFailover_redirect {j : Nat} (hread : (r.sList i).serverState = .reconnect ∨
    (r.sList i).serverState = .recovering) (hnext : r.findAliveServer = some j) :
    readFailover re rounds k r i = readFailover re rounds k r j := by
  obtain ⟨-, hj⟩ := Remote.findAliveServer_spec hnext
  cases rounds with
  | zero => rfl
  | succ rounds => simp [readFailover, if_pos hread, hnext, hj]

theorem Remote.aliveNum_le (r : Remote) : r.aliveNum ≤ r.serverNum := by
  simpa [Remote.aliveNum] using List.countP_le_length (l := List.range r.serverNum)

theorem Failover.Visits.sound (v : t.Visits r) : t.Sound r.serverNum where
  nodup := v.nodup
  length_le := (v.length_le.trans r.aliveNum_le).trans (Nat.le_succ _)
  readable call hcall := by
    obtain ⟨hlt, hstate, -⟩ := v.connected call hcall
    simp [hlt, hstate]
  gaveUp := v.gaveUp

/-- Reading from any server to begin with: only the first call may go to a server that is
disconnected. -/
theorem readFailover_sound (re : Nat → Int) (k : Nat) (hrounds : r.serverNum < rounds)
    (hi : i < r.serverNum) :
    ∃ t, readFailover re rounds k r i = some t ∧ t.Sound r.serverNum := by
  obtain ⟨rounds, rfl⟩ : ∃ n, rounds = n + 1 := ⟨rounds - 1, by omega⟩
  by_cases hread : (r.sList i).serverState = .reconnect ∨ (r.sList i).serverState = .recovering
  · cases hnext : r.findAliveServer with
    | none =>
      refine ⟨⟨r, [], none⟩, by simp [readFailover, if_pos hread, hnext], ⟨?_, ?_, ?_, ?_⟩⟩
      · simp
      · simp
      · simp
      · exact fun _ => Remote.findAliveServer_none hnext
    | some j =>
      obtain ⟨hj, hjc⟩ := Remote.findAliveServer_spec hnext
      rw [readFailover_redirect hread hnext]
      obtain ⟨t, ht, v⟩ := readFailover_connected re k (r.aliveNum_le.trans hrounds.le) hj hjc
      exact ⟨t, ht, v.sound⟩
  · have hfirst : i < r.serverNum ∧ (r.sList i).serverState ≠ .reconnect ∧
        (r.sList i).serverState ≠ .recovering := ⟨hi, not_or.mp hread⟩
    simp only [readFailover, if_neg hread]
    by_cases hre : re k = -1
    · cases hnext : (r.readFailed i).findAliveServer with
      | none =>
        refine ⟨_, if_pos hre, ⟨?_, ?_, ?_, ?_⟩⟩
        · simp
        · simp
        · simpa using hfirst
        · exact fun _ => Remote.findAliveServer_none hnext
      | some j =>
        obtain ⟨hj, hjc⟩ := Remote.findAliveServer_spec hnext
        have hle : (r.readFailed i).aliveNum ≤ r.serverNum := (r.readFailed i).aliveNum_le
        obtain ⟨t, ht, v⟩ := readFailover_connected re (k + 1)
          (hle.trans (Nat.le_of_lt_succ hrounds)) hj hjc
        refine ⟨{ t with calls := ⟨i, (r.sList i).serverState⟩ :: t.calls }, by simp [hre, ht],
          ⟨?_, ?_, ?_, v.gaveUp⟩⟩
        · exact List.nodup_cons.mpr ⟨v.notMem, v.nodup⟩
        · simpa using v.length_le.trans hle
        · intro call hcall
          rcases List.mem_cons.mp hcall with rfl | hcall
          · exact hfirst
          · exact v.sound.readable call hcall
    · refine ⟨_, if_neg hre, ⟨?_, ?_, ?_, ?_⟩⟩
      · simp
      · simp
      · simpa using hfirst
      · simp

/-- A call that returned -1 before the others. -/
theorem Failover.Results.cons {call : ReadCall} (h : t.Results re (k + 1)) (hre : re k = -1) :
    Failover.Results { t with calls := call :: t.calls } re k := by
  have hshift : ∀ n, k + 1 + n = k + (n + 1) := fun n => by omega
  refine ⟨fun n hn => ?_, fun i hi => ?_, fun hnone n hn => ?_⟩
  · cases n with
    | zero => exact hre
    | succ n => exact hshift n ▸ h.failed n (by simpa using hn)
  · obtain ⟨n, last, hlen, hlast, heq, hne⟩ := h.answered i hi
    exact ⟨n + 1, last, by simp [hlen], by simpa using hlast, heq, hshift n ▸ hne⟩
  · cases n with
    | zero => exact hre
    | succ n => exact hshift n ▸ h.gaveUp hnone n (by simpa using hn)

theorem readFailover_results (h : readFailover re rounds k r i = some t) : t.Results re k := by
  induction rounds generalizing r i k t with
  | zero => simp [readFailover] at h
  | succ rounds ih =>
    unfold readFailover at h
    dsimp only at h
    split at h
    · -- nobody is asked
      obtain rfl := Option.some.inj h
      refine ⟨?_, ?_, ?_⟩ <;> simp
    · next l _ =>
      split at h
      · next hre =>
        split at h
        · obtain rfl := Option.some.inj h
          refine ⟨?_, ?_, ?_⟩ <;> simp [hre]
        · obtain ⟨t', ht', rfl⟩ := Option.map_eq_some_iff.mp h
          exact (ih ht').cons hre
      · next hre =>
        obtain rfl := Option.some.inj h
        refine ⟨by simp, ?_, by simp⟩
        rintro j ⟨⟩
        exact ⟨0, _, rfl, rfl, rfl, hre⟩

/-- The server that answered was asked. -/
theorem readFailover_served (h : readFailover re rounds k r i = some t) {j : Nat}
    (hj : t.served = some j) : j ∈ t.calls.map ReadCall.server := by
  obtain ⟨n, call, -, hcall, rfl, -⟩ := (readFailover_results h).answered j hj
  exact List.mem_map_of_mem (List.mem_of_getElem? hcall)

/-- Where no server is asked twice, the loop is the one in which a server answers or does not. -/
theorem readFailover_loop (h : readFailover re rounds k r i = some t)
    (hn : (t.calls.map ReadCall.server).Nodup) {ok : Nat → Bool}
    (hok : ∀ j ∈ t.calls.map ReadCall.server, ok j = true ↔ t.served = some j) :
    readRemoteLoop ok rounds r i = some (t.remote, t.served) := by
  induction rounds generalizing r i k t with
  | zero => simp [readFailover] at h
  | succ rounds ih =>
    unfold readFailover at h
    unfold readRemoteLoop
    dsimp only at h ⊢
    -- both loops ask the same server
    generalize (if (r.sList i).serverState = .reconnect ∨ (r.sList i).serverState = .recovering
      then r.findAliveServer else some i) = asked at h ⊢
    cases asked with
    | none =>
      obtain rfl := Option.some.inj h
      rfl
    | some l =>
      dsimp only at h ⊢
      split at h
      · cases hnext : (r.readFailed l).findAliveServer with
        | none =>
          simp only [hnext] at h
          obtain rfl := Option.some.inj h
          have hl : ok l = false := by simpa using hok l (by simp)
          simp only [Remote.readFailed] at hnext
          simp [hl, hnext, Remote.readFailed]
        | some j =>
          simp only [hnext] at h
          simp only [Remote.readFailed] at hnext
          obtain ⟨t', ht', rfl⟩ := Option.map_eq_some_iff.mp h
          obtain ⟨hnot, hn'⟩ := List.nodup_cons.mp hn
          have hl : ok l = false := by
            have hserved : t'.served ≠ some l := fun hs => hnot (readFailover_served ht' hs)
            simpa [hserved] using hok l (by simp)
          simp only [hl, Bool.false_eq_true, if_false, hnext]
          exact ih ht' hn' fun j hj => hok j (List.mem_cons_of_mem _ hj)
      · obtain rfl := Option.some.inj h
        have hl : ok l = true := by simpa using hok l (by simp)
        simp [hl]

/-- `dhmp_fs_read_from_remote` with its calls numbered is the one whose environment says which
servers answer. -/
theorem readFailover_refines (hi : i < r.serverNum) (hrounds : r.serverNum < rounds) :
    ∃ t, readFailover re rounds k r i = some t ∧
      readRemoteLoop (fun j => t.served = some j) rounds r i = some (t.remote, t.served) := by
  obtain ⟨t, ht, sound⟩ := readFailover_sound re k hrounds hi
  exact ⟨t, ht, readFailover_loop ht sound.nodup fun j _ => by simp⟩

/-- Who answers: a server that is connected, or a disconnected one that was chosen first. Where
none does, all of them were asked and none is connected any more. -/
structure ReadOutcome (ok : Nat → Bool) (r : Remote) (first : Nat) (r' : Remote)
    (served : Option Nat) : Prop where
  answered : ∀ i, served = some i → ok i = true ∧ r'.sList i = r.sList i ∧
    (i < r.serverNum ∧ (r.sList i).serverState = .connected ∨
      i = first ∧ (r.sList i).serverState = .disconnect ∧ r' = r)
  failed : served = none →
    (∀ i < r.serverNum, (r.sList i).serverState = .connected → ok i = false) ∧
    ((r.sList first).serverState = .disconnect → ok first = false) ∧
    ∀ i < r.serverNum, (r'.sList i).serverState ≠ .connected

/-- The server a round asks is connected, or it is the one that was chosen. -/
theorem asked_server {l : Nat} (hi : i < r.serverNum)
    (hl : (if (r.sList i).serverState = .reconnect ∨ (r.sList i).serverState = .recovering
      then r.findAliveServer else some i) = some l) :
    l < r.serverNum ∧ ((r.sList l).serverState = .connected ∨
      l = i ∧ (r.sList l).serverState = .disconnect) ∧
      ((r.sList i).serverState = .disconnect → l = i) := by
  split at hl
  · next hread =>
    obtain ⟨hlt, hc⟩ := Remote.findAliveServer_spec hl
    exact ⟨hlt, .inl hc, fun hd => by simp [hd] at hread⟩
  · next hread =>
    obtain rfl := Option.some.inj hl
    refine ⟨hi, ?_, fun _ => rfl⟩
    cases hs : (r.sList i).serverState <;> simp_all

/-- With no server alive nobody is asked. -/
theorem ReadOutcome.alone {ok : Nat → Bool}
    (hnone : (if (r.sList i).serverState = .reconnect ∨ (r.sList i).serverState = .recovering
      then r.findAliveServer else some i) = none) : ReadOutcome ok r i r none := by
  split at hnone
  · next hread =>
    have hno := Remote.findAliveServer_none hnone
    exact ⟨by simp, fun _ => ⟨fun j hj hc => absurd hc (hno j hj),
      fun hd => by simp [hd] at hread, hno⟩⟩
  · exact absurd hnone (by simp)

/-- After the server `l` has failed, no server is left. -/
theorem ReadOutcome.last {ok : Nat → Bool} {l : Nat} (hfail : ok l = false)
    (hfirst : (r.sList i).serverState = .disconnect → l = i)
    (hnext : (r.readFailed l).findAliveServer = none) :
    ReadOutcome ok r i (r.readFailed l) none := by
  have hno := Remote.findAliveServer_none hnext
  refine ⟨by simp, fun _ => ⟨fun j hj hc => ?_, fun hd => hfirst hd ▸ hfail, hno⟩⟩
  by_contra hj'
  have hne : j ≠ l := by
    rintro rfl
    exact hj' hfail
  exact hno j hj ((Remote.readFailed_connected r l j).mpr ⟨hc, hne⟩)

/-- After the server `l` has failed, the connected server `j` is asked. -/
theorem ReadOutcome.retry {ok : Nat → Bool} {l j : Nat} {r' : Remote} {served : Option Nat}
    (hfail : ok l = false) (hfirst : (r.sList i).serverState = .disconnect → l = i)
    (hj : j < r.serverNum) (hjc : ((r.readFailed l).sList j).serverState = .connected)
    (out : ReadOutcome ok (r.readFailed l) j r' served) : ReadOutcome ok r i r' served := by
  have hconn := Remote.readFailed_connected r l
  refine ⟨fun k hk => ?_, fun hn => ?_⟩
  · obtain ⟨hk, heq, hwho⟩ := out.answered k hk
    have hkc : k < r.serverNum ∧ ((r.readFailed l).sList k).serverState = .connected := by
      rcases hwho with ⟨hlt, hkc⟩ | ⟨rfl, -, -⟩
      · exact ⟨hlt, hkc⟩
      · exact ⟨hj, hjc⟩
    obtain ⟨hc, hne⟩ := (hconn k).mp hkc.2
    refine ⟨hk, ?_, .inl ⟨hkc.1, hc⟩⟩
    rw [heq]
    simp [Remote.readFailed, hne]
  · obtain ⟨hall, -, hno⟩ := out.failed hn
    refine ⟨fun k hk hc => ?_, fun hd => hfirst hd ▸ hfail, hno⟩
    rcases eq_or_ne k l with rfl | hne
    · exact hfail
    · exact hall k hk ((hconn k).mpr ⟨hc, hne⟩)

theorem readRemoteLoop_outcome {ok : Nat → Bool} {r' : Remote} {served : Option Nat}
    (h : readRemoteLoop ok rounds r i = some (r', served)) (hi : i < r.serverNum) :
    ReadOutcome ok r i r' served := by
  induction rounds generalizing r i with
  | zero => simp [readRemoteLoop] at h
  | succ rounds ih =>
    unfold readRemoteLoop at h
    dsimp only at h
    split at h
    · next hnone =>
      obtain ⟨rfl, rfl⟩ : r = r' ∧ none = served := by simpa using h
      exact .alone hnone
    · next l hl =>
      obtain ⟨hlt, hstate, hfirst⟩ := asked_server hi hl
      split at h
      · next hok =>
        obtain ⟨rfl, rfl⟩ : r = r' ∧ some l = served := by simpa using h
        refine ⟨?_, by simp⟩
        rintro j ⟨⟩
        refine ⟨hok, rfl, ?_⟩
        rcases hstate with hc | ⟨rfl, hd⟩
        · exact .inl ⟨hlt, hc⟩
        · exact .inr ⟨rfl, hd, rfl⟩
      · next hok =>
        have hfail : ok l = false := by simpa using hok
        split at h
        · next hnext =>
          obtain ⟨rfl, rfl⟩ : r.readFailed l = r' ∧ none = served := by
            simpa [Remote.readFailed] using h
          exact .last hfail hfirst hnext
        · next j hnext =>
          obtain ⟨hj, hjc⟩ := Remote.findAliveServer_spec hnext
          exact .retry hfail hfirst hj hjc (ih h hj)

/-! ## Who answers a read -/

/-- Some server answers: one that is connected, or a disconnected one that is chosen first. -/
def Remote.Answers (r : Remote) (env : ReadEnv) : Prop :=
  let first := env.rand % r.serverNum
  (∃ i < r.serverNum, (r.sList i).serverState = .connected ∧ env.ok i = true) ∨
    (r.sList first).serverState = .disconnect ∧ env.ok first = true

/-- The server that `dhmp_fs_read_from_remote` gets its bytes from. -/
def Remote.readServer (r : Remote) (env : ReadEnv) : Option Nat :=
  (readRemoteLoop env.ok (r.serverNum + 1) r (env.rand % r.serverNum)).bind Prod.snd

section answers

variable {r' : Remote} {env : ReadEnv} {bankId size offset : Nat} {buf buf' : Bytes}

/-- A read is its loop and the bytes of the server that answered. -/
theorem read_outcome (h : dhmpFsReadFromRemote r env bankId buf size offset = some (r', buf')) :
    ReadOutcome env.ok r (env.rand % r.serverNum) r' (r.readServer env) ∧
      (r.readServer env = none → buf' = buf) ∧
      ∀ i, r.readServer env = some i →
        buf' = readBytes ((r'.sList i).bank bankId) offset size buf := by
  unfold dhmpFsReadFromRemote at h
  split at h
  · exact absurd h (by simp)
  · next hpos =>
    obtain ⟨⟨r₁, served⟩, hloop, heq⟩ := Option.map_eq_some_iff.mp h
    obtain ⟨rfl, rfl⟩ := Prod.mk.inj heq
    have hserved : r.readServer env = served := by simp [Remote.readServer, hloop]
    rw [hserved]
    refine ⟨readRemoteLoop_outcome hloop (Nat.mod_lt _ (Nat.pos_of_ne_zero hpos)), ?_, ?_⟩
    · rintro rfl
      rfl
    · rintro i rfl
      rfl

theorem Remote.readServer_isSome
    (h : dhmpFsReadFromRemote r env bankId buf size offset = some (r', buf')) :
    (∃ i, r.readServer env = some i) ↔ r.Answers env := by
  obtain ⟨out, -⟩ := read_outcome h
  constructor
  · rintro ⟨i, hi⟩
    obtain ⟨hok, -, ⟨hlt, hc⟩ | ⟨rfl, hd, -⟩⟩ := out.answered i hi
    · exact .inl ⟨i, hlt, hc, hok⟩
    · exact .inr ⟨hd, hok⟩
  · intro hans
    cases hserved : r.readServer env with
    | some i => exact ⟨i, rfl⟩
    | none =>
      obtain ⟨hall, hfirst, -⟩ := out.failed hserved
      rcases hans with ⟨i, hi, hc, hok⟩ | ⟨hd, hok⟩
      · exact absurd hok (by simp [hall i hi hc])
      · exact absurd hok (by simp [hfirst hd])

/-- A server is left connected exactly where one was before and the read is answered. -/
theorem read_connected (h : dhmpFsReadFromRemote r env bankId buf size offset = some (r', buf')) :
    (∃ i < r.serverNum, (r'.sList i).serverState = .connected) ↔
      (∃ i < r.serverNum, (r.sList i).serverState = .connected) ∧ r.Answers env := by
  obtain ⟨out, -⟩ := read_outcome h
  rw [← Remote.readServer_isSome h]
  constructor
  · rintro ⟨i, hi, hc⟩
    refine ⟨⟨i, hi, ?_⟩, ?_⟩
    · rcases (read_fails h).serverState i with hs | hs | hs <;> simp_all
    · cases hserved : r.readServer env with
      | some j => exact ⟨j, rfl⟩
      | none => exact absurd hc ((out.failed hserved).2.2 i hi)
  · rintro ⟨⟨j, hj, hjc⟩, i, hi⟩
    obtain ⟨-, heq, ⟨hlt, hc⟩ | ⟨-, -, rfl⟩⟩ := out.answered i hi
    · exact ⟨i, hlt, heq ▸ hc⟩
    · exact ⟨j, hj, hjc⟩

end answers

/-- `dhmp_fs_read_from_remote` ends after at most `SERVERNUM + 1` calls of `dhmp_read`, whatever
they return. It has its data from the first call that does not return -1, and gives up only when
no server is connected. -/
theorem read_failover (hpos : 0 < r.serverNum) (rand : Nat) (re : Nat → Int)
    (hrounds : r.serverNum < rounds) :
    ∃ t, readFailover re rounds 0 r (rand % r.serverNum) = some t ∧ t.Sound r.serverNum ∧
      t.Results re 0 := by
  obtain ⟨t, ht, sound⟩ := readFailover_sound re 0 hrounds (Nat.mod_lt rand hpos)
  exact ⟨t, ht, sound, readFailover_results ht⟩

/-- Of three servers the first chosen is disconnected and fails, and the next one answers. -/
theorem read_failover_three :
    let r := (initRemote 3 fun _ _ _ => 0).setState 1 .disconnect
    let re : Nat → Int := fun k => if k = 0 then -1 else 0
    0 < r.serverNum ∧ ∃ t, readFailover re 4 0 r (1 % r.serverNum) = some t ∧
      t.calls = [⟨1, .disconnect⟩, ⟨0, .connected⟩] ∧ t.served = some 0 ∧
      t.Sound 3 ∧ t.Results re 0 := by
  intro r re
  obtain ⟨t, ht, hsound, hresults⟩ := read_failover (r := r) (by decide) 1 re
    (Nat.lt_succ_self 3)
  have hrun : ∃ t', readFailover re 4 0 r (1 % r.serverNum) = some t' ∧
      t'.calls = [⟨1, .disconnect⟩, ⟨0, .connected⟩] ∧ t'.served = some 0 := ⟨_, rfl, rfl, rfl⟩
  obtain ⟨t', ht', hcalls, hserved⟩ := hrun
  obtain rfl := Option.some.inj (ht.symm.trans ht')
  exact ⟨by decide, t, ht, hcalls, hserved, hsound, hresults⟩

end

end DhmpFs
