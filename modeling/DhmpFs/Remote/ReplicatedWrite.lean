import DhmpFs.Remote.Agreement

/-!
# The two loops of a replicated write

`dhmp_fs_write_to_remote` starts a thread for every server that is CONNECTED and notes it in
`actual_write_servers`; a second loop waits for the threads noted there. The `memset` of that
array counts bytes, not entries, so most entries keep what the stack held before.

## Main definitions

* `startWrites`, `awaitWrites`: the two loops.
* `writeToRemoteThreads`: the call with its threads.
* `WritesExactly`: what the call is meant to do.
-/

namespace DhmpFs

/-- `writeThreadArgs`, the argument block of a thread that calls `dhmp_write`. -/
structure WriteThreadArgs where
  serverId : Nat
  bankId : Nat
  buf : Bytes
  size : Nat
  offset : Nat

/-- The variables of a call. `allArgs i` is the block of a thread that was started in this call
and not waited for yet; `started` and `awaited` record both in order. -/
structure WriteFrame where
  sList : Nat → ServerNode
  actualWriteServers : Nat → BitVec 32
  allArgs : Nat → Option WriteThreadArgs
  started : List WriteThreadArgs
  awaited : List Nat

/-- What the loops meet: the write that is asked for, and what `dhmp_write` returns for each
server. -/
structure WriteRequest where
  bankId : Nat
  buf : Bytes
  size : Nat
  offset : Nat
  re : Nat → Int

namespace WriteRequest

variable (q : WriteRequest)

def args (i : Nat) : WriteThreadArgs := ⟨i, q.bankId, q.buf, q.size, q.offset⟩

/-- A task at the end of a redo list. -/
def queue (n : ServerNode) : ServerNode :=
  { n with rwTasks := n.rwTasks ++ [⟨q.bankId, q.size, q.offset⟩], rwTasksLen := n.rwTasksLen + 1 }

/-- The server `i` once its `dhmp_write` has returned. -/
def settle (i : Nat) (n : ServerNode) : ServerNode :=
  if q.re i = -1 then { n with alive := false, serverState := .disconnect }
  else
    let mem := writeBytes (n.bank q.bankId) q.offset q.size q.buf
    { n with bank := Function.update n.bank q.bankId mem }

/-- The first loop. A task behind freed ones is undefined. -/
def startWrites : List Nat → WriteFrame → Option WriteFrame
  | [], w => some w
  | i :: rest, w =>
    match (w.sList i).serverState with
    | .disconnect | .reconnect => startWrites rest w
    | .recovering =>
      if (w.sList i).rwTasksFreed then none
      else startWrites rest { w with sList := Function.update w.sList i (q.queue (w.sList i)) }
    | .connected => startWrites rest { w with
        actualWriteServers := Function.update w.actualWriteServers i 1#32
        allArgs := Function.update w.allArgs i (some (q.args i))
        started := w.started ++ [q.args i] }

/-- The second loop. The join of a thread that was not started is undefined. -/
def awaitWrites : List Nat → WriteFrame → Option WriteFrame
  | [], w => some w
  | i :: rest, w =>
    if w.actualWriteServers i = 1#32 then
      match w.allArgs i with
      | none => none
      | some args => awaitWrites rest { w with
          sList := Function.update w.sList i (q.settle args.serverId (w.sList i))
          allArgs := Function.update w.allArgs i none
          awaited := w.awaited ++ [i] }
    else awaitWrites rest w

/-- `dhmp_fs_write_to_remote` with its threads; `stack` is what `actual_write_servers` holds
before the `memset`. -/
def writeToRemoteThreads (r : Remote) (stack : Nat → BitVec 32) : Option WriteFrame :=
  let servers := List.range r.serverNum
  (q.startWrites servers ⟨r.sList, actualWriteServers r.serverNum stack, fun _ => none, [], []⟩).bind
    (q.awaitWrites servers)

end WriteRequest

/-- The bytes go to the servers that are connected, and each of these threads is waited for and
its block freed. A failed write disconnects its server, a recovering server gets one task, and
nothing else changes. -/
structure WritesExactly (q : WriteRequest) (r : Remote) (w : WriteFrame) : Prop where
  sent : w.started =
    ((List.range r.serverNum).filter fun i => (r.sList i).serverState = .connected).map q.args
  awaited : w.awaited = w.started.map WriteThreadArgs.serverId
  freed : ∀ i, w.allArgs i = none
  failed : ∀ i < r.serverNum, (r.sList i).serverState = .connected → q.re i = -1 →
    w.sList i = { r.sList i with alive := false, serverState := .disconnect }
  stored : ∀ i < r.serverNum, (r.sList i).serverState = .connected → q.re i ≠ -1 →
    let mem := writeBytes ((r.sList i).bank q.bankId) q.offset q.size q.buf
    w.sList i = { r.sList i with bank := Function.update (r.sList i).bank q.bankId mem }
  queued : ∀ i < r.serverNum, (r.sList i).serverState = .recovering →
    w.sList i = { r.sList i with
      rwTasks := (r.sList i).rwTasks ++ [⟨q.bankId, q.size, q.offset⟩]
      rwTasksLen := (r.sList i).rwTasksLen + 1 }
  unchanged : ∀ i, i < r.serverNum → (r.sList i).serverState = .disconnect ∨
    (r.sList i).serverState = .reconnect → w.sList i = r.sList i
  beyond : ∀ i, r.serverNum ≤ i → w.sList i = r.sList i

/-- What the stack holds for a server that gets no thread is not a one, unless the `memset`
covers it, and no task is to be appended behind freed ones. -/
structure CleanFrame (r : Remote) (stack : Nat → BitVec 32) : Prop where
  stack_ne : ∀ i < r.serverNum, (r.sList i).serverState ≠ .connected → r.serverNum ≤ 4 * i →
    stack i ≠ 1#32
  tasks : ∀ i < r.serverNum, (r.sList i).serverState = .recovering →
    (r.sList i).rwTasksFreed = false

/-! ## The array -/

/-- The `memset` covers the entries of the first quarter of the servers; the byte it leaves in
an entry is not that of a one. -/
theorem actualWriteServers_eq_one {serverNum i : Nat} {stack : Nat → BitVec 32} :
    actualWriteServers serverNum stack i = 1#32 ↔ serverNum ≤ 4 * i ∧ stack i = 1#32 := by
  unfold actualWriteServers
  rcases Nat.lt_or_ge (4 * i) serverNum with hlt | hge
  · obtain ⟨k, hk⟩ : ∃ k, serverNum - 4 * i = k + 1 := ⟨serverNum - 4 * i - 1, by omega⟩
    have hbit : (BitVec.ofNat 32 (256 ^ (k + 1) - 1)).getLsbD 1 = true := by
      rw [show 256 = 2 ^ 8 by decide, ← Nat.pow_mul, BitVec.getLsbD_ofNat,
        Nat.testBit_two_pow_sub_one]
      simp
      omega
    have hne : stack i ||| BitVec.ofNat 32 (256 ^ (k + 1) - 1) ≠ 1#32 := by
      intro h
      have := congrArg (fun v : BitVec 32 => v.getLsbD 1) h
      simp only [BitVec.getLsbD_or, hbit, Bool.or_true] at this
      exact absurd this (by decide)
    rw [hk]
    exact iff_of_false hne fun h => absurd h.1 (by omega)
  · have hz : serverNum - 4 * i = 0 := by omega
    simp [hz, hge]

/-! ## The loops -/

namespace WriteRequest

variable {q : WriteRequest} {l : List Nat} {w w' : WriteFrame} {i : Nat}

/-- A server after the first loop. -/
def enqueue (q : WriteRequest) (n : ServerNode) : ServerNode :=
  if n.serverState = .recovering then q.queue n else n

/-- The first loop over distinct servers. -/
theorem startWrites_spec (hn : l.Nodup)
    (hfree : ∀ i ∈ l, (w.sList i).serverState = .recovering → (w.sList i).rwTasksFreed = false) :
    q.startWrites l w = some
      { sList := fun i => if i ∈ l then q.enqueue (w.sList i) else w.sList i
        actualWriteServers := fun i =>
          if i ∈ l ∧ (w.sList i).serverState = .connected then 1#32 else w.actualWriteServers i
        allArgs := fun i =>
          if i ∈ l ∧ (w.sList i).serverState = .connected then some (q.args i) else w.allArgs i
        started := w.started ++
          (l.filter fun i => (w.sList i).serverState = .connected).map q.args
        awaited := w.awaited } := by
  induction l generalizing w with
  | nil => simp [startWrites]
  | cons i rest ih =>
    obtain ⟨hi, hn⟩ := List.nodup_cons.mp hn
    have hne : ∀ j ∈ rest, j ≠ i := fun j hj he => hi (he ▸ hj)
    rw [startWrites]
    cases hs : (w.sList i).serverState with
    | disconnect | reconnect =>
      simp only
      refine (ih hn fun j hj => hfree j (List.mem_cons_of_mem _ hj)).trans ?_
      simp only [Option.some.injEq, WriteFrame.mk.injEq, and_true]
      refine ⟨funext fun j => ?_, funext fun j => ?_, funext fun j => ?_, by simp [hs]⟩ <;>
        rcases eq_or_ne j i with rfl | hj <;> simp [enqueue, *]
    | recovering =>
      have hf := hfree i (by simp) hs
      simp only [hf, Bool.false_eq_true, if_false]
      refine (ih hn fun j hj => by
        simpa [hne j hj] using hfree j (List.mem_cons_of_mem _ hj)).trans ?_
      have hfilter : (rest.filter fun j => decide
          ((Function.update w.sList i (q.queue (w.sList i)) j).serverState = .connected)) =
          rest.filter fun j => decide ((w.sList j).serverState = .connected) :=
        List.filter_congr fun j hj => by simp [hne j hj]
      simp only [hfilter, Option.some.injEq, WriteFrame.mk.injEq, and_true]
      refine ⟨funext fun j => ?_, funext fun j => ?_, funext fun j => ?_, by simp [hs]⟩ <;>
        rcases eq_or_ne j i with rfl | hj <;> simp [enqueue, *]
    | connected =>
      simp only
      refine (ih hn ?_).trans ?_
      · exact fun j hj => hfree j (List.mem_cons_of_mem _ hj)
      simp only [Option.some.injEq, WriteFrame.mk.injEq, and_true]
      refine ⟨funext fun j => ?_, funext fun j => ?_, funext fun j => ?_, by simp [hs]⟩ <;>
        rcases eq_or_ne j i with rfl | hj <;> simp [enqueue, *]

/-- A task that is to be appended behind freed ones stops the call. -/
theorem startWrites_none (hn : l.Nodup) (hi : i ∈ l) (hs : (w.sList i).serverState = .recovering)
    (hf : (w.sList i).rwTasksFreed = true) : q.startWrites l w = none := by
  induction l generalizing w with
  | nil => simp at hi
  | cons j rest ih =>
    obtain ⟨hj, hn⟩ := List.nodup_cons.mp hn
    rw [startWrites]
    rcases List.mem_cons.mp hi with rfl | hi
    · simp [hs, hf]
    · have hne : i ≠ j := fun he => hj (he ▸ hi)
      cases (w.sList j).serverState with
      | disconnect | reconnect => exact ih hn hi hs hf
      | recovering =>
        simp only
        split
        · rfl
        · exact ih hn hi (by simpa [hne] using hs) (by simpa [hne] using hf)
      | connected => exact ih hn hi hs hf

/-- The second loop, where every server that is noted has a thread. -/
theorem awaitWrites_spec (hn : l.Nodup)
    (hargs : ∀ i ∈ l, w.actualWriteServers i = 1#32 → w.allArgs i = some (q.args i)) :
    q.awaitWrites l w = some { w with
      sList := fun i =>
        if i ∈ l ∧ w.actualWriteServers i = 1#32 then q.settle i (w.sList i) else w.sList i
      allArgs := fun i => if i ∈ l ∧ w.actualWriteServers i = 1#32 then none else w.allArgs i
      awaited := w.awaited ++ l.filter fun i => w.actualWriteServers i = 1#32 } := by
  induction l generalizing w with
  | nil => simp [awaitWrites]
  | cons i rest ih =>
    obtain ⟨hi, hn⟩ := List.nodup_cons.mp hn
    have hne : ∀ j ∈ rest, j ≠ i := fun j hj he => hi (he ▸ hj)
    rw [awaitWrites]
    by_cases ha : w.actualWriteServers i = 1#32
    · simp only [ha, if_true, hargs i (by simp) ha]
      refine (ih hn fun j hj haj => by
        simpa [hne j hj] using hargs j (List.mem_cons_of_mem _ hj) haj).trans ?_
      simp only [Option.some.injEq, WriteFrame.mk.injEq, true_and]
      refine ⟨funext fun j => ?_, funext fun j => ?_, by simp [ha]⟩ <;>
        rcases eq_or_ne j i with rfl | hj <;> simp [args, *]
    · rw [if_neg ha]
      refine (ih hn fun j hj => hargs j (List.mem_cons_of_mem _ hj)).trans ?_
      simp only [Option.some.injEq, WriteFrame.mk.injEq, true_and]
      refine ⟨funext fun j => ?_, funext fun j => ?_, by simp [ha]⟩ <;>
        rcases eq_or_ne j i with rfl | hj <;> simp [*]

/-- A server that is noted without a thread stops the call. -/
theorem awaitWrites_none (hi : i ∈ l) (ha : w.actualWriteServers i = 1#32)
    (hargs : w.allArgs i = none) : q.awaitWrites l w = none := by
  induction l generalizing w with
  | nil => simp at hi
  | cons j rest ih =>
    rw [awaitWrites]
    rcases eq_or_ne i j with rfl | hne
    · simp [ha, hargs]
    · have hi := (List.mem_cons.mp hi).resolve_left hne
      split
      · cases w.allArgs j with
        | none => rfl
        | some args => exact ih hi ha (by simpa [hne] using hargs)
      · exact ih hi ha hargs

/-! ## The call -/

section

variable {r : Remote} {stack : Nat → BitVec 32}

/-- The frame between the loops. -/
def startedFrame (q : WriteRequest) (r : Remote) (stack : Nat → BitVec 32) : WriteFrame where
  sList i := if i < r.serverNum then q.enqueue (r.sList i) else r.sList i
  actualWriteServers i := if i < r.serverNum ∧ (r.sList i).serverState = .connected then 1#32
    else DhmpFs.actualWriteServers r.serverNum stack i
  allArgs i := if i < r.serverNum ∧ (r.sList i).serverState = .connected then some (q.args i)
    else none
  started := ((List.range r.serverNum).filter fun i =>
    (r.sList i).serverState = .connected).map q.args
  awaited := []

/-- Where no task is appended behind freed ones, the second loop meets that frame. -/
theorem writeToRemoteThreads_eq (htasks : ∀ i < r.serverNum,
      (r.sList i).serverState = .recovering → (r.sList i).rwTasksFreed = false) :
    q.writeToRemoteThreads r stack =
      q.awaitWrites (List.range r.serverNum) (q.startedFrame r stack) := by
  unfold writeToRemoteThreads
  dsimp only
  rw [startWrites_spec List.nodup_range (by simpa using htasks), Option.bind_some]
  simp [startedFrame]

/-- The second loop waits for the server `i`. -/
theorem startedFrame_noted {i : Nat} (hi : i < r.serverNum) :
    (q.startedFrame r stack).actualWriteServers i = 1#32 ↔
      (r.sList i).serverState = .connected ∨ r.serverNum ≤ 4 * i ∧ stack i = 1#32 := by
  by_cases hs : (r.sList i).serverState = .connected
  · simp [startedFrame, hi, hs]
  · simp [startedFrame, hs, ← actualWriteServers_eq_one]

/-- A thread that is waited for leaves its server as the model without threads does. -/
theorem settle_enqueue (q : WriteRequest) (i : Nat) (n : ServerNode) :
    (if n.serverState = .connected then q.settle i (q.enqueue n) else q.enqueue n) =
      writeServer n (q.re i ≠ -1) q.bankId q.buf q.size q.offset := by
  cases hs : n.serverState <;> simp [enqueue, queue, settle, writeServer, hs]

/-- In a clean frame the second loop waits for the threads of the first, and the servers become
what the model without threads makes of them. -/
theorem writeToRemoteThreads_clean (hc : CleanFrame r stack) :
    q.writeToRemoteThreads r stack = some { q.startedFrame r stack with
      sList := fun i => if i < r.serverNum then
        writeServer (r.sList i) (q.re i ≠ -1) q.bankId q.buf q.size q.offset else r.sList i
      allArgs := fun _ => none
      awaited := (List.range r.serverNum).filter fun i =>
        (r.sList i).serverState = .connected } := by
  have noted : ∀ i < r.serverNum, (q.startedFrame r stack).actualWriteServers i = 1#32 ↔
      (r.sList i).serverState = .connected := by
    intro i hi
    rw [startedFrame_noted hi, or_iff_left_iff_imp]
    rintro ⟨hle, h1⟩
    by_contra hs
    exact hc.stack_ne i hi hs hle h1
  rw [writeToRemoteThreads_eq hc.tasks, awaitWrites_spec List.nodup_range ?_]
  · simp only [Option.some.injEq, WriteFrame.mk.injEq, true_and]
    refine ⟨funext fun i => ?_, funext fun i => ?_, ?_⟩
    · by_cases hi : i < r.serverNum
      · simp only [List.mem_range, hi, true_and, noted i hi, if_true, ← settle_enqueue]
        simp [startedFrame, hi]
      · simp [startedFrame, hi]
    · by_cases hi : i < r.serverNum
      · simp only [List.mem_range, hi, true_and, noted i hi]
        simp [startedFrame, hi]
      · simp [startedFrame, hi]
    · refine (List.nil_append _).trans (List.filter_congr fun i hi => ?_)
      simp only [noted i (List.mem_range.mp hi)]
  · intro i hi ha
    have hi := List.mem_range.mp hi
    simp [startedFrame, hi, (noted i hi).mp ha]

theorem writesExactly_clean (hc : CleanFrame r stack) :
    ∃ w, q.writeToRemoteThreads r stack = some w ∧ WritesExactly q r w := by
  refine ⟨_, writeToRemoteThreads_clean hc, ⟨rfl, ?_, ?_, ?_, ?_, ?_, ?_, ?_⟩⟩
  · simp [startedFrame, Function.comp_def, args]
  · simp
  · intro i hi hs hre
    simp [hi, writeServer, hs, hre]
  · intro i hi hs hre
    simp [hi, writeServer, hs, hre]
  · intro i hi hs
    simp [hi, writeServer, hs]
  · rintro i hi (hs | hs) <;> simp [writeServer, hs]
  · intro i hi
    simp [Nat.not_lt.mpr hi]

/-- `dhmp_fs_write_to_remote` with its threads is the write that knows only which servers take
it. -/
theorem writeToRemoteThreads_refines {env : WriteEnv}
    (hok : ∀ i, env.ok i = decide (q.re i ≠ -1)) (hc : CleanFrame r env.stack) :
    dhmpFsWriteToRemote r env q.bankId q.buf q.size q.offset =
      (q.writeToRemoteThreads r env.stack).map fun w => { r with sList := w.sList } := by
  rw [writeToRemoteThreads_clean hc]
  unfold dhmpFsWriteToRemote
  rw [if_neg ?_]
  · simp [hok]
  · simp only [List.any_eq_true, List.mem_range, decide_eq_true_eq, not_exists, not_and, not_or]
    intro i hi
    exact ⟨fun hs => by simp [hc.tasks i hi hs], fun hs h1 =>
      hc.stack_ne i hi hs (actualWriteServers_eq_one.mp h1).1 (actualWriteServers_eq_one.mp h1).2⟩

/-- Otherwise the call joins a thread that it did not start, or reads freed tasks. -/
theorem clean_of_writeToRemoteThreads {w : WriteFrame}
    (h : q.writeToRemoteThreads r stack = some w) : CleanFrame r stack := by
  have htasks : ∀ i < r.serverNum, (r.sList i).serverState = .recovering →
      (r.sList i).rwTasksFreed = false := by
    intro i hi hs
    by_contra hf
    have hnone := startWrites_none (q := q)
      (w := ⟨r.sList, DhmpFs.actualWriteServers r.serverNum stack, fun _ => none, [], []⟩)
      List.nodup_range (List.mem_range.mpr hi) hs (by simpa using hf)
    simp [writeToRemoteThreads, hnone] at h
  refine ⟨fun i hi hs hle h1 => ?_, htasks⟩
  rw [writeToRemoteThreads_eq htasks] at h
  have hnoted : (q.startedFrame r stack).actualWriteServers i = 1#32 :=
    (startedFrame_noted hi).mpr (.inr ⟨hle, h1⟩)
  have hnone : (q.startedFrame r stack).allArgs i = none := by simp [startedFrame, hs]
  rw [awaitWrites_none (List.mem_range.mpr hi) hnoted hnone] at h
  exact absurd h (by simp)

/-- `dhmp_fs_write_to_remote` does what it is meant to do exactly when what the stack held and
the redo lists permit it. -/
theorem replicated_write (q : WriteRequest) (r : Remote) (stack : Nat → BitVec 32) :
    (∃ w, q.writeToRemoteThreads r stack = some w ∧ WritesExactly q r w) ↔ CleanFrame r stack :=
  ⟨fun ⟨_, hw, _⟩ => clean_of_writeToRemoteThreads hw, writesExactly_clean⟩

/-- Of two servers the second is disconnected, and the stack holds a one in its place. -/
theorem not_replicated_write :
    ¬ ∃ w, WriteRequest.writeToRemoteThreads ⟨0, fun _ => 7, 4, 0, fun _ => 0⟩
      ((initRemote 2 fun _ _ _ => 0).setState 1 .disconnect) (fun _ => 1#32) = some w ∧
        WritesExactly ⟨0, fun _ => 7, 4, 0, fun _ => 0⟩
          ((initRemote 2 fun _ _ _ => 0).setState 1 .disconnect) w := by
  rintro ⟨w, hw, -⟩
  have hnone : WriteRequest.writeToRemoteThreads ⟨0, fun _ => 7, 4, 0, fun _ => 0⟩
      ((initRemote 2 fun _ _ _ => 0).setState 1 .disconnect) (fun _ => 1#32) = none := rfl
  simp [hnone] at hw

end

end WriteRequest

end DhmpFs
