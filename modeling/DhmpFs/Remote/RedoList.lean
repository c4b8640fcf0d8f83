import DhmpFs.Remote.Redo

/-!
# What is in a redo list

Writes append to the redo list of a server that is RECOVERING, and the recovery in which the
server is active frees the tasks once it has replayed them. It never unlinks them: the next
append or walk goes through freed memory.

## Main definitions

* `RedoListStep`: the steps of `RedoStep`, with the tasks appended since the last replay.
* `RedoListed`: each list holds these tasks, and none is freed.
* `KeepsLists`: the condition on a step.
-/

namespace DhmpFs

open Library

/-- The servers, the recovery that is under way, the tasks appended for each server since its last
replay, and the active server of the last recovery, if that had several survivors and
succeeded. -/
structure RedoListRun where
  remote : Remote
  recovery : Option Recovery
  appended : Nat → List RwTask
  succeeded : Option Nat

/-- A write appends a task for each server that is recovering. -/
def appendedAfterWrite (r : Remote) (appended : Nat → List RwTask) (task : RwTask) :
    Nat → List RwTask := fun i =>
  if i < r.serverNum ∧ (r.sList i).serverState = .recovering then appended i ++ [task]
  else appended i

/-- Once the tasks are replayed and freed, nothing has been appended since. -/
def appendedAfter (c : Recovery) (appended : Nat → List RwTask) : Nat → List RwTask :=
  match c.pc with
  | .free => Function.update appended c.active []
  | _ => appended

def succeededAfter (c : Recovery) (succeeded : Option Nat) : Option Nat :=
  match c.pc with
  | .handBackRecover => if c.single then none else some c.active
  | _ => succeeded

/-- One step. A call of `fuse_recover` during a recovery returns at once. -/
inductive RedoListStep : RedoListRun → RedoAction → RedoListRun → Prop where
  | write {s : RedoListRun} {env : WriteEnv} {bankId size offset : Nat} {buf : Bytes} {r : Remote}
      (h : dhmpFsWriteToRemote s.remote env bankId buf size offset = some r) :
      RedoListStep s (.write env bankId buf size offset)
        ⟨r, s.recovery, appendedAfterWrite s.remote s.appended ⟨bankId, size, offset⟩, s.succeeded⟩
  | rejected {s : RedoListRun} {recover : Nat} (h : s.remote.recoveryInUse = true) :
      RedoListStep s (.start recover) s
  | start {s : RedoListRun} {recover : Nat} (hserver : recover < s.remote.serverNum)
      (h : s.remote.recoveryInUse = false) :
      RedoListStep s (.start recover) ⟨(Recovery.start s.remote recover).1,
        (Recovery.start s.remote recover).2, s.appended, none⟩
  | step {s : RedoListRun} {c : Recovery} {out : RecoverOut} {r : Remote} {c' : Option Recovery}
      (hc : s.recovery = some c) (h : c.step s.remote out = some (r, c')) :
      RedoListStep s (.step out)
        ⟨r, c', appendedAfter c s.appended, succeededAfter c s.succeeded⟩

/-- Each redo list holds the tasks appended since its last replay, none of them freed, and is
empty after a recovery with several survivors in which its server was active. -/
structure RedoListed (s : RedoListRun) : Prop where
  rwTasks : ∀ i, (s.remote.sList i).rwTasks = s.appended i
  freed : ∀ i, (s.remote.sList i).rwTasksFreed = false
  empty : ∀ i, s.succeeded = some i → (s.remote.sList i).rwTasks = []

/-- No task is there to be freed, and none is appended between the freeing and the state change
that ends the queueing. -/
def KeepsLists (s : RedoListRun) : RedoAction → Prop
  | .write .. => ∀ c, s.recovery = some c → c.pc = .handBackActive → c.single = true
  | .start _ => True
  | .step _ => ∀ c, s.recovery = some c → c.pc = .free →
      (s.remote.sList c.active).rwTasks = []

/-! ## What a step does to the lists -/

section step

variable {r r' : Remote} {c : Recovery} {out : RecoverOut} {rec : Option Recovery}

/-- The redo lists of two states are the same. -/
def SameLists (r r' : Remote) : Prop :=
  ∀ i, (r'.sList i).rwTasks = (r.sList i).rwTasks ∧
    (r'.sList i).rwTasksFreed = (r.sList i).rwTasksFreed

theorem SameLists.setState (r : Remote) (i : Nat) (st : ServerState) :
    SameLists r (r.setState i st) :=
  fun j => ⟨setState_rwTasks r i j st, setState_rwTasksFreed r i j st⟩

/-- A recovery changes no redo list, but for freeing the tasks of its active server. -/
theorem Recovery.step_lists (hfree : c.pc = .free → (r.sList c.active).rwTasks = [])
    (h : c.step r out = some (r', rec)) : SameLists r r' := by
  cases Recovery.step_effect h with
  | same | clean => exact fun _ => ⟨rfl, rfl⟩
  | fails | begin | handBackActive | handBackRecover => exact .setState _ _ _
  | stores => exact fun _ => by simp
  | remalloc => exact fun _ => ⟨freshBank_rwTasks .., freshBank_rwTasksFreed ..⟩
  | free hpc =>
    rw [Remote.freeTasks_nil (hfree hpc)]
    exact fun _ => ⟨rfl, rfl⟩

end step

/-! ## Runs -/

section run

variable {s s' : RedoListRun} {a : RedoAction}

/-- What a recovery with several survivors knows of its active server once the tasks are freed. -/
def Recovery.Emptied (r : Remote) (c : Recovery) : Prop :=
  c.single = false →
    (c.pc = .handBackActive → (r.sList c.active).rwTasks = []) ∧
    (c.pc = .handBackRecover → (r.sList c.active).rwTasks = [] ∧
      (r.sList c.active).serverState ≠ .recovering)

structure RedoListInv (s : RedoListRun) : Prop where
  rwTasks : ∀ i, (s.remote.sList i).rwTasks = s.appended i
  freed : ∀ i, (s.remote.sList i).rwTasksFreed = false
  emptied : ∀ c, s.recovery = some c → c.Emptied s.remote
  succeeded : ∀ i, s.succeeded = some i → (s.remote.sList i).rwTasks = [] ∧
    (s.remote.sList i).serverState ≠ .recovering ∧ ∀ c, s.recovery = some c → c.pc = .clean

theorem RedoListInv.listed (h : RedoListInv s) : RedoListed s :=
  ⟨h.rwTasks, h.freed, fun i hi => (h.succeeded i hi).1⟩

theorem redoListInv_init (serverNum : Nat) (bank : Nat → Nat → Bytes) :
    RedoListInv ⟨initRemote serverNum bank, none, fun _ => [], none⟩ :=
  ⟨fun _ => rfl, fun _ => rfl, by simp, by simp⟩

theorem RedoListInv.write (h : RedoListInv s) {env : WriteEnv} {bankId size offset : Nat}
    {buf : Bytes} {r : Remote}
    (hkept : ∀ c, s.recovery = some c → c.pc = .handBackActive → c.single = true)
    (hw : dhmpFsWriteToRemote s.remote env bankId buf size offset = some r) :
    RedoListInv ⟨r, s.recovery, appendedAfterWrite s.remote s.appended ⟨bankId, size, offset⟩,
      s.succeeded⟩ := by
  obtain ⟨-, -, -, hlist⟩ := dhmpFsWriteToRemote_spec hw
  have idle : ∀ i, (s.remote.sList i).serverState ≠ .recovering →
      (r.sList i).rwTasks = (s.remote.sList i).rwTasks ∧
      (r.sList i).serverState ≠ .recovering := by
    intro i hi
    rw [hlist]
    split
    · exact writeServer_idle _ _ _ _ _ hi
    · exact ⟨rfl, hi⟩
  refine ⟨fun i => ?_, fun i => ?_, fun c hc hs => ⟨fun hpc => ?_, fun hpc => ?_⟩, fun i hi => ?_⟩
  · have := h.rwTasks i
    simp only [hlist, appendedAfterWrite]
    cases hst : (s.remote.sList i).serverState <;> grind [writeServer]
  · have := h.freed i
    simp only [hlist]
    cases hst : (s.remote.sList i).serverState <;> grind [writeServer]
  · exact absurd (hkept c hc hpc) (by simp [hs])
  · obtain ⟨hnil, hne⟩ := (h.emptied c hc hs).2 hpc
    exact ⟨(idle _ hne).1.trans hnil, (idle _ hne).2⟩
  · obtain ⟨hnil, hne, hclean⟩ := h.succeeded i hi
    exact ⟨(idle i hne).1.trans hnil, (idle i hne).2, hclean⟩

theorem RedoListInv.start (h : RedoListInv s) {recover : Nat}
    (huse : s.remote.recoveryInUse = false) :
    RedoListInv ⟨(Recovery.start s.remote recover).1, (Recovery.start s.remote recover).2,
      s.appended, none⟩ := by
  simp only [Recovery.start, huse, Bool.false_eq_true, if_false]
  have same : SameLists s.remote ({ s.remote with recoveryInUse := true }.setState recover
      .reconnect) := SameLists.setState { s.remote with recoveryInUse := true } recover .reconnect
  refine ⟨fun i => (same i).1.trans (h.rwTasks i), fun i => (same i).2.trans (h.freed i), ?_, ?_⟩
  · rintro _ ⟨⟩
    intro _
    constructor <;> simp
  · simp

/-- The hand back follows the freeing of the tasks, or the copy for a single survivor. -/
theorem Recovery.step_handBackActive {r r' : Remote} {c c' : Recovery} {out : RecoverOut}
    (h : c.step r out = some (r', some c')) (hpc' : c'.pc = .handBackActive) :
    (c.pc = .free ∨ c.pc = .copied ∧ c.single = true) ∧ c'.active = c.active ∧
      c'.single = c.single := by
  unfold step at h
  cases hpc : c.pc <;> simp only [hpc] at h <;> grind [Option.map_eq_some_iff]

theorem Recovery.step_handBackRecover {r r' : Remote} {c c' : Recovery} {out : RecoverOut}
    (h : c.step r out = some (r', some c')) (hpc' : c'.pc = .handBackRecover) :
    c.pc = .handBackActive ∧ r' = r.setState c.active .connected ∧ c'.active = c.active ∧
      c'.single = c.single := by
  unfold step at h
  cases hpc : c.pc <;> simp only [hpc] at h <;> grind [Option.map_eq_some_iff]

theorem Recovery.Emptied.step {r r' : Remote} {c c' : Recovery} {out : RecoverOut}
    (hc : c.Emptied r) (hfree : c.pc = .free → (r.sList c.active).rwTasks = [])
    (h : c.step r out = some (r', some c')) : c'.Emptied r' := by
  have same := Recovery.step_lists hfree h
  refine fun hs => ⟨fun hpc => ?_, fun hpc => ?_⟩
  · obtain ⟨hfrom, hactive, hsingle⟩ := Recovery.step_handBackActive h hpc
    rw [(same _).1, hactive]
    rcases hfrom with hfrom | ⟨-, htrue⟩
    · exact hfree hfrom
    · simp [hsingle, htrue] at hs
  · obtain ⟨hfrom, hr, hactive, hsingle⟩ := Recovery.step_handBackRecover h hpc
    rw [(same _).1, hactive]
    exact ⟨(hc (hsingle ▸ hs)).1 hfrom, by simp [hr]⟩

theorem appendedAfter_of_nil {r : Remote} {c : Recovery} {appended : Nat → List RwTask}
    (hlists : ∀ i, (r.sList i).rwTasks = appended i)
    (hfree : c.pc = .free → (r.sList c.active).rwTasks = []) :
    appendedAfter c appended = appended := by
  unfold appendedAfter
  split
  · next hpc => rw [← hfree hpc, hlists, Function.update_eq_self]
  · rfl

theorem RedoListInv.step (h : RedoListInv s) (hs : RedoListStep s a s') (hkept : KeepsLists s a) :
    RedoListInv s' := by
  cases hs with
  | write hw => exact h.write hkept hw
  | rejected huse => exact h
  | start hserver huse => exact h.start huse
  | @step c out r c' hc hstep =>
    have hfree := hkept c hc
    have same := Recovery.step_lists hfree hstep
    rw [appendedAfter_of_nil h.rwTasks hfree]
    refine ⟨fun i => (same i).1.trans (h.rwTasks i), fun i => (same i).2.trans (h.freed i), ?_,
      fun i hi => ?_⟩
    · rintro c' rfl
      exact (h.emptied c hc).step hfree hstep
    · rw [(same i).1]
      by_cases hpc : c.pc = .handBackRecover
      · simp only [succeededAfter, hpc] at hi
        split at hi
        · simp at hi
        next hsingle =>
          obtain rfl := Option.some.inj hi
          obtain ⟨hnil, hne⟩ := (h.emptied c hc (by simpa using hsingle)).2 hpc
          simp only [Recovery.step, hpc, Option.some.injEq, Prod.mk.injEq] at hstep
          obtain ⟨rfl, rfl⟩ := hstep
          refine ⟨hnil, ?_, by simp⟩
          rcases eq_or_ne c.active c.recover with he | he <;> simp [*]
      · have hold : s.succeeded = some i := by
          unfold succeededAfter at hi
          split at hi
          · next hpc' => exact absurd hpc' hpc
          · exact hi
        obtain ⟨hnil, hne, hclean⟩ := h.succeeded i hold
        simp only [Recovery.step, hclean c hc, Option.some.injEq, Prod.mk.injEq] at hstep
        obtain ⟨rfl, rfl⟩ := hstep
        exact ⟨hnil, hne, by simp⟩

/-- In every run of writes and recoveries whose steps meet the condition, each redo list holds
the tasks appended since its last replay, and none of them is freed. The step in which tasks are
freed otherwise leaves freed tasks in a list. -/
theorem redoListed_run {serverNum : Nat} {bank : Nat → Nat → Bytes} {as : List RedoAction}
    (h : Run (guarded KeepsLists RedoListStep) ⟨initRemote serverNum bank, none, fun _ => [], none⟩
      as s) :
    RedoListed s ∧ ∀ out s', RedoListStep s (.step out) s' →
      (RedoListed s' ↔ KeepsLists s (.step out)) := by
  have inv : RedoListInv s := h.invariant RedoListInv (fun _ _ _ hi hs => hi.step hs.2 hs.1)
    (redoListInv_init serverNum bank)
  refine ⟨inv.listed, fun out s' hs => ⟨fun hl => ?_, fun hk => (inv.step hs hk).listed⟩⟩
  cases hs with
  | @step c out r c' hc hstep =>
    rintro c₁ hc₁ hpc
    obtain rfl := Option.some.inj (hc.symm.trans hc₁)
    simp only [Recovery.step, hpc, Option.some.injEq, Prod.mk.injEq] at hstep
    obtain ⟨rfl, rfl⟩ := hstep
    simpa [Remote.freeTasks, inv.freed] using hl.freed c.active

/-- Only the freeing of tasks has a condition. -/
theorem keepsLists_step {c : Recovery} {out : RecoverOut} (hc : s.recovery = some c)
    (hpc : c.pc ≠ .free) : KeepsLists s (.step out) := by
  intro c' hc' hpc'
  obtain rfl := Option.some.inj (hc.symm.trans hc')
  exact absurd hpc' hpc

/-- Server 2 of three misses a write and is recovered up to the hand back, and no write comes
meanwhile. -/
theorem redoListed_run_free :
    ∃ s, Run (guarded KeepsLists RedoListStep) ⟨initRemote 3 fun _ _ _ => 0, none, fun _ => [], none⟩
      (.write ⟨fun i => i ≠ 2, fun _ => 0⟩ 1 (fun _ => 1) 1 0 :: .start 2 ::
        List.replicate 8 (.step .succeeding)) s ∧ RedoListed s := by
  have run : ∃ s, Run (guarded KeepsLists RedoListStep)
      ⟨initRemote 3 fun _ _ _ => 0, none, fun _ => [], none⟩
      (.write ⟨fun i => i ≠ 2, fun _ => 0⟩ 1 (fun _ => 1) 1 0 :: .start 2 ::
        List.replicate 8 (.step .succeeding)) s := by
    refine ⟨_, .cons ⟨nofun, .write rfl⟩ (.cons ⟨trivial, .start (by decide) rfl⟩
      (.cons ⟨keepsLists_step rfl nofun, .step rfl rfl⟩
      (.cons ⟨keepsLists_step rfl nofun, .step rfl rfl⟩
      (.cons ⟨keepsLists_step rfl nofun, .step rfl rfl⟩
      (.cons ⟨keepsLists_step rfl nofun, .step rfl rfl⟩
      (.cons ⟨keepsLists_step rfl nofun, .step rfl rfl⟩
      (.cons ⟨keepsLists_step rfl nofun, .step rfl rfl⟩
      (.cons ⟨keepsLists_step rfl nofun, .step rfl rfl⟩
      (.single ⟨?_, .step rfl rfl⟩)))))))))⟩
    rintro _ ⟨⟩ -
    rfl
  obtain ⟨s, h⟩ := run
  exact ⟨s, h, (redoListed_run h).1⟩

/-- One write comes while server 0 is RECOVERING: its task is replayed and freed, and stays in the
list. -/
theorem not_redoListed_replayed :
    ∃ s, Run RedoListStep ⟨initRemote 3 fun _ _ _ => 0, none, fun _ => [], none⟩
      (redoActions 0 ++ List.replicate 3 (.step .succeeding)) s ∧ ¬ RedoListed s := by
  refine ⟨_, .cons (.write rfl) (.cons (.start (by decide) rfl)
    (.cons (.step rfl rfl) (.cons (.step rfl rfl) (.cons (.step rfl rfl) (.cons (.step rfl rfl)
    (.cons (.write rfl)
    (.cons (.step rfl rfl) (.cons (.step rfl rfl) (.cons (.step rfl rfl) (.cons (.step rfl rfl)
    (.cons (.step rfl rfl) (.cons (.step rfl rfl) (.cons (.step rfl rfl) (.cons (.step rfl rfl)
    (.single (.step rfl rfl)))))))))))))))), fun h => ?_⟩
  exact absurd (h.freed 0) (by decide)

end run

end DhmpFs
