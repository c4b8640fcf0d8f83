import DhmpFs.Remote.Recovery
import DhmpFs.Library.Run

/-!
# The recovery, step by step

`fuse_recover` as a thread: between two of its steps any other thread may write. Its locks do
not keep writers out, since `dhmp_fs_write_to_remote` takes neither `server_mutex` nor
`fuse_mutex`. The copy of the third server's bank that a replay works from is recorded in `snap`.

## Main definitions

* `RecoverPc`, `Recovery`: where a recovery stands, and its local variables.
* `Recovery.step`: the next step, and `Recovery.Effect`, what it may make of the servers.
* `RecoverStep`: a recovery that no write interrupts, which is `fuse_recover`.
-/

namespace DhmpFs

/-- The places of `fuse_recover` between its steps. -/
inductive RecoverPc where
  | count
  | remalloc
  | choose
  | begin
  | copyBanks (banks : List Nat)
  | copyBanksWrite (i : Nat) (rest : List Nat)
  | copyJournal (bankFlag : Nat → Bool) (tasks : List RwTask)
  | copyJournalWrite (bankFlag : Nat → Bool) (i : Nat) (rest : List RwTask)
  | copied
  | replay (k : Nat)
  | replayRead (k : Nat) (task : RwTask) (latest : Nat)
  | replayActive (k : Nat) (task : RwTask)
  | replayRecover (k : Nat) (task : RwTask)
  | replayed (k : Nat) (task : RwTask)
  | free
  | handBackActive
  | handBackRecover
  | clean

/-- The local variables of `fuse_recover`. -/
structure Recovery where
  recover : Nat
  active : Nat
  single : Bool
  context : Bytes
  snap : Bytes
  pc : RecoverPc

/-- What a step meets: the outcome of its remote call, or the memory it is given. -/
structure RecoverOut where
  ok : Bool
  fresh : Nat → Bytes
  context : Bytes

namespace Recovery

/-- `fuse_recover` up to the count of the servers: the test of `recovery_in_use`. -/
def start (r : Remote) (recover : Nat) : Remote × Option Recovery :=
  if r.recoveryInUse then (r, none)
  else
    ({ r with recoveryInUse := true }.setState recover .reconnect,
      some ⟨recover, 0, false, fun _ => 0, fun _ => 0, .count⟩)

/-- The next step of a recovery, which is over when there is none. `none`: the walk over freed
tasks, or a missing server. -/
def step (r : Remote) (c : Recovery) (out : RecoverOut) : Option (Remote × Option Recovery) :=
  match c.pc with
  | .count =>
    if r.aliveNum = 0 then some (r, none)
    else some (r, some { c with single := r.aliveNum = 1, pc := .remalloc })
  | .remalloc =>
    some (r.setServer c.recover { r.sList c.recover with bank := out.fresh },
      some { c with pc := .choose })
  | .choose => r.findAliveServer.map fun active =>
    (r, some { c with active := active, context := out.context, pc := .begin })
  | .begin =>
    let pc := if r.useBankLen = bankNum then .copyBanks (List.range bankNum)
      else .copyJournal (fun _ => false) r.journal
    some (r.setState c.active .recovering, some { c with pc := pc })
  | .copyBanks [] => some (r, some { c with pc := .copied })
  | .copyBanks (i :: rest) =>
    if !out.ok then some (r.setState c.active .disconnect, some { c with pc := .clean })
    else
      let context := readBytes ((r.sList c.active).bank i) 0 bankSize c.context
      some (r, some { c with context := context, pc := .copyBanksWrite i rest })
  | .copyBanksWrite i rest =>
    if !out.ok then some (r.setState c.recover .disconnect, some { c with pc := .clean })
    else
      let mem := writeBytes ((r.sList c.recover).bank i) 0 bankSize c.context
      some (r.setBank c.recover i mem, some { c with pc := .copyBanks rest })
  | .copyJournal _ [] => some (r, some { c with pc := .copied })
  | .copyJournal bankFlag (task :: rest) =>
    let i := task.bankId
    if bankFlag i then some (r, some { c with pc := .copyJournal bankFlag rest })
    else
      let context :=
        if out.ok then readBytes ((r.sList c.active).bank i) 0 bankSize c.context else c.context
      some (r, some { c with context := context, pc := .copyJournalWrite bankFlag i rest })
  | .copyJournalWrite bankFlag i rest =>
    let r :=
      if out.ok then
        r.setBank c.recover i (writeBytes ((r.sList c.recover).bank i) 0 bankSize c.context)
      else r
    some (r, some { c with pc := .copyJournal (Function.update bankFlag i true) rest })
  | .copied => some (r, some { c with pc := if c.single then .handBackActive else .replay 0 })
  | .replay k =>
    if (r.sList c.active).rwTasksFreed then none
    else
      match (r.sList c.active).rwTasks[k]? with
      | none => some (r, some { c with pc := .free })
      | some task => r.findAliveServer.map fun latest =>
        (r, some { c with pc := .replayRead k task latest })
  | .replayRead k task latest =>
    if !out.ok then some (r.setState latest .disconnect, some { c with pc := .clean })
    else
      let bank := (r.sList latest).bank task.bankId
      some (r, some { c with
        context := readBytes bank 0 bankSize c.context
        snap := bank
        pc := .replayActive k task })
  | .replayActive k task =>
    if !out.ok then some (r.setState c.active .disconnect, some { c with pc := .clean })
    else
      let bank := (r.sList c.active).bank task.bankId
      let mem := writeBytes bank task.bankOffset task.size c.context
      some (r.setBank c.active task.bankId mem, some { c with pc := .replayRecover k task })
  | .replayRecover k task =>
    if !out.ok then some (r.setState c.recover .disconnect, some { c with pc := .clean })
    else
      let bank := (r.sList c.recover).bank task.bankId
      let mem := writeBytes bank task.bankOffset task.size c.context
      some (r.setBank c.recover task.bankId mem, some { c with pc := .replayed k task })
  | .replayed k _ => some (r, some { c with pc := .replay (k + 1) })
  | .free => some (r.freeTasks c.active, some { c with pc := .handBackActive })
  | .handBackActive =>
    some (r.setState c.active .connected, some { c with pc := .handBackRecover })
  | .handBackRecover => some (r.setState c.recover .connected, some { c with pc := .clean })
  | .clean => some (r.cleanRecover, none)

/-- What a step may make of the servers. -/
inductive Effect (r : Remote) (c : Recovery) (out : RecoverOut) : Remote → Prop where
  | same : Effect r c out r
  | fails (i : Nat) : Effect r c out (r.setState i .disconnect)
  | stores (i bankId : Nat) (mem : Bytes) : Effect r c out (r.setBank i bankId mem)
  | remalloc (h : c.pc = .remalloc) :
      Effect r c out (r.setServer c.recover { r.sList c.recover with bank := out.fresh })
  | begin (h : c.pc = .begin) : Effect r c out (r.setState c.active .recovering)
  | free (h : c.pc = .free) : Effect r c out (r.freeTasks c.active)
  | handBackActive (h : c.pc = .handBackActive) :
      Effect r c out (r.setState c.active .connected)
  | handBackRecover (h : c.pc = .handBackRecover) :
      Effect r c out (r.setState c.recover .connected)
  | clean (h : c.pc = .clean) : Effect r c out r.cleanRecover

theorem step_effect {r r' : Remote} {c : Recovery} {out : RecoverOut} {rec : Option Recovery}
    (h : c.step r out = some (r', rec)) : Effect r c out r' := by
  unfold step at h
  cases hpc : c.pc <;> simp only [hpc] at h <;> grind [Effect, Option.map_eq_some_iff]

end Recovery

/-! ## A recovery that no write interrupts -/

/-- A step of the recovery that is under way. -/
def RecoverStep (p : Remote × Option Recovery) (out : RecoverOut)
    (q : Remote × Option Recovery) : Prop :=
  ∃ c, p.2 = some c ∧ c.step p.1 out = some q

namespace Recovery

open Library Remote

/-- The steps from `c` lead to where a loop of `fuse_recover` ends: at `pc`, or at the clean-up. -/
def Ends (r : Remote) (c : Recovery) (p : Progress) (pc : RecoverPc) : Prop :=
  ∃ outs c', Run RecoverStep (r, some c) outs (p.remote, some c') ∧ c'.recover = c.recover ∧
    c'.active = c.active ∧ c'.single = c.single ∧ c'.context = p.context ∧
    c'.pc = if p.done then pc else .clean

section

variable {env : RecoverEnv} {r r₁ : Remote} {c c₁ : Recovery} {p : Progress} {pc : RecoverPc}

theorem Ends.single (out : RecoverOut) (h : c.step r out = some (p.remote, some c₁))
    (hr : c₁.recover = c.recover) (ha : c₁.active = c.active) (hs : c₁.single = c.single)
    (hc : c₁.context = p.context) (hpc : c₁.pc = if p.done then pc else .clean) : Ends r c p pc :=
  ⟨_, c₁, Run.single ⟨c, rfl, h⟩, hr, ha, hs, hc, hpc⟩

theorem Ends.cons (out : RecoverOut) (h : c.step r out = some (r₁, some c₁))
    (hr : c₁.recover = c.recover) (ha : c₁.active = c.active) (hs : c₁.single = c.single)
    (g : Ends r₁ c₁ p pc) : Ends r c p pc := by
  obtain ⟨outs, c', run, hr', ha', hs', hc, hpc⟩ := g
  exact ⟨_, c', .cons ⟨c, rfl, h⟩ run, hr'.trans hr, ha'.trans ha, hs'.trans hs, hc, hpc⟩

/-- The outcome of a remote call. -/
def outcome (env : RecoverEnv) (ok : Bool) : RecoverOut := ⟨ok, env.fresh, env.context⟩

theorem ends_copyBanks (c : Recovery) (banks : List Nat) :
    Ends r { c with pc := .copyBanks banks }
      (copyBanks env c.active c.recover banks r c.context) .copied := by
  induction banks generalizing r c with
  | nil => exact .single (outcome env true) rfl rfl rfl rfl rfl rfl
  | cons i rest ih =>
    rw [copyBanks]
    split
    · next hread =>
      exact .single (outcome env false) rfl rfl rfl rfl rfl rfl
    · refine .cons (outcome env true) rfl rfl rfl rfl ?_
      dsimp only
      split
      · exact .single (outcome env false) rfl rfl rfl rfl rfl rfl
      · refine .cons (outcome env true) rfl rfl rfl rfl ?_
        exact ih { c with context := readBytes ((r.sList c.active).bank i) 0 bankSize c.context }

theorem ends_copyJournal (c : Recovery) (bankFlag : Nat → Bool) (tasks : List RwTask) :
    Ends r { c with pc := .copyJournal bankFlag tasks }
      (copyJournal env c.active c.recover bankFlag tasks r c.context) .copied := by
  induction tasks generalizing r c bankFlag with
  | nil => exact .single (outcome env true) rfl rfl rfl rfl rfl rfl
  | cons task rest ih =>
    rw [copyJournal]
    dsimp only
    split
    · next hflag =>
      refine .cons (outcome env true) (if_pos hflag) rfl rfl rfl ?_
      exact ih c bankFlag
    · next hflag =>
      refine .cons (outcome env (env.copyRead task.bankId)) (if_neg hflag) rfl rfl rfl ?_
      refine .cons (outcome env (env.copyWrite task.bankId)) rfl rfl rfl rfl ?_
      exact ih { c with context := if env.copyRead task.bankId then
        (readBytes ((r.sList c.active).bank task.bankId) 0 bankSize c.context) else c.context } _

theorem ends_replay (c : Recovery) (k : Nat) {tasks : List RwTask}
    (hlist : (r.sList c.active).rwTasks.drop k = tasks)
    (hfreed : (r.sList c.active).rwTasksFreed = false)
    (h : replay env c.active c.recover k tasks r c.context = some p) :
    Ends r { c with pc := .replay k } p .free := by
  induction tasks generalizing r c k with
  | nil =>
    obtain rfl : ⟨r, c.context, true⟩ = p := by simpa [replay] using h
    have hnone : (r.sList c.active).rwTasks[k]? = none :=
      List.getElem?_eq_none (List.drop_eq_nil_iff.mp hlist)
    have hstep : step r { c with pc := .replay k } (outcome env true) =
        some (r, some { c with pc := .free }) := by
      simp [step, hfreed, hnone]
    exact .single _ hstep rfl rfl rfl rfl rfl
  | cons task rest ih =>
    have htask : (r.sList c.active).rwTasks[k]? = some task := by
      rw [← List.head?_drop, hlist]
      rfl
    have hrest : (r.sList c.active).rwTasks.drop (k + 1) = rest := by
      rw [← List.tail_drop, hlist]
      rfl
    rw [replay] at h
    cases hl : r.findAliveServer with
    | none => simp [hl] at h
    | some latest =>
      have hstep : step r { c with pc := .replay k } (outcome env true) =
          some (r, some { c with pc := .replayRead k task latest }) := by
        simp [step, hfreed, htask, hl]
      refine .cons _ hstep rfl rfl rfl ?_
      simp only [hl] at h
      split at h
      · obtain rfl := Option.some.inj h
        exact .single (outcome env false) rfl rfl rfl rfl rfl rfl
      refine .cons (outcome env true) rfl rfl rfl rfl ?_
      split at h
      · obtain rfl := Option.some.inj h
        exact .single (outcome env false) rfl rfl rfl rfl rfl rfl
      refine .cons (outcome env true) rfl rfl rfl rfl ?_
      split at h
      · obtain rfl := Option.some.inj h
        exact .single (outcome env false) rfl rfl rfl rfl rfl rfl
      refine .cons (outcome env true) rfl rfl rfl rfl ?_
      refine .cons (outcome env true) rfl rfl rfl rfl ?_
      refine ih { c with
        context := readBytes ((r.sList latest).bank task.bankId) 0 bankSize c.context
        snap := (r.sList latest).bank task.bankId } (k + 1) ?_ ?_ h
      · simpa using hrest
      · simpa using hfreed

/-- The steps from `c` lead to the return of `fuse_recover` in `r'`. -/
def Returns (r : Remote) (c : Recovery) (r' : Remote) : Prop :=
  ∃ outs, Run RecoverStep (r, some c) outs (r', none)

theorem Returns.cons (out : RecoverOut) (h : c.step r out = some (r₁, some c₁)) {r' : Remote}
    (g : Returns r₁ c₁ r') : Returns r c r' := by
  obtain ⟨outs, run⟩ := g
  exact ⟨_, .cons ⟨c, rfl, h⟩ run⟩

/-- A loop and what comes after it. -/
theorem Ends.returns (h : Ends r c p pc) {r' : Remote}
    (g : ∀ c', c'.recover = c.recover → c'.active = c.active → c'.single = c.single →
      c'.context = p.context → (c'.pc = if p.done then pc else .clean) → Returns p.remote c' r') :
    Returns r c r' := by
  obtain ⟨outs, c', run, hr, ha, hs, hc, hpc⟩ := h
  obtain ⟨outs', run'⟩ := g c' hr ha hs hc hpc
  exact ⟨_, run.trans run'⟩

theorem returns_clean (env : RecoverEnv) (r : Remote) (h : c.pc = .clean) :
    Returns r c r.cleanRecover := by
  have hstep : c.step r (outcome env true) = some (r.cleanRecover, none) := by
    simp [step, h]
  exact ⟨_, Run.single ⟨c, rfl, hstep⟩⟩

theorem returns_handBack (env : RecoverEnv) (r : Remote) (h : c.pc = .handBackActive) :
    Returns r c (r.handBack c.active c.recover).cleanRecover := by
  have hstep : c.step r (outcome env true) =
      some (r.setState c.active .connected, some { c with pc := .handBackRecover }) := by
    simp [step, h]
  refine .cons _ hstep (.cons (outcome env true) rfl ?_)
  exact returns_clean env _ rfl

/-- The end of the call, once the tasks are replayed. -/
theorem returns_replayed {r' : Remote} (env : RecoverEnv)
    (hpc : c.pc = if p.done then .free else .clean)
    (h : (if !p.done then some p.remote.cleanRecover
      else some ((freeTasks c.active p.remote).handBack c.active c.recover).cleanRecover) =
        some r') : Returns p.remote c r' := by
  cases hdone : p.done with
  | false =>
    obtain rfl : p.remote.cleanRecover = r' := by simpa [hdone] using h
    exact returns_clean env _ (by simpa [hdone] using hpc)
  | true =>
    obtain rfl : ((freeTasks c.active p.remote).handBack c.active c.recover).cleanRecover = r' := by
      simpa [hdone] using h
    have hstep : c.step p.remote (outcome env true) =
        some (freeTasks c.active p.remote, some { c with pc := .handBackActive }) := by
      simp [step, hpc, hdone]
    exact .cons _ hstep (returns_handBack (c := { c with pc := .handBackActive }) env _ rfl)

/-- The end of the call, once the banks are copied. -/
theorem returns_copied {r' : Remote} (env : RecoverEnv) (hcontext : c.context = p.context)
    (hpc : c.pc = if p.done then .copied else .clean)
    (h : (if !p.done then some p.remote.cleanRecover
      else if c.single then some (p.remote.handBack c.active c.recover).cleanRecover
      else if (p.remote.sList c.active).rwTasksFreed then none
      else
        match replay env c.active c.recover 0 (p.remote.sList c.active).rwTasks p.remote
          p.context with
        | none => none
        | some q =>
          if !q.done then some q.remote.cleanRecover
          else some ((freeTasks c.active q.remote).handBack c.active c.recover).cleanRecover) =
        some r') : Returns p.remote c r' := by
  cases hdone : p.done with
  | false =>
    obtain rfl : p.remote.cleanRecover = r' := by simpa [hdone] using h
    exact returns_clean env _ (by simpa [hdone] using hpc)
  | true =>
    simp only [hdone, Bool.not_true, Bool.false_eq_true, if_false] at h
    cases hs : c.single with
    | true =>
      obtain rfl : (p.remote.handBack c.active c.recover).cleanRecover = r' := by
        simpa [hs] using h
      have hstep : c.step p.remote (outcome env true) =
          some (p.remote, some { c with pc := .handBackActive }) := by
        simp [step, hpc, hdone, hs]
      exact .cons _ hstep (returns_handBack (c := { c with pc := .handBackActive }) env _ rfl)
    | false =>
      have hstep : c.step p.remote (outcome env true) =
          some (p.remote, some { c with pc := .replay 0 }) := by
        simp [step, hpc, hdone, hs]
      simp only [hs, Bool.false_eq_true, if_false] at h
      split at h
      · simp at h
      next hfreed =>
        split at h
        · simp at h
        next q hreplay =>
          rw [← hcontext] at hreplay
          have hfreed' := Bool.eq_false_iff.mpr hfreed
          refine .cons _ hstep ((ends_replay c 0 rfl hfreed' hreplay).returns
            fun c' hr ha _ _ hpc' => returns_replayed env hpc' ?_)
          rw [hr, ha]
          exact h

/-- From the copy on, the steps are those of the call as a whole. -/
theorem returns_copyAndReplay {r' : Remote} (env : RecoverEnv) (hcontext : c.context = env.context)
    (hpc : c.pc = if r.useBankLen = bankNum then .copyBanks (List.range bankNum)
      else .copyJournal (fun _ => false) r.journal)
    (h : copyAndReplay env c.active c.recover c.single r = some r') : Returns r c r' := by
  have hcopy : Ends r c (if r.useBankLen = bankNum then
      copyBanks env c.active c.recover (List.range bankNum) r env.context
      else copyJournal env c.active c.recover (fun _ => false) r.journal r env.context)
      .copied := by
    obtain ⟨recover, active, single, context, snap, pc⟩ := c
    obtain rfl : context = env.context := hcontext
    dsimp only at hpc ⊢
    subst hpc
    split
    · exact ends_copyBanks ⟨recover, active, single, env.context, snap, .count⟩ _
    · exact ends_copyJournal ⟨recover, active, single, env.context, snap, .count⟩ _ _
  refine hcopy.returns fun c' hr ha hs hc hpc' => returns_copied env hc hpc' ?_
  rw [hr, ha, hs]
  exact h

/-- The steps of a recovery, one after the other, are `fuse_recover`. -/
theorem run_alone {r' : Remote} {recover : Nat} (hidle : r.recoveryInUse = false)
    (h : r.fuseRecover env recover = some r') :
    ∃ outs, Run RecoverStep (start r recover) outs (r', none) := by
  rw [fuseRecover, hidle, if_neg Bool.false_ne_true] at h
  rw [start, hidle, if_neg Bool.false_ne_true]
  generalize { r with recoveryInUse := true }.setState recover .reconnect = r at h ⊢
  dsimp only at h
  split at h
  · next hzero =>
    obtain rfl := Option.some.inj h
    exact ⟨[outcome env true], .single ⟨_, rfl, if_pos hzero⟩⟩
  · next hpos =>
    obtain ⟨active, hactive, hrest⟩ := Option.bind_eq_some_iff.mp h
    have hcount : step r ⟨recover, 0, false, fun _ => 0, fun _ => 0, .count⟩ (outcome env true) =
        some (r, some ⟨recover, 0, r.aliveNum = 1, fun _ => 0, fun _ => 0, .remalloc⟩) :=
      if_neg hpos
    have hchoose : step (r.setServer recover { r.sList recover with bank := env.fresh })
        ⟨recover, 0, r.aliveNum = 1, fun _ => 0, fun _ => 0, .choose⟩ (outcome env true) =
          some (r.setServer recover { r.sList recover with bank := env.fresh },
            some ⟨recover, active, r.aliveNum = 1, env.context, fun _ => 0, .begin⟩) := by
      rw [step, hactive]
      rfl
    refine Returns.cons _ hcount (.cons (outcome env true) rfl (.cons _ hchoose ?_))
    refine .cons (outcome env true) rfl (returns_copyAndReplay env rfl ?_ ?_)
    · rfl
    · exact hrest

end

end Recovery

end DhmpFs
