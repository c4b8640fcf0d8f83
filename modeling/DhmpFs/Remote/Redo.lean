import DhmpFs.Remote.RecoverSteps
import DhmpFs.Remote.Agreement

/-!
# The redo list

While a server is RECOVERING its writes are queued, and `fuse_recover` replays them before the
server is CONNECTED again. Three things go wrong: with one survivor nothing is replayed, a write
that comes after the last look at the list is not seen, and the replay takes the bytes for an
offset from the start of its buffer.

## Main definitions

* `RedoStep`: a write, the start of a recovery, or one of its steps.
* `RedoKept`: connected servers have no write waiting, and a replay copies the right bytes.
* `Redoes`: the condition on a step.
-/

namespace DhmpFs

open Library

/-- The servers, the recovery that is under way, and for each server the positions in its redo
list of the tasks that were queued and not replayed. -/
structure RedoRun where
  remote : Remote
  recovery : Option Recovery
  pending : Nat → Set Nat

inductive RedoAction where
  | write (env : WriteEnv) (bankId : Nat) (buf : Bytes) (size offset : Nat)
  | start (recover : Nat)
  | step (out : RecoverOut)

/-- A write is queued for each server that is recovering. -/
def queued (r : Remote) (pending : Nat → Set Nat) : Nat → Set Nat := fun i =>
  if i < r.serverNum ∧ (r.sList i).serverState = .recovering then
    insert (r.sList i).rwTasks.length (pending i)
  else pending i

/-- A replay that has written to both servers is done. -/
def redone (c : Recovery) (ok : Bool) (pending : Nat → Set Nat) : Nat → Set Nat :=
  match c.pc with
  | .replayRecover k _ =>
    if ok then Function.update pending c.active (pending c.active \ {k}) else pending
  | _ => pending

/-- One step. A call of `fuse_recover` during a recovery returns at once. -/
inductive RedoStep : RedoRun → RedoAction → RedoRun → Prop where
  | write {s : RedoRun} {env : WriteEnv} {bankId size offset : Nat} {buf : Bytes} {r : Remote}
      (hbank : bankId < bankNum) (hfit : offset + size ≤ bankSize)
      (h : dhmpFsWriteToRemote s.remote env bankId buf size offset = some r) :
      RedoStep s (.write env bankId buf size offset)
        ⟨r, s.recovery, queued s.remote s.pending⟩
  | rejected {s : RedoRun} {recover : Nat} (h : s.remote.recoveryInUse = true) :
      RedoStep s (.start recover) s
  | start {s : RedoRun} {recover : Nat} (hserver : recover < s.remote.serverNum)
      (h : s.remote.recoveryInUse = false) :
      RedoStep s (.start recover)
        ⟨(Recovery.start s.remote recover).1, (Recovery.start s.remote recover).2, s.pending⟩
  | step {s : RedoRun} {c : Recovery} {out : RecoverOut} {r : Remote} {c' : Option Recovery}
      (hc : s.recovery = some c) (h : c.step s.remote out = some (r, c')) :
      RedoStep s (.step out) ⟨r, c', redone c out.ok s.pending⟩

/-- A server that is connected has no queued write waiting, and a replay has left on both
servers the bytes that the third server had. -/
structure RedoKept (s : RedoRun) : Prop where
  replayed : ∀ i, (s.remote.sList i).serverState = .connected → s.pending i = ∅
  equal : ∀ c k task, s.recovery = some c → c.pc = .replayed k task →
    ∀ o, task.bankOffset ≤ o → o < task.bankOffset + task.size →
      (s.remote.sList c.active).bank task.bankId o = c.snap o ∧
      (s.remote.sList c.recover).bank task.bankId o = c.snap o

/-- A write that comes now is replayed: the recovery has not passed its replay. -/
def Recovery.SeesWrites (c : Recovery) : Prop :=
  match c.pc with
  | .copyBanks _ | .copyBanksWrite _ _ | .copyJournal _ _ | .copyJournalWrite _ _ _ | .copied =>
    c.single = false
  | .free | .handBackActive => False
  | _ => True

/-- No write comes during the recovery of one server by one survivor, or after the replay; a
server whose own recovery of another failed with writes waiting is not taken back; and the bytes
a replay takes from the start of the bank are those at the offset. -/
def Redoes (s : RedoRun) : RedoAction → Prop
  | .write .. => ∀ c, s.recovery = some c → c.SeesWrites
  | .start recover => s.pending recover = ∅
  | .step out => out.ok = true → ∀ c k task latest, s.recovery = some c →
      c.pc = .replayRead k task latest → ∀ o < task.size,
        (s.remote.sList latest).bank task.bankId o =
          (s.remote.sList latest).bank task.bankId (task.bankOffset + o)

/-! ## Invariant -/

/-- What holds of every server, whether or not a recovery is under way. -/
structure RedoSound (r : Remote) (pending : Nat → Set Nat) : Prop where
  fits : ∀ i, ∀ task ∈ (r.sList i).rwTasks, task.bankOffset + task.size ≤ bankSize
  waiting : ∀ i, ∀ p ∈ pending i, p < (r.sList i).rwTasks.length
  connected : ∀ i, (r.sList i).serverState = .connected → pending i = ∅

namespace Recovery

/-- The server to recover takes no writes and has none waiting. -/
structure Down (r : Remote) (pending : Nat → Set Nat) (recover : Nat) : Prop where
  state : (r.sList recover).serverState = .reconnect
  waiting : pending recover = ∅

/-- The active server queues its writes. -/
structure Window (r : Remote) (pending : Nat → Set Nat) (recover active : Nat) : Prop
    extends Down r pending recover where
  queueing : (r.sList active).serverState = .recovering

/-- The replay has come to position `k`. -/
structure Replaying (r : Remote) (pending : Nat → Set Nat) (recover active k : Nat) : Prop
    extends Window r pending recover active where
  le : k ≤ (r.sList active).rwTasks.length
  from_le : ∀ p ∈ pending active, k ≤ p

/-- The server `i` holds the bytes of the task as the third server had them. -/
def Redone (r : Remote) (snap : Bytes) (i : Nat) (task : RwTask) : Prop :=
  ∀ o, task.bankOffset ≤ o → o < task.bankOffset + task.size →
    (r.sList i).bank task.bankId o = snap o

/-- The start of the buffer holds the bytes of the task. -/
def InBuffer (context snap : Bytes) (task : RwTask) : Prop :=
  ∀ o < task.size, context o = snap (task.bankOffset + o)

/-- What a recovery knows at each of its places. -/
def Facts (r : Remote) (pending : Nat → Set Nat) (c : Recovery) : Prop :=
  match c.pc with
  | .count | .remalloc | .choose | .handBackRecover => Down r pending c.recover
  | .begin => Down r pending c.recover ∧ (r.sList c.active).serverState ≠ .recovering ∧
      (r.sList c.active).serverState ≠ .reconnect ∧ pending c.active = ∅
  | .copyBanks _ | .copyBanksWrite _ _ | .copyJournal _ _ | .copyJournalWrite _ _ _ | .copied =>
      Window r pending c.recover c.active ∧ (c.single = true → pending c.active = ∅)
  | .replay k => Replaying r pending c.recover c.active k
  | .replayRead k task _ => Replaying r pending c.recover c.active k ∧
      (r.sList c.active).rwTasks[k]? = some task
  | .replayActive k task => Replaying r pending c.recover c.active k ∧
      (r.sList c.active).rwTasks[k]? = some task ∧ InBuffer c.context c.snap task
  | .replayRecover k task => Replaying r pending c.recover c.active k ∧
      (r.sList c.active).rwTasks[k]? = some task ∧ InBuffer c.context c.snap task ∧
      Redone r c.snap c.active task
  | .replayed k task => Replaying r pending c.recover c.active (k + 1) ∧
      Redone r c.snap c.active task ∧ Redone r c.snap c.recover task
  | .free | .handBackActive => Window r pending c.recover c.active ∧ pending c.active = ∅
  | .clean => True

end Recovery

structure RedoInv (s : RedoRun) : Prop where
  sound : RedoSound s.remote s.pending
  facts : ∀ c, s.recovery = some c → c.Facts s.remote s.pending

section write

variable {r r' : Remote} {pending : Nat → Set Nat} {c : Recovery} {env : WriteEnv} {i j k : Nat}
  {bankId size offset : Nat} {buf : Bytes} {task : RwTask}

/-- A recovering server queues a write and is not written to. -/
theorem write_recovering (h : dhmpFsWriteToRemote r env bankId buf size offset = some r')
    (hi : (r.sList i).serverState = .recovering) :
    (r'.sList i).serverState = .recovering ∧ (r'.sList i).bank = (r.sList i).bank ∧
      ∃ l, (r'.sList i).rwTasks = (r.sList i).rwTasks ++ l := by
  obtain ⟨-, -, -, hlist⟩ := dhmpFsWriteToRemote_spec h
  rw [hlist]
  split
  · simp [writeServer, hi]
  · exact ⟨hi, rfl, [], by simp⟩

theorem write_reconnect (h : dhmpFsWriteToRemote r env bankId buf size offset = some r')
    (hi : (r.sList i).serverState = .reconnect) : r'.sList i = r.sList i := by
  obtain ⟨-, -, -, hlist⟩ := dhmpFsWriteToRemote_spec h
  rw [hlist]
  simp [writeServer, hi]

/-- Nothing is queued for a server that is not recovering. -/
theorem queued_of_ne (hi : (r.sList i).serverState ≠ .recovering) :
    queued r pending i = pending i :=
  if_neg fun hc => hi hc.2

/-- A write leaves the servers sound. -/
theorem RedoSound.write (hs : RedoSound r pending) (hfit : offset + size ≤ bankSize)
    (h : dhmpFsWriteToRemote r env bankId buf size offset = some r') :
    RedoSound r' (queued r pending) := by
  obtain ⟨-, -, -, hlist⟩ := dhmpFsWriteToRemote_spec h
  refine ⟨fun i task ht => ?_, fun i p hp => ?_, fun i hc => ?_⟩
  · have := hs.fits i task
    rw [hlist] at ht
    split at ht
    · cases hst : (r.sList i).serverState <;> grind [writeServer]
    · exact this ht
  · have := hs.waiting i p
    rw [hlist]
    unfold queued at hp
    cases hst : (r.sList i).serverState <;> grind [writeServer]
  · rw [hlist] at hc
    have hconn : (r.sList i).serverState = .connected := by
      split at hc
      · exact (writeServer_connected hc).1
      · exact hc
    rw [queued_of_ne (by simp [hconn])]
    exact hs.connected i hconn

namespace Recovery

theorem Down.write (hd : Down r pending i)
    (h : dhmpFsWriteToRemote r env bankId buf size offset = some r') :
    Down r' (queued r pending) i where
  state := by rw [write_reconnect h hd.state]; exact hd.state
  waiting := by rw [queued_of_ne (by simp [hd.state])]; exact hd.waiting

theorem Window.write (hw : Window r pending i j)
    (h : dhmpFsWriteToRemote r env bankId buf size offset = some r') :
    Window r' (queued r pending) i j where
  toDown := hw.toDown.write h
  queueing := (write_recovering h hw.queueing).1

theorem Replaying.write (hr : Replaying r pending i j k)
    (h : dhmpFsWriteToRemote r env bankId buf size offset = some r') :
    Replaying r' (queued r pending) i j k where
  toWindow := hr.toWindow.write h
  le := by
    obtain ⟨-, -, l, hl⟩ := write_recovering h hr.queueing
    rw [hl, List.length_append]
    exact hr.le.trans (Nat.le_add_right _ _)
  from_le p hp := by
    unfold queued at hp
    split at hp
    · rcases hp with rfl | hp
      · exact hr.le
      · exact hr.from_le p hp
    · exact hr.from_le p hp

theorem task_write (hw : Window r pending i j)
    (h : dhmpFsWriteToRemote r env bankId buf size offset = some r')
    (ht : (r.sList j).rwTasks[k]? = some task) : (r'.sList j).rwTasks[k]? = some task := by
  obtain ⟨-, -, l, hl⟩ := write_recovering h hw.queueing
  rw [hl, List.getElem?_append_left (List.getElem?_eq_some_iff.mp ht).1]
  exact ht

/-- A write that comes while it is still seen leaves a recovery what it knows. -/
theorem Facts.write (hf : c.Facts r pending) (hsees : c.SeesWrites)
    (h : dhmpFsWriteToRemote r env bankId buf size offset = some r') :
    c.Facts r' (queued r pending) := by
  unfold Facts SeesWrites at *
  have hactive (hw : Window r pending c.recover c.active) := (write_recovering h hw.queueing).2.1
  cases hpc : c.pc <;> simp only [hpc] at hf hsees ⊢
  case count | remalloc | choose | handBackRecover => exact hf.write h
  case begin =>
    obtain ⟨hd, hne, hne', hwaiting⟩ := hf
    refine ⟨hd.write h, ?_, ?_, by rw [queued_of_ne hne]; exact hwaiting⟩ <;>
    · obtain ⟨-, -, -, hlist⟩ := dhmpFsWriteToRemote_spec h
      rw [hlist]
      cases hst : (r.sList c.active).serverState <;> grind [writeServer]
  case copyBanks | copyBanksWrite | copyJournal | copyJournalWrite | copied =>
    exact ⟨hf.1.write h, by simp [hsees]⟩
  case replay => exact hf.write h
  case replayRead => exact ⟨hf.1.write h, task_write hf.1.toWindow h hf.2⟩
  case replayActive =>
    exact ⟨hf.1.write h, task_write hf.1.toWindow h hf.2.1, hf.2.2⟩
  case replayRecover =>
    obtain ⟨hr, ht, hcontext, hredone⟩ := hf
    refine ⟨hr.write h, task_write hr.toWindow h ht, hcontext, fun o hlo hhi => ?_⟩
    rw [hactive hr.toWindow]
    exact hredone o hlo hhi
  case replayed =>
    obtain ⟨hr, hredone, hredone'⟩ := hf
    refine ⟨hr.write h, fun o hlo hhi => ?_, fun o hlo hhi => ?_⟩
    · rw [hactive hr.toWindow]
      exact hredone o hlo hhi
    · rw [write_reconnect h hr.state]
      exact hredone' o hlo hhi

end Recovery

end write

/-! ## Steps of the recovery -/

section step

variable {r r' : Remote} {pending : Nat → Set Nat} {c c' : Recovery} {i j k bankId : Nat}
  {mem : Bytes} {st : ServerState} {out : RecoverOut} {task : RwTask}

/-- A server gets a state in which nothing waits for it. -/
theorem RedoSound.setState (hs : RedoSound r pending)
    (h : st = .connected → pending i = ∅) : RedoSound (r.setState i st) pending where
  fits j task ht := hs.fits j task (by rwa [setState_rwTasks] at ht)
  waiting j p hp := by rw [setState_rwTasks]; exact hs.waiting j p hp
  connected j hj := by
    rw [setState_serverState] at hj
    have := hs.connected j
    grind

/-- Only states and queues matter. -/
theorem RedoSound.congr (hs : RedoSound r pending)
    (hstate : ∀ j, (r'.sList j).serverState = (r.sList j).serverState)
    (htasks : ∀ j, (r'.sList j).rwTasks = (r.sList j).rwTasks) : RedoSound r' pending where
  fits j task ht := hs.fits j task (htasks j ▸ ht)
  waiting j p hp := by rw [htasks]; exact hs.waiting j p hp
  connected j hj := hs.connected j (hstate j ▸ hj)

theorem RedoSound.mono (hs : RedoSound r pending) {pending' : Nat → Set Nat}
    (hsub : ∀ i, pending' i ⊆ pending i) : RedoSound r pending' :=
  ⟨hs.fits, fun i p hp => hs.waiting i p (hsub i hp),
    fun i hi => Set.subset_eq_empty (hsub i) (hs.connected i hi)⟩

namespace Recovery

theorem Down.frame (h : Down r pending i)
    (hstate : ∀ j, (r'.sList j).serverState = (r.sList j).serverState) : Down r' pending i :=
  ⟨(hstate i).trans h.state, h.waiting⟩

theorem Window.frame (h : Window r pending i j)
    (hstate : ∀ j, (r'.sList j).serverState = (r.sList j).serverState) : Window r' pending i j :=
  ⟨h.toDown.frame hstate, (hstate j).trans h.queueing⟩

theorem Replaying.frame (h : Replaying r pending i j k)
    (hstate : ∀ j, (r'.sList j).serverState = (r.sList j).serverState)
    (htasks : ∀ j, (r'.sList j).rwTasks = (r.sList j).rwTasks) : Replaying r' pending i j k :=
  ⟨h.toWindow.frame hstate, htasks j ▸ h.le, h.from_le⟩

theorem Window.ne (h : Window r pending i j) : i ≠ j := by
  rintro rfl
  exact absurd (h.state.symm.trans h.queueing) (by decide)

/-- The recovery begins once the active server queues its writes. -/
theorem Down.window (h : Down r pending i) (hne : (r.sList j).serverState ≠ .reconnect) :
    Window (r.setState j .recovering) pending i j := by
  have hij : i ≠ j := by
    rintro rfl
    exact hne h.state
  exact ⟨⟨by simpa [hij] using h.state, h.waiting⟩, by simp⟩

/-- The task `k` does not wait any more. -/
theorem redone_subset (pending : Nat → Set Nat) (j k i : Nat) :
    Function.update pending j (pending j \ {k}) i ⊆ pending i := by
  intro p hp
  rcases eq_or_ne i j with rfl | hi
  · rw [Function.update_self] at hp
    exact hp.1
  · rwa [Function.update_of_ne hi] at hp

/-- The replay goes on with the next task. -/
theorem Replaying.next (h : Replaying r pending i j k) (hk : k < (r.sList j).rwTasks.length) :
    Replaying r (Function.update pending j (pending j \ {k})) i j (k + 1) where
  state := h.state
  waiting := (Function.update_of_ne h.ne _ _).trans h.waiting
  queueing := h.queueing
  le := Nat.succ_le_of_lt hk
  from_le p hp := by
    rw [Function.update_self] at hp
    exact Nat.lt_of_le_of_ne (h.from_le p hp.1) fun he => hp.2 he.symm

/-- What a step leaves behind. -/
def Kept (r : Remote) (pending : Nat → Set Nat) (c : Option Recovery) : Prop :=
  RedoSound r pending ∧ ∀ c', c = some c' → c'.Facts r pending

theorem Kept.some (hs : RedoSound r pending) (hf : c.Facts r pending) :
    Kept r pending (.some c) :=
  ⟨hs, by rintro _ ⟨⟩; exact hf⟩

/-- A recovery that jumps to its clean-up has disconnected a server. -/
theorem Kept.clean (hs : RedoSound r pending) (i : Nat) :
    Kept (r.setState i .disconnect) pending (.some { c with pc := .clean }) :=
  .some (hs.setState (by simp)) trivial

/-- The bytes that a replay writes are those of the third server. -/
theorem redone_setBank {context snap : Bytes} (h : InBuffer context snap task) :
    Redone (r.setBank i task.bankId (writeBytes ((r.sList i).bank task.bankId) task.bankOffset
      task.size context)) snap i task := by
  intro o hlo hhi
  have := h (o - task.bankOffset) (by omega)
  rw [Nat.add_sub_cancel' hlo] at this
  simp [Remote.setBank, writeBytes, hlo, hhi, this]

/-- A step of a recovery that meets the condition leaves the servers sound and knows what holds
next. -/
theorem step_kept (hs : RedoSound r pending) (hf : c.Facts r pending)
    (hbytes : out.ok = true → ∀ k task latest, c.pc = .replayRead k task latest →
      ∀ o < task.size, (r.sList latest).bank task.bankId o =
        (r.sList latest).bank task.bankId (task.bankOffset + o))
    {rec : Option Recovery} (h : c.step r out = some (r', rec)) :
    Kept r' (redone c out.ok pending) rec := by
  have hfit := hs.fits
  unfold step at h
  unfold Facts at hf
  unfold redone
  cases hpc : c.pc <;> simp only [hpc] at h hf ⊢
  case count =>
    split at h <;> obtain ⟨rfl, rfl⟩ := Prod.mk.inj (Option.some.inj h)
    · exact ⟨hs, by simp⟩
    · exact .some hs hf
  case remalloc =>
    obtain ⟨rfl, rfl⟩ := Prod.mk.inj (Option.some.inj h)
    exact .some (hs.congr (fun j => freshBank_serverState ..) fun j => freshBank_rwTasks ..)
      (hf.frame fun j => freshBank_serverState ..)
  case choose =>
    obtain ⟨active, hactive, heq⟩ := Option.map_eq_some_iff.mp h
    obtain ⟨rfl, rfl⟩ := Prod.mk.inj heq
    have hconn := (Remote.findAliveServer_spec hactive).2
    exact .some hs ⟨hf, by simp [hconn], by simp [hconn], hs.connected _ hconn⟩
  case begin =>
    obtain ⟨rfl, rfl⟩ := Prod.mk.inj (Option.some.inj h)
    obtain ⟨hd, -, hne, hwaiting⟩ := hf
    have hcopy : ∀ pc, pc = .copyBanks (List.range bankNum) ∨
        pc = .copyJournal (fun _ => false) r.journal →
        Facts (r.setState c.active .recovering) pending { c with pc := pc } := by
      rintro _ (rfl | rfl) <;> exact ⟨hd.window hne, fun _ => hwaiting⟩
    exact .some (hs.setState (by simp)) (hcopy _ (by split <;> simp))
  case copyBanks banks =>
    cases banks with
    | nil =>
      obtain ⟨rfl, rfl⟩ := Prod.mk.inj (Option.some.inj h)
      exact .some hs hf
    | cons i rest =>
      simp only at h
      split at h <;> obtain ⟨rfl, rfl⟩ := Prod.mk.inj (Option.some.inj h)
      · exact .clean hs _
      · exact .some hs hf
  case copyBanksWrite i rest =>
    split at h <;> obtain ⟨rfl, rfl⟩ := Prod.mk.inj (Option.some.inj h)
    · exact .clean hs _
    · exact .some (hs.congr (by simp) (by simp)) ⟨hf.1.frame (by simp), hf.2⟩
  case copyJournal bankFlag tasks =>
    cases tasks with
    | nil =>
      obtain ⟨rfl, rfl⟩ := Prod.mk.inj (Option.some.inj h)
      exact .some hs hf
    | cons task rest =>
      simp only at h
      split at h <;> obtain ⟨rfl, rfl⟩ := Prod.mk.inj (Option.some.inj h)
      · exact .some hs hf
      · exact .some hs hf
  case copyJournalWrite bankFlag i rest =>
    obtain ⟨rfl, rfl⟩ := Prod.mk.inj (Option.some.inj h)
    split
    · exact .some (hs.congr (by simp) (by simp)) ⟨hf.1.frame (by simp), hf.2⟩
    · exact .some hs hf
  case copied =>
    obtain ⟨rfl, rfl⟩ := Prod.mk.inj (Option.some.inj h)
    cases hsingle : c.single with
    | true => exact .some hs ⟨hf.1, hf.2 hsingle⟩
    | false => exact .some hs ⟨hf.1, Nat.zero_le _, fun _ _ => Nat.zero_le _⟩
  case replay k =>
    split at h
    · exact absurd h (by simp)
    · split at h
      · next htask =>
        obtain ⟨rfl, rfl⟩ := Prod.mk.inj (Option.some.inj h)
        have hlen := List.getElem?_eq_none_iff.mp htask
        refine .some hs ⟨hf.toWindow, Set.eq_empty_of_forall_notMem fun p hp => ?_⟩
        have hlt := hs.waiting c.active p hp
        exact absurd (hlt.trans_le (hlen.trans (hf.from_le p hp))) (lt_irrefl p)
      · next task htask =>
        obtain ⟨latest, -, heq⟩ := Option.map_eq_some_iff.mp h
        obtain ⟨rfl, rfl⟩ := Prod.mk.inj heq
        exact .some hs ⟨hf, htask⟩
  case replayRead k task latest =>
    split at h <;> obtain ⟨rfl, rfl⟩ := Prod.mk.inj (Option.some.inj h)
    · exact .clean hs _
    · next hok =>
      refine .some hs ⟨hf.1, hf.2, fun o ho => ?_⟩
      have := hfit _ task (List.mem_of_getElem? hf.2)
      have hlt : o < bankSize := by simp only [bankSize] at *; omega
      simpa [readBytes, hlt] using hbytes (by simpa using hok) k task latest hpc o ho
  case replayActive k task =>
    split at h <;> obtain ⟨rfl, rfl⟩ := Prod.mk.inj (Option.some.inj h)
    · exact .clean hs _
    · refine .some (hs.congr (by simp) (by simp)) ⟨hf.1.frame (by simp) (by simp), ?_, hf.2.2, ?_⟩
      · simpa using hf.2.1
      · exact redone_setBank hf.2.2
  case replayRecover k task =>
    obtain ⟨hr, htask, hbuf, hredone⟩ := hf
    cases hok : out.ok <;>
      simp only [hok, Bool.not_false, Bool.not_true, if_true, Bool.false_eq_true, if_false]
        at h ⊢ <;>
      obtain ⟨rfl, rfl⟩ := Prod.mk.inj (Option.some.inj h)
    · exact .clean hs _
    · refine .some ((hs.congr (by simp) (by simp)).mono (redone_subset pending c.active k))
        ⟨(hr.frame (by simp) (by simp)).next ?_, fun o hlo hhi => ?_, redone_setBank hbuf⟩
      · simpa using (List.getElem?_eq_some_iff.mp htask).1
      · rw [← hredone o hlo hhi]
        simp [Remote.setBank, hr.ne.symm]
  case replayed k task =>
    obtain ⟨rfl, rfl⟩ := Prod.mk.inj (Option.some.inj h)
    exact .some hs hf.1
  case free =>
    obtain ⟨rfl, rfl⟩ := Prod.mk.inj (Option.some.inj h)
    exact .some (hs.congr (by simp) (by simp)) ⟨hf.1.frame (by simp), hf.2⟩
  case handBackActive =>
    obtain ⟨rfl, rfl⟩ := Prod.mk.inj (Option.some.inj h)
    have hne := hf.1.ne
    exact .some (hs.setState fun _ => hf.2) ⟨by simpa [hne] using hf.1.state, hf.1.waiting⟩
  case handBackRecover =>
    obtain ⟨rfl, rfl⟩ := Prod.mk.inj (Option.some.inj h)
    exact .some (hs.setState fun _ => hf.waiting) trivial
  case clean =>
    obtain ⟨rfl, rfl⟩ := Prod.mk.inj (Option.some.inj h)
    exact ⟨hs.congr (fun _ => rfl) fun _ => rfl, by simp⟩

end Recovery

end step

/-! ## Runs -/

section runs

variable {s s' : RedoRun} {a : RedoAction}

theorem RedoInv.kept (h : RedoInv s) : RedoKept s where
  replayed := h.sound.connected
  equal c k task hc hpc o hlo hhi := by
    have hf := h.facts c hc
    simp only [Recovery.Facts, hpc] at hf
    exact ⟨hf.2.1 o hlo hhi, hf.2.2 o hlo hhi⟩

theorem RedoInv.start {recover : Nat} (h : RedoInv s) (huse : s.remote.recoveryInUse = false)
    (hwaiting : s.pending recover = ∅) :
    RedoInv ⟨(Recovery.start s.remote recover).1, (Recovery.start s.remote recover).2,
      s.pending⟩ := by
  simp only [Recovery.start, huse, Bool.false_eq_true, if_false]
  have hs : RedoSound { s.remote with recoveryInUse := true } s.pending :=
    h.sound.congr (fun _ => rfl) fun _ => rfl
  refine ⟨hs.setState (by simp), ?_⟩
  rintro _ ⟨⟩
  exact ⟨by simp, hwaiting⟩

/-- A step that meets the condition keeps the invariant. -/
theorem RedoInv.step (h : RedoInv s) (hs : RedoStep s a s') (hr : Redoes s a) : RedoInv s' := by
  cases hs with
  | write hbank hfit hwrite =>
    exact ⟨h.sound.write hfit hwrite, fun c hc => (h.facts c hc).write (hr c hc) hwrite⟩
  | rejected huse => exact h
  | start hserver huse => exact h.start huse hr
  | @step c out r c' hc hstep =>
    obtain ⟨hsound, hfacts⟩ := Recovery.step_kept h.sound (h.facts c hc)
      (fun hok k task latest hpc => hr hok c k task latest hc hpc) hstep
    exact ⟨hsound, hfacts⟩

theorem redoInv_init (serverNum : Nat) (bank : Nat → Nat → Bytes) :
    RedoInv ⟨initRemote serverNum bank, none, fun _ => ∅⟩ :=
  ⟨⟨fun _ _ h => absurd h (by simp [initRemote]), fun _ _ h => absurd h (Set.notMem_empty _),
    fun _ _ => rfl⟩, fun _ h => absurd h (by simp)⟩

/-- In every run of writes and recoveries whose steps meet the condition, each queued write is
replayed before its server is connected again, with the bytes of the third server. -/
theorem redoKept_run {serverNum : Nat} {bank : Nat → Nat → Bytes} {as : List RedoAction}
    (h : Run (guarded Redoes RedoStep) ⟨initRemote serverNum bank, none, fun _ => ∅⟩ as s) :
    RedoKept s :=
  (h.invariant RedoInv (fun _ _ _ hi hs => hi.step hs.2 hs.1)
    (redoInv_init serverNum bank)).kept

/-- A step in which every remote call succeeds. -/
def RecoverOut.succeeding : RecoverOut := ⟨true, fun _ _ => 0, fun _ => 0⟩

/-- Server 2 of three misses a write and is recovered; meanwhile one byte of bank 0 is written at
`offset`, and its replay has come to the end. -/
def redoActions (offset : Nat) : List RedoAction :=
  [.write ⟨fun i => i ≠ 2, fun _ => 0⟩ 1 (fun _ => 1) 1 0, .start 2, .step .succeeding,
    .step .succeeding, .step .succeeding, .step .succeeding,
    .write ⟨fun _ => true, fun _ => 0⟩ 0 (fun _ => 1) 1 offset,
    .step .succeeding, .step .succeeding, .step .succeeding, .step .succeeding,
    .step .succeeding, .step .succeeding]

/-- Only a read from the third server has a condition. -/
theorem redoes_step {c : Recovery} {out : RecoverOut} (hc : s.recovery = some c)
    (hpc : ∀ k task latest, c.pc ≠ .replayRead k task latest) : Redoes s (.step out) := by
  intro _ c' k task latest hc' hpc'
  obtain rfl := Option.some.inj (hc.symm.trans hc')
  exact absurd hpc' (hpc k task latest)

/-- A replay at offset 0. -/
theorem redoKept_run_replay :
    ∃ s, Run (guarded Redoes RedoStep) ⟨initRemote 3 fun _ _ _ => 0, none, fun _ => ∅⟩
      (redoActions 0) s ∧ RedoKept s := by
  have run : ∃ s, Run (guarded Redoes RedoStep) ⟨initRemote 3 fun _ _ _ => 0, none, fun _ => ∅⟩
      (redoActions 0) s := by
    refine ⟨_, .cons ⟨nofun, .write (by decide) (by decide) rfl⟩
      (.cons ⟨rfl, .start (by decide) rfl⟩
      (.cons ⟨redoes_step rfl nofun, .step rfl rfl⟩ (.cons ⟨redoes_step rfl nofun, .step rfl rfl⟩
      (.cons ⟨redoes_step rfl nofun, .step rfl rfl⟩ (.cons ⟨redoes_step rfl nofun, .step rfl rfl⟩
      (.cons ⟨?_, .write (by decide) (by decide) rfl⟩
      (.cons ⟨redoes_step rfl nofun, .step rfl rfl⟩ (.cons ⟨redoes_step rfl nofun, .step rfl rfl⟩
      (.cons ⟨redoes_step rfl nofun, .step rfl rfl⟩ (.cons ⟨?_, .step rfl rfl⟩
      (.cons ⟨redoes_step rfl nofun, .step rfl rfl⟩
      (.single ⟨redoes_step rfl nofun, .step rfl rfl⟩))))))))))))⟩
    · rintro c ⟨⟩
      rfl
    · rintro _ c k task latest ⟨⟩ ⟨⟩ o ho
      simp
  obtain ⟨s, h⟩ := run
  exact ⟨s, h, redoKept_run h⟩

/-- A replay at offset 1 writes the byte from offset 0. -/
theorem not_redoKept_offset :
    ∃ s, Run RedoStep ⟨initRemote 3 fun _ _ _ => 0, none, fun _ => ∅⟩ (redoActions 1) s ∧
      ¬ RedoKept s := by
  refine ⟨_, .cons (.write (by decide) (by decide) rfl) (.cons (.start (by decide) rfl)
    (.cons (.step rfl rfl) (.cons (.step rfl rfl) (.cons (.step rfl rfl) (.cons (.step rfl rfl)
    (.cons (.write (by decide) (by decide) rfl)
    (.cons (.step rfl rfl) (.cons (.step rfl rfl) (.cons (.step rfl rfl) (.cons (.step rfl rfl)
    (.cons (.step rfl rfl) (.single (.step rfl rfl))))))))))))), fun h => ?_⟩
  exact absurd (h.equal _ _ _ rfl rfl 1 (by decide) (by decide)).1 (by decide)

end runs

end DhmpFs
