import DhmpFs.Library.Replicas
import DhmpFs.Library.Run
import DhmpFs.Remote.Recovery

/-!
# Agreement of the servers

Banks are flushed to all servers, servers fail, and `fuse_recover` takes them back. Nothing
keeps `use_bank_len` and the journal up to date, so a recovery copies no bank: the server that
comes back holds what `dhmp_malloc` returned.

## Main definitions

* `RemoteStep`: one flush, one read or one recovery.
* `ReplicasAgree`: connected servers hold the same bytes in each bank flushed so far.
* `Restores`: the condition on a recovery under which they do.
-/

namespace DhmpFs

open Library

/-- A bank is flushed, bytes are read, or a server is recovered. -/
inductive RemoteAction where
  | flush (env : WriteEnv) (bankId : Nat) (buf : Bytes)
  | read (env : ReadEnv) (bankId : Nat) (buf : Bytes) (size offset : Nat)
  | recover (env : RecoverEnv) (reServer : Nat)

/-- The servers, and the banks that have been flushed. -/
abbrev RemoteRun := Remote × Set Nat

/-- One action that completes. A recovery is of a server that is not connected. -/
inductive RemoteStep : RemoteRun → RemoteAction → RemoteRun → Prop where
  | flush {r r' : Remote} {flushed : Set Nat} {env : WriteEnv} {bankId : Nat} {buf : Bytes}
      (hbank : bankId < bankNum)
      (h : dhmpFsWriteToRemote r env bankId buf bankSize 0 = some r') :
      RemoteStep (r, flushed) (.flush env bankId buf) (r', insert bankId flushed)
  | read {r r' : Remote} {flushed : Set Nat} {env : ReadEnv} {bankId size offset : Nat}
      {buf buf' : Bytes}
      (h : dhmpFsReadFromRemote r env bankId buf size offset = some (r', buf')) :
      RemoteStep (r, flushed) (.read env bankId buf size offset) (r', flushed)
  | recover {r r' : Remote} {flushed : Set Nat} {env : RecoverEnv} {reServer : Nat}
      (hserver : reServer < r.serverNum)
      (hdown : (r.sList reServer).serverState ≠ .connected)
      (h : r.fuseRecover env reServer = some r') :
      RemoteStep (r, flushed) (.recover env reServer) (r', flushed)

/-- The connected servers as replicas of the cells of the banks. -/
def Remote.replicas (r : Remote) : Replicas Nat (Nat × Nat) UInt8 where
  up := {i | i < r.serverNum ∧ (r.sList i).serverState = .connected}
  val i cell := (r.sList i).bank cell.1 cell.2

/-- The cells of the banks of a set. -/
def cells (banks : Set Nat) : Set (Nat × Nat) := {cell | cell.1 ∈ banks ∧ cell.2 < bankSize}

/-- Any two connected servers hold the same bytes in every bank that has been flushed. -/
def ReplicasAgree (st : RemoteRun) : Prop := st.1.replicas.AgreeOn (cells st.2)

/-- A recovery that finds a connected server gets memory which already holds what that server
holds in the banks flushed so far. -/
def Restores (st : RemoteRun) : RemoteAction → Prop
  | .recover env _ => st.1.recoveryInUse = false → ∀ active, st.1.findAliveServer = some active →
      ∀ b ∈ st.2, ∀ o < bankSize, env.fresh b o = (st.1.sList active).bank b o
  | _ => True

/-- No write is waiting for a server, and the recovery has nothing to copy. -/
structure Remote.Idle (r : Remote) : Prop where
  useBankLen : r.useBankLen = 0
  journal : r.journal = []
  rwTasks : ∀ i, (r.sList i).rwTasks = []
  recovering : ∀ i < r.serverNum, (r.sList i).serverState ≠ .recovering

/-! ## Flushes and reads -/

section steps

variable {r r' : Remote}

@[simp] theorem Remote.setServer_sList (r : Remote) (i : Nat) (n : ServerNode) :
    (r.setServer i n).sList = Function.update r.sList i n := rfl

@[simp] theorem Remote.setServer_serverNum (r : Remote) (i : Nat) (n : ServerNode) :
    (r.setServer i n).serverNum = r.serverNum := rfl

theorem Remote.findAliveServer_spec {i : Nat} (h : r.findAliveServer = some i) :
    i < r.serverNum ∧ (r.sList i).serverState = .connected := by
  have hm := List.mem_of_find?_eq_some h
  have hc := List.find?_some h
  simp_all

/-- What a write makes of the servers. -/
theorem dhmpFsWriteToRemote_spec {env : WriteEnv} {bankId size offset : Nat} {buf : Bytes}
    (h : dhmpFsWriteToRemote r env bankId buf size offset = some r') :
    r'.serverNum = r.serverNum ∧ r'.useBankLen = r.useBankLen ∧ r'.journal = r.journal ∧
      ∀ i, r'.sList i = if i < r.serverNum then
        writeServer (r.sList i) (env.ok i) bankId buf size offset else r.sList i := by
  unfold dhmpFsWriteToRemote at h
  split at h
  · exact absurd h (by simp)
  · obtain rfl := Option.some.inj h
    exact ⟨rfl, rfl, rfl, fun _ => rfl⟩

/-- A server that is connected after a write has taken it. -/
theorem writeServer_connected {n : ServerNode} {ok : Bool} {bankId size offset : Nat} {buf : Bytes}
    (h : (writeServer n ok bankId buf size offset).serverState = .connected) :
    n.serverState = .connected ∧ (writeServer n ok bankId buf size offset).bank =
      Function.update n.bank bankId (writeBytes (n.bank bankId) offset size buf) := by
  unfold writeServer at *
  cases hs : n.serverState with
  | connected => cases ok <;> simp_all
  | _ => simp_all

/-- A server that is connected after a write was connected before and took it. -/
theorem writeServer_connected_iff {n : ServerNode} {ok : Bool} {bankId size offset : Nat}
    {buf : Bytes} : (writeServer n ok bankId buf size offset).serverState = .connected ↔
      n.serverState = .connected ∧ ok = true := by
  unfold writeServer
  cases hs : n.serverState with
  | connected => cases ok <;> simp
  | _ => simp [hs]

theorem writeServer_disconnect_iff {n : ServerNode} {ok : Bool} {bankId size offset : Nat}
    {buf : Bytes} : (writeServer n ok bankId buf size offset).serverState = .disconnect ↔
      n.serverState = .disconnect ∨ n.serverState = .connected ∧ ok = false := by
  unfold writeServer
  cases hs : n.serverState with
  | connected => cases ok <;> simp
  | _ => simp [hs]

/-- Only a recovering server is left a task. -/
theorem writeServer_idle {n : ServerNode} (ok : Bool) (bankId size offset : Nat) (buf : Bytes)
    (h : n.serverState ≠ .recovering) :
    (writeServer n ok bankId buf size offset).rwTasks = n.rwTasks ∧
      (writeServer n ok bankId buf size offset).serverState ≠ .recovering := by
  unfold writeServer
  cases hs : n.serverState with
  | connected => cases ok <;> simp_all
  | _ => simp_all

/-- A flush writes the whole bank to every server that stays connected. -/
theorem flush_broadcasts {env : WriteEnv} {bankId : Nat} {buf : Bytes}
    (h : dhmpFsWriteToRemote r env bankId buf bankSize 0 = some r') :
    Replicas.Broadcasts r.replicas r'.replicas (cells {bankId}) fun cell => buf cell.2 := by
  obtain ⟨hnum, -, -, hlist⟩ := dhmpFsWriteToRemote_spec h
  have wrote : ∀ i ∈ r'.replicas.up, i ∈ r.replicas.up ∧ (r'.sList i).bank =
      Function.update (r.sList i).bank bankId
        (writeBytes ((r.sList i).bank bankId) 0 bankSize buf) := by
    rintro i ⟨hi, hc⟩
    have hi' : i < r.serverNum := hnum ▸ hi
    simp only [hlist, hi', if_true] at hc ⊢
    exact ⟨⟨hi', (writeServer_connected hc).1⟩, (writeServer_connected hc).2⟩
  refine ⟨fun i hi => (wrote i hi).1, fun i hi cell hcell => ?_, fun i hi cell hcell => ?_⟩
  · obtain ⟨hbank, ho⟩ := hcell
    obtain rfl : cell.1 = bankId := hbank
    simp [Remote.replicas, (wrote i hi).2, writeBytes, ho]
  · simp only [Remote.replicas, (wrote i hi).2]
    rcases eq_or_ne cell.1 bankId with rfl | hne
    · have ho : ¬ cell.2 < bankSize := fun ho => hcell ⟨rfl, ho⟩
      simp [writeBytes, ho]
    · simp [hne]

theorem flush_idle {env : WriteEnv} {bankId : Nat} {buf : Bytes} (hi : r.Idle)
    (h : dhmpFsWriteToRemote r env bankId buf bankSize 0 = some r') : r'.Idle := by
  obtain ⟨hnum, huse, hjournal, hlist⟩ := dhmpFsWriteToRemote_spec h
  have kept i (hi' : i < r.serverNum) :=
    writeServer_idle (env.ok i) bankId bankSize 0 buf (hi.recovering i hi')
  refine ⟨huse.trans hi.useBankLen, hjournal.trans hi.journal, fun i => ?_, fun i hi' => ?_⟩
  · rw [hlist]
    split
    · next hlt => exact (kept i hlt).1.trans (hi.rwTasks i)
    · exact hi.rwTasks i
  · rw [hnum] at hi'
    simpa [hlist, hi'] using (kept i hi').2

/-- Servers may have stopped being connected; nothing else has changed. -/
structure Remote.Fails (r r' : Remote) : Prop where
  serverNum : r'.serverNum = r.serverNum
  useBankLen : r'.useBankLen = r.useBankLen
  journal : r'.journal = r.journal
  bank : ∀ i, (r'.sList i).bank = (r.sList i).bank
  rwTasks : ∀ i, (r'.sList i).rwTasks = (r.sList i).rwTasks
  serverState : ∀ i, (r'.sList i).serverState = (r.sList i).serverState ∨
    (r'.sList i).serverState = .disconnect ∨ (r'.sList i).serverState = .reconnect

theorem Remote.Fails.refl (r : Remote) : r.Fails r :=
  ⟨rfl, rfl, rfl, fun _ => rfl, fun _ => rfl, fun _ => .inl rfl⟩

theorem Remote.Fails.trans {r'' : Remote} (h : r.Fails r') (g : r'.Fails r'') : r.Fails r'' where
  serverNum := g.serverNum.trans h.serverNum
  useBankLen := g.useBankLen.trans h.useBankLen
  journal := g.journal.trans h.journal
  bank i := (g.bank i).trans (h.bank i)
  rwTasks i := (g.rwTasks i).trans (h.rwTasks i)
  serverState i := by
    rcases g.serverState i with hg | hg
    · exact hg ▸ h.serverState i
    · exact .inr hg

theorem Remote.Fails.single (r : Remote) (i : Nat) :
    r.Fails (r.setServer i { r.sList i with alive := false, serverState := .disconnect }) := by
  refine ⟨rfl, rfl, rfl, fun j => ?_, fun j => ?_, fun j => ?_⟩ <;>
    rcases eq_or_ne j i with rfl | hj <;> simp_all

theorem Remote.Fails.shrinks (h : r.Fails r') : Replicas.Shrinks r.replicas r'.replicas := by
  refine ⟨?_, fun i _ => ?_⟩
  · rintro i ⟨hi, hc⟩
    exact ⟨h.serverNum ▸ hi, by rcases h.serverState i with h | h | h <;> simp_all⟩
  · funext cell
    simp [Remote.replicas, h.bank]

theorem Remote.Idle.fails (hi : r.Idle) (h : r.Fails r') : r'.Idle := by
  refine ⟨h.useBankLen.trans hi.useBankLen, h.journal.trans hi.journal,
    fun i => (h.rwTasks i).trans (hi.rwTasks i), fun i hlt => ?_⟩
  have := hi.recovering i (h.serverNum ▸ hlt)
  rcases h.serverState i with h | h | h <;> simp_all

theorem readRemoteLoop_fails {ok : Nat → Bool} {served : Option Nat} :
    ∀ (rounds : Nat) {r : Remote} (readServer : Nat),
      readRemoteLoop ok rounds r readServer = some (r', served) → r.Fails r' := by
  intro rounds
  induction rounds with
  | zero => intro r _ h; simp [readRemoteLoop] at h
  | succ rounds ih =>
    intro r readServer h
    unfold readRemoteLoop at h
    dsimp only at h
    split at h
    · simp_all [Remote.Fails.refl]
    · next i _ =>
      split at h
      · simp_all [Remote.Fails.refl]
      · have down := Remote.Fails.single r i
        split at h
        · simp only [Option.some.injEq, Prod.mk.injEq] at h
          exact h.1 ▸ down
        · exact down.trans (ih _ h)

theorem read_fails {env : ReadEnv} {bankId size offset : Nat} {buf buf' : Bytes}
    (h : dhmpFsReadFromRemote r env bankId buf size offset = some (r', buf')) : r.Fails r' := by
  unfold dhmpFsReadFromRemote at h
  split at h
  · exact absurd h (by simp)
  · obtain ⟨⟨r₁, served⟩, hloop, heq⟩ := Option.map_eq_some_iff.mp h
    obtain ⟨rfl, -⟩ := Prod.mk.inj heq
    exact readRemoteLoop_fails _ _ hloop

end steps

/-! ## Recoveries -/

section recovery

variable {r r' : Remote} {env : RecoverEnv} {active re : Nat}

@[simp] theorem Remote.setState_sList (r : Remote) (i : Nat) (st : ServerState) :
    (r.setState i st).sList = Function.update r.sList i { r.sList i with serverState := st } := rfl

theorem Remote.findAliveServer_congr (hnum : r'.serverNum = r.serverNum)
    (h : ∀ i, (r'.sList i).serverState = .connected ↔ (r.sList i).serverState = .connected) :
    r'.findAliveServer = r.findAliveServer := by
  simp only [Remote.findAliveServer, hnum, h]

theorem Remote.aliveNum_eq_zero (h : r.aliveNum = 0) :
    ∀ i < r.serverNum, (r.sList i).serverState ≠ .connected := by
  simpa [Remote.aliveNum, List.countP_eq_zero] using h

theorem Remote.freeTasks_nil (h : (r.sList active).rwTasks = []) : r.freeTasks active = r := by
  have node : ∀ n : ServerNode, n.rwTasks = [] → { n with
      rwTasksFreed := n.rwTasksFreed || !n.rwTasks.isEmpty
      rwTasksLen := n.rwTasksLen - n.rwTasks.length } = n := by
    rintro ⟨⟩ rfl
    simp
  simp [Remote.freeTasks, Remote.setServer, node _ h]

/-- With nothing to copy and nothing to replay, both servers are connected at once. -/
theorem Remote.copyAndReplay_idle {single : Bool} (huse : r.useBankLen = 0)
    (hjournal : r.journal = []) (htasks : (r.sList active).rwTasks = [])
    (h : copyAndReplay env active re single r = some r') :
    r' = (r.handBack active re).cleanRecover := by
  have hcopy : r.useBankLen ≠ bankNum := by simp [huse]
  simp only [copyAndReplay, hcopy, if_false, hjournal, copyJournal, htasks, replay,
    freeTasks_nil htasks] at h
  cases single <;> simp_all

/-- With nothing to copy and nothing to replay, a server that is taken back holds the fresh
memory. -/
theorem Remote.fuseRecover_idle (hi : r.Idle) (hdown : (r.sList re).serverState ≠ .connected)
    (h : r.fuseRecover env re = some r') :
    r' = r ∧ r.recoveryInUse = true ∨
    (∀ i < r.serverNum, (r.sList i).serverState ≠ .connected) ∧
      r' = { r with recoveryInUse := true }.setState re .reconnect ∨
    ∃ active, r.recoveryInUse = false ∧ r.findAliveServer = some active ∧
      r' = r.setServer re { r.sList re with bank := env.fresh, serverState := .connected } := by
  unfold fuseRecover at h
  split at h
  · simp_all
  · next huse =>
    extract_lets r₁ alive r₂ r₃ at h
    split at h
    · next halive =>
      refine .inr (.inl ⟨fun i hlt hc => ?_, (Option.some.inj h).symm⟩)
      have hne : i ≠ re := by rintro rfl; exact hdown hc
      apply aliveNum_eq_zero halive i hlt
      simpa [r₁, hne] using hc
    · obtain ⟨active, hactive, hcopy⟩ := Option.bind_eq_some_iff.mp h
      have hfind : r₃.findAliveServer = r.findAliveServer :=
        findAliveServer_congr rfl fun i => by
          rcases eq_or_ne i re with rfl | hne <;> simp_all [r₃, r₂, r₁]
      have hact := findAliveServer_spec (hfind ▸ hactive)
      have hne : active ≠ re := by rintro rfl; exact hdown hact.2
      have heq := copyAndReplay_idle (r := r₃.setState active .recovering) hi.useBankLen
        hi.journal (by simp [r₃, r₂, r₁, hne, hi.rwTasks]) hcopy
      have hlist : r'.sList = (r.setServer re { r.sList re with
          bank := env.fresh, serverState := .connected }).sList := by
        funext i
        rcases eq_or_ne i re with rfl | hi
        · simp [heq, handBack, cleanRecover, r₃, r₂, r₁, hne.symm]
        · rcases eq_or_ne i active with rfl | hi'
          · simp [heq, handBack, cleanRecover, r₃, r₂, r₁, hne, ← hact.2]
          · simp [heq, handBack, cleanRecover, r₃, r₂, r₁, hi, hi']
      refine .inr (.inr ⟨active, by simpa using huse, hfind ▸ hactive, ?_⟩)
      simp_all [handBack, cleanRecover, setState, setServer, r₃, r₁]

theorem Remote.Fails.reconnect (r : Remote) (re : Nat) :
    r.Fails ({ r with recoveryInUse := true }.setState re .reconnect) := by
  refine ⟨rfl, rfl, rfl, fun j => ?_, fun j => ?_, fun j => ?_⟩ <;>
    rcases eq_or_ne j re with rfl | hj <;> simp_all

/-- A recovery that gives up takes no server back; any other takes back one with fresh memory. -/
theorem fuseRecover_admits (hi : r.Idle) (hserver : re < r.serverNum)
    (hdown : (r.sList re).serverState ≠ .connected) (h : r.fuseRecover env re = some r') :
    r'.Idle ∧ (r.Fails r' ∧ (r.recoveryInUse = false → r.findAliveServer = none) ∨
      ∃ active ∈ r.replicas.up, r.recoveryInUse = false ∧ r.findAliveServer = some active ∧
        Replicas.Admits r.replicas r'.replicas re ∧ (r'.sList re).bank = env.fresh) := by
  rcases Remote.fuseRecover_idle hi hdown h with
    ⟨rfl, huse⟩ | ⟨hnone, rfl⟩ | ⟨active, huse, hfind, rfl⟩
  · exact ⟨hi, .inl ⟨.refl _, by simp [huse]⟩⟩
  · have hf := Remote.Fails.reconnect r re
    refine ⟨hi.fails hf, .inl ⟨hf, fun _ => ?_⟩⟩
    simpa [Remote.findAliveServer] using hnone
  · have hne : ∀ i ∈ r.replicas.up, i ≠ re := by
      rintro i ⟨-, hc⟩ rfl
      exact hdown hc
    refine ⟨⟨hi.useBankLen, hi.journal, fun i => ?_, fun i hlt => ?_⟩,
      .inr ⟨active, Remote.findAliveServer_spec hfind, huse, hfind, ⟨?_, ?_⟩, by simp⟩⟩
    · rcases eq_or_ne i re with rfl | hne <;> simp_all [hi.rwTasks]
    · have := hi.recovering i hlt
      rcases eq_or_ne i re with rfl | hne <;> simp_all
    · ext i
      rcases eq_or_ne i re with rfl | hne <;> simp_all [Remote.replicas]
    · intro i hup
      funext cell
      simp [Remote.replicas, hne i hup]

end recovery

/-! ## Runs -/

theorem cells_insert (bankId : Nat) (banks : Set Nat) :
    cells (insert bankId banks) = cells banks ∪ cells {bankId} := by
  ext cell
  simp only [cells, Set.mem_insert_iff, Set.mem_ofPred_eq, Set.mem_union, Set.mem_singleton_iff]
  tauto

theorem idle_initRemote (serverNum : Nat) (bank : Nat → Nat → Bytes) :
    (initRemote serverNum bank).Idle :=
  ⟨rfl, rfl, fun _ => rfl, fun _ _ => by simp [initRemote]⟩

/-- A step from servers that agree keeps the agreement exactly when a recovery gets memory that
holds the flushed banks already. -/
theorem RemoteStep.agree {st st' : RemoteRun} {a : RemoteAction} (h : RemoteStep st a st')
    (hi : st.1.Idle) (ha : ReplicasAgree st) :
    st'.1.Idle ∧ (ReplicasAgree st' ↔ Restores st a) := by
  cases h with
  | flush hbank hwrite =>
    refine ⟨flush_idle hi hwrite, iff_of_true ?_ trivial⟩
    have := ha.broadcasts (flush_broadcasts hwrite)
    rwa [← cells_insert] at this
  | read hread =>
    have hf := read_fails hread
    exact ⟨hi.fails hf, iff_of_true (ha.shrinks hf.shrinks) trivial⟩
  | recover hserver hdown hrec =>
    obtain ⟨hi', ⟨hf, hgave⟩ | ⟨active, hup, huse, hfind, hadm, hfresh⟩⟩ :=
      fuseRecover_admits hi hserver hdown hrec
    · refine ⟨hi', iff_of_true (ha.shrinks hf.shrinks) fun huse active hactive => ?_⟩
      simp [hgave huse] at hactive
    · refine ⟨hi', (hadm.agreeOn_iff ha hup).trans ⟨fun hall => ?_, fun hres => ?_⟩⟩
      · intro _ active' hactive b hb o ho
        obtain rfl : active = active' := Option.some.inj (hfind.symm.trans hactive)
        simpa [Remote.replicas, hfresh] using hall (b, o) ⟨hb, ho⟩
      · rintro ⟨b, o⟩ ⟨hb, ho⟩
        simpa [Remote.replicas, hfresh] using hres huse active hfind b hb o ho

/-- In every run from `dhmp_init` whose recoveries get memory that holds the flushed banks, the
connected servers agree on each flushed bank; any other recovery that takes a server back breaks
this. -/
theorem replicasAgree_run {serverNum : Nat} {bank : Nat → Nat → Bytes}
    {as : List RemoteAction} {st : RemoteRun}
    (h : Run (guarded Restores RemoteStep) (initRemote serverNum bank, ∅) as st) :
    ReplicasAgree st ∧
      ∀ a st', RemoteStep st a st' → (ReplicasAgree st' ↔ Restores st a) := by
  have inv := h.invariant (fun st => st.1.Idle ∧ ReplicasAgree st)
    (fun st a st' hst hs => by
      obtain ⟨hi, hiff⟩ := hs.2.agree hst.1 hst.2
      exact ⟨hi, hiff.mpr hs.1⟩)
    ⟨idle_initRemote serverNum bank, by
      simp [ReplicasAgree, cells, Replicas.AgreeOn]⟩
  exact ⟨inv.2, fun a st' hs => (hs.agree inv.1 inv.2).2⟩

/-- A recovery whose remote calls all succeed and whose new banks hold `mem`. -/
def RecoverEnv.succeeding (mem : Bytes) : RecoverEnv :=
  let ok := fun _ => true
  ⟨fun _ => mem, fun _ => 0, ok, ok, ok, ok, ok⟩

theorem replicasAgree_run_recover :
    ∃ st, Run (guarded Restores RemoteStep) (initRemote 2 fun _ _ _ => 0, ∅)
      [.flush ⟨fun i => i = 0, fun _ => 0⟩ 0 fun _ => 1, .recover (.succeeding fun _ => 1) 1] st ∧
      ReplicasAgree st := by
  have run : ∃ st, Run (guarded Restores RemoteStep) (initRemote 2 fun _ _ _ => 0, ∅)
      [.flush ⟨fun i => i = 0, fun _ => 0⟩ 0 fun _ => 1, .recover (.succeeding fun _ => 1) 1]
      st := by
    refine ⟨_, .cons ⟨trivial, .flush (by decide) rfl⟩ (.single ⟨?_, .recover ?_ ?_ rfl⟩)⟩
    · intro _ active hactive b hb o ho
      obtain rfl : 0 = active := Option.some.inj hactive
      obtain rfl : b = 0 := by simpa using hb
      exact (if_pos ⟨Nat.zero_le o, by simpa using ho⟩).symm
    · decide
    · decide
  obtain ⟨st, h⟩ := run
  exact ⟨st, h, (replicasAgree_run h).1⟩

/-- Server 1 misses the flush of bank 0; `fuse_recover` connects it again with other bytes. -/
theorem not_replicasAgree_recover :
    ∃ st, Run RemoteStep (initRemote 2 fun _ _ _ => 0, ∅)
      [.flush ⟨fun i => i = 0, fun _ => 0⟩ 0 fun _ => 1, .recover (.succeeding fun _ => 0) 1] st ∧
      ¬ ReplicasAgree st := by
  refine ⟨_, .cons (.flush (by decide) rfl) (.single (.recover ?_ ?_ rfl)), fun h => ?_⟩
  · decide
  · decide
  · have := h 0 ⟨by decide, by decide⟩ 1 ⟨by decide, by decide⟩ (0, 0) ⟨by simp, by decide⟩
    exact absurd this (by decide)

end DhmpFs
