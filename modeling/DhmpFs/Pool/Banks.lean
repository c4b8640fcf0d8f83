import DhmpFs.Library.AtomicCalls
import DhmpFs.Pool.Serving

/-!
# The banks in the pool

The file system has a copy of every bank on every server, in memory that `dhmp_init` gets from the
pool. `dhmp_fs_write_to_remote` starts a thread for every server, and the threads call `dhmp_write`
in any order; `dhmp_fs_read_from_remote` calls `dhmp_read`. Over the pool, with all that the work
thread, the event thread and the servers do in between, both do what they do with servers that are
plain memory.

The number of banks is a parameter. Left out: servers in `RECOVERING`, whose missed writes are
kept, since nothing starts a recovery here, and calls that overlap, as a flush and an eviction of
different slots can, since every slot has a `rewrite_lock` of its own.

## Main definitions

* `BankClient`: `fuse_sList` and the function in progress.
* `BankProgram`: `dhmp_init`, `dhmp_fs_write_to_remote` and `dhmp_fs_read_from_remote`.
* `BankResult`: the same functions over plain memory.
-/

namespace DhmpFs

open Library

/-! ## The file system over the pool -/

/-- The thread in a function of the file system, and the `threads` that a write starts. -/
inductive BankThread where
  | main
  | writer (i : Nat)
  deriving DecidableEq

/-- The arguments of a write or a read. -/
structure BankAccess where
  bankId : Nat
  buf : Bytes
  size : Nat
  offset : Nat

/-- A thread that is not there, that has still to call `dhmp_write`, that waits, or that has ended
with `re`. -/
inductive WriterState where
  | absent
  | created
  | waits
  | ended (re : Int)

/-- The function in progress. In `dhmp_init` the memory is for `test_alive_addr` or for a bank; a
read that has its server may still have to call `dhmp_read`. -/
inductive BankTask where
  | starting (server : Nat) (bank : Option Nat) (waits : Bool)
  | idle
  | writing (a : BankAccess) (i : Nat) (thread : Nat → WriterState)
  | reading (a : BankAccess) (readServer : Nat) (waits : Bool)
  | hasRead (a : BankAccess) (buf : Bytes)

structure BankClient where
  serverNum : Nat
  serverState : Nat → ServerState
  testAliveAddr : Nat → Int
  bank : Nat → Nat → Int
  task : BankTask

/-- What the program does without the pool; `written` and `hasRead` are returns. -/
inductive BankEvent where
  | started
  | write (a : BankAccess)
  | create
  | written (a : BankAccess)
  | read (a : BankAccess)
  | noServer
  | hasRead (a : BankAccess) (buf : Bytes)

namespace BankClient

/-- Before `dhmp_init`. -/
def start (serverNum : Nat) : BankClient :=
  ⟨serverNum, fun _ => .connected, fun _ => 0, fun _ _ => 0, .starting 0 none false⟩

def mallocSize (bank : Option Nat) : Nat := bank.elim chunkSize fun _ => bankSize

theorem mallocSize_some (b : Nat) : mallocSize (some b) = bankSize := by
  rw [mallocSize, Option.elim_some]

/-- The assignment in `dhmp_init`. -/
def setMemory (f : BankClient) (server : Nat) (bank : Option Nat) (p : Int) : BankClient :=
  bank.elim { f with testAliveAddr := Function.update f.testAliveAddr server p } fun b =>
    { f with bank := Function.update f.bank server (Function.update (f.bank server) b p) }

/-- The next turn of the two loops in `dhmp_init`. -/
def nextMemory (banks server : Nat) (bank : Option Nat) : BankTask :=
  let b := bank.elim 0 (· + 1)
  if b < banks then .starting server (some b) false else .starting (server + 1) none false

def findAliveServer (f : BankClient) : Option Nat :=
  (List.range f.serverNum).find? fun i => f.serverState i = .connected

def setState (f : BankClient) (i : Nat) (state : ServerState) : BankClient :=
  { f with serverState := Function.update f.serverState i state }

/-- `server_state` after the second loop of `dhmp_fs_write_to_remote`. -/
def joinedState (f : BankClient) (thread : Nat → WriterState) (i : Nat) : ServerState :=
  match thread i with
  | .ended re => if re = -1 then .disconnect else f.serverState i
  | _ => f.serverState i

/-- The server that a turn of the loop in `dhmp_fs_read_from_remote` asks. -/
def askedServer (f : BankClient) (readServer : Nat) : Option Nat :=
  if f.serverState readServer = .reconnect ∨ f.serverState readServer = .recovering then
    f.findAliveServer
  else some readServer

/-- The next turn of that loop, after a failure. -/
def nextRead (f : BankClient) (a : BankAccess) (buf : Bytes) : BankTask :=
  f.findAliveServer.elim (.hasRead a buf) fun i => .reading a i false

end BankClient

open BankClient in
/-- A call or a return of `dhmp_malloc`, `dhmp_write` or `dhmp_read`, or a step between them. -/
inductive BankProgram (banks : Nat) (f : BankClient) :
    (BankThread × (PoolWork ⊕ PoolRes)) ⊕ BankEvent → BankClient → Prop
  | malloc {i : Nat} {bank : Option Nat} {addrInfo : AddrInfoId} {memory : PoolInfo}
    (task : f.task = .starting i bank false) (server : i < f.serverNum) :
    BankProgram banks f (.inl (.main, .inl (.malloc i (mallocSize bank) addrInfo memory)))
      { f with task := .starting i bank true }
  | mallocRet {i : Nat} {bank : Option Nat} {p : Int} (task : f.task = .starting i bank true) :
    BankProgram banks f (.inl (.main, .inr (.malloc p)))
      { f.setMemory i bank p with task := nextMemory banks i bank }
  | started (task : f.task = .starting f.serverNum none false) :
    BankProgram banks f (.inr .started) { f with task := .idle }
  | write {a : BankAccess} (task : f.task = .idle) (bank : a.bankId < banks) :
    BankProgram banks f (.inr (.write a)) { f with task := .writing a 0 fun _ => .absent }
  | create {a : BankAccess} {i : Nat} {thread : Nat → WriterState}
    (task : f.task = .writing a i thread) (server : i < f.serverNum)
    (connected : f.serverState i = .connected) :
    BankProgram banks f (.inr .create)
      { f with task := .writing a (i + 1) (Function.update thread i .created) }
  | skip {a : BankAccess} {i : Nat} {thread : Nat → WriterState}
    (task : f.task = .writing a i thread) (server : i < f.serverNum)
    (down : f.serverState i = .disconnect ∨ f.serverState i = .reconnect) :
    BankProgram banks f (.inr .create) { f with task := .writing a (i + 1) thread }
  | writePthread {a : BankAccess} {i j : Nat} {thread : Nat → WriterState}
    (task : f.task = .writing a i thread) (created : thread j = .created) :
    BankProgram banks f
      (.inl (.writer j, .inl (.write (f.bank j a.bankId) a.buf a.size a.offset)))
      { f with task := .writing a i (Function.update thread j .waits) }
  | writePthreadRet {a : BankAccess} {i j : Nat} {thread : Nat → WriterState} {re : Int}
    (task : f.task = .writing a i thread) (waits : thread j = .waits) :
    BankProgram banks f (.inl (.writer j, .inr (.write re)))
      { f with task := .writing a i (Function.update thread j (.ended re)) }
  | joined {a : BankAccess} {thread : Nat → WriterState}
    (task : f.task = .writing a f.serverNum thread)
    (joins : ∀ i < f.serverNum, thread i = .absent ∨ ∃ re, thread i = .ended re) :
    BankProgram banks f (.inr (.written a))
      { f with task := .idle, serverState := f.joinedState thread }
  | read {a : BankAccess} {rand : Nat} (task : f.task = .idle) (bank : a.bankId < banks)
    (servers : f.serverNum ≠ 0) :
    BankProgram banks f (.inr (.read a)) { f with task := .reading a (rand % f.serverNum) false }
  | ask {a : BankAccess} {i j : Nat} (task : f.task = .reading a i false)
    (asked : f.askedServer i = some j) :
    BankProgram banks f
      (.inl (.main, .inl (.read (f.bank j a.bankId) a.buf a.size a.offset)))
      { f with task := .reading a j true }
  | noServer {a : BankAccess} {i : Nat} (task : f.task = .reading a i false)
    (asked : f.askedServer i = none) :
    BankProgram banks f (.inr .noServer) { f with task := .hasRead a a.buf }
  | answer {a : BankAccess} {i : Nat} {re : Int} {buf : Bytes}
    (task : f.task = .reading a i true) (ok : re ≠ -1) :
    BankProgram banks f (.inl (.main, .inr (.read re buf))) { f with task := .hasRead a buf }
  | fails {a : BankAccess} {i : Nat} {buf : Bytes} (task : f.task = .reading a i true) :
    BankProgram banks f (.inl (.main, .inr (.read (-1) buf)))
      { f.setState i .disconnect with task := (f.setState i .disconnect).nextRead a buf }
  | hasRead {a : BankAccess} {buf : Bytes} (task : f.task = .hasRead a buf) :
    BankProgram banks f (.inr (.hasRead a buf)) { f with task := .idle }

/-! ## The file system over plain memory -/

/-- A function that has returned. -/
inductive BankResult where
  | write (a : BankAccess)
  | read (a : BankAccess) (buf : Bytes)

def BankEvent.result : BankEvent → Option BankResult
  | .written a => some (.write a)
  | .hasRead a buf => some (.read a buf)
  | _ => none

/-- The functions on plain memory, with servers that take every write and answer every read. -/
inductive PlainStep (r : Remote) : BankResult → Remote → Prop
  | write {a : BankAccess} {env : WriteEnv} {r' : Remote} (ok : ∀ i, env.ok i = true)
    (writes : dhmpFsWriteToRemote r env a.bankId a.buf a.size a.offset = some r') :
    PlainStep r (.write a) r'
  | read {a : BankAccess} {env : ReadEnv} {r' : Remote} {buf : Bytes} (ok : ∀ i, env.ok i = true)
    (reads : dhmpFsReadFromRemote r env a.bankId a.buf a.size a.offset = some (r', buf)) :
    PlainStep r (.read a buf) r'

/-! ## The regions of the banks -/

/-- Every bank that has memory has a region of its own on its server. -/
structure BankMemory (bank : Nat → Nat → Int) (regions : Int → Option Region) : Prop where
  region : ∀ i b, bank i b ≠ 0 → ∃ r, regions (bank i b) = some r ∧ bankSize ≤ r.size
  node : ∀ i b, bank i b ≠ 0 → dhmpGetNodeIndexFromAddr (bank i b) = i
  injective : ∀ i b j c, bank i b ≠ 0 → bank i b = bank j c → i = j ∧ b = c

/-- Memory for a bank of the server `i`, or `NULL`. -/
def GivesMemory (bank : Nat → Nat → Int) (regions : Int → Option Region) (i size : Nat)
    (p : Int) : Prop :=
  p ≠ 0 → (∃ r, regions p = some r ∧ size ≤ r.size) ∧ dhmpGetNodeIndexFromAddr p = i ∧
    ∀ j c, bank j c ≠ p

namespace BankMemory

variable {bank : Nat → Nat → Int} {regions regions' : Int → Option Region} {i : Nat} {p : Int}

theorem mono (h : BankMemory bank regions)
    (hle : ∀ d r, regions d = some r → ∃ r', regions' d = some r' ∧ r.size ≤ r'.size) :
    BankMemory bank regions' := by
  refine ⟨fun i b hb => ?_, h.node, h.injective⟩
  obtain ⟨r, hr, hsize⟩ := h.region i b hb
  obtain ⟨r', hr', hle⟩ := hle _ r hr
  exact ⟨r', hr', Nat.le_trans hsize hle⟩

/-- A bank gets memory. -/
theorem set (h : BankMemory bank regions) {b : Nat}
    (gives : GivesMemory bank regions i bankSize p) :
    BankMemory (Function.update bank i (Function.update (bank i) b p)) regions := by
  have hcases : ∀ j c,
      (j = i ∧ c = b ∧ Function.update bank i (Function.update (bank i) b p) j c = p) ∨
      (¬ (j = i ∧ c = b) ∧
        Function.update bank i (Function.update (bank i) b p) j c = bank j c) := by
    intro j c
    by_cases hj : j = i
    · subst hj
      by_cases hc : c = b
      · subst hc
        exact .inl ⟨rfl, rfl, by simp⟩
      · exact .inr ⟨by simp [hc], by simp [hc]⟩
    · exact .inr ⟨by simp [hj], by simp [hj]⟩
  constructor
  · intro j c hne
    rcases hcases j c with ⟨-, -, heq⟩ | ⟨-, heq⟩
    · rw [heq] at hne ⊢
      exact (gives hne).1
    · rw [heq] at hne ⊢
      exact h.region j c hne
  · intro j c hne
    rcases hcases j c with ⟨rfl, -, heq⟩ | ⟨-, heq⟩
    · rw [heq] at hne ⊢
      exact (gives hne).2.1
    · rw [heq] at hne ⊢
      exact h.node j c hne
  · intro j c j' c' hne hsame
    rcases hcases j c with ⟨rfl, rfl, heq⟩ | ⟨-, heq⟩ <;>
      rcases hcases j' c' with ⟨rfl, rfl, heq'⟩ | ⟨-, heq'⟩
    · exact ⟨rfl, rfl⟩
    · rw [heq] at hne
      rw [heq, heq'] at hsame
      exact absurd hsame.symm ((gives hne).2.2 j' c')
    · rw [heq, heq'] at hsame
      rw [heq, hsame] at hne
      exact absurd hsame ((gives hne).2.2 j c)
    · rw [heq, heq'] at hsame
      exact h.injective j c j' c' (heq ▸ hne) hsame

end BankMemory

/-! ## What a function has done so far -/

/-- `dhmp_malloc` has not been called, has not taken effect, or has an answer. -/
inductive MallocSim (bank : Nat → Nat → Int) (regions : Int → Option Region) (i size : Nat) :
    Bool → Option (PoolWork ⊕ PoolRes) → Prop
  | before : MallocSim bank regions i size false none
  | asked {addrInfo : AddrInfoId} {memory : PoolInfo} :
    MallocSim bank regions i size true (some (.inl (.malloc i size addrInfo memory)))
  | answered {p : Int} (gives : GivesMemory bank regions i size p) :
    MallocSim bank regions i size true (some (.inr (.malloc p)))

/-- A thread of a write, its call, and whether the bank of its server has been written. -/
inductive WriterSim (a : BankAccess) (addr : Int) :
    WriterState → Option (PoolWork ⊕ PoolRes) → Bool → Prop
  | absent : WriterSim a addr .absent none false
  | created : WriterSim a addr .created none false
  | asked : WriterSim a addr .waits (some (.inl (.write addr a.buf a.size a.offset))) false
  | answered : WriterSim a addr .waits (some (.inr (.write 0))) true
  | ended : WriterSim a addr (.ended 0) none true

namespace WriterSim

variable {a : BankAccess} {addr : Int} {w : WriterState} {call : Option (PoolWork ⊕ PoolRes)}
  {took : Bool}

theorem of_absent (h : WriterSim a addr w call took) (hw : w = .absent) :
    call = none ∧ took = false := by
  cases h with
  | absent => exact ⟨rfl, rfl⟩
  | _ => cases hw

theorem of_ended (h : WriterSim a addr w call took) {re : Int} (hw : w = .ended re) :
    re = 0 ∧ call = none ∧ took = true := by
  cases h with
  | ended =>
    cases hw
    exact ⟨rfl, rfl, rfl⟩
  | _ => cases hw

theorem of_created (h : WriterSim a addr w call took) (hw : w = .created) : took = false := by
  cases h with
  | created => rfl
  | _ => cases hw

theorem of_result (h : WriterSim a addr w call took) {res : PoolRes}
    (hcall : call = some (.inr res)) : res = .write 0 ∧ took = true := by
  cases h with
  | answered =>
    cases hcall
    exact ⟨rfl, rfl⟩
  | _ => cases hcall

theorem of_open (h : WriterSim a addr w call took) {op : PoolWork}
    (hcall : call = some (.inl op)) :
    w = .waits ∧ op = .write addr a.buf a.size a.offset ∧ took = false := by
  cases h with
  | asked =>
    cases hcall
    exact ⟨rfl, rfl, rfl⟩
  | _ => cases hcall

end WriterSim

/-- What a read of `mem` gives. -/
def BankAccess.readOf (a : BankAccess) (mem : Bytes) : Bytes :=
  readBytes mem a.offset a.size a.buf

/-- The call of a read. -/
inductive ReaderSim (a : BankAccess) (addr : Int) (mem : Bytes) :
    Bool → Option (PoolWork ⊕ PoolRes) → Prop
  | before : ReaderSim a addr mem false none
  | asked : ReaderSim a addr mem true (some (.inl (.read addr a.buf a.size a.offset)))
  | answered : ReaderSim a addr mem true (some (.inr (.read 0 (a.readOf mem))))

/-- A bank after a write, on a server that has got it or not yet. -/
def BankAccess.writeOf (a : BankAccess) (took : Bool) (b : Nat) (mem : Bytes) : Bytes :=
  if b = a.bankId ∧ took = true then writeBytes mem a.offset a.size a.buf else mem

/-- The banks of `n` servers have these bytes. -/
def HasBytes (n banks : Nat) (bank : Nat → Nat → Int) (regions : Int → Option Region)
    (bytes : Nat → Nat → Bytes) : Prop :=
  ∀ i < n, ∀ b < banks, ∃ r, regions (bank i b) = some r ∧ r.data = bytes i b

/-- Calls and banks while a function is in progress, over what `r` was when it was called. -/
inductive TaskSim (n banks : Nat) (bank : Nat → Nat → Int)
    (x : ObjectState BankThread PoolWork PoolRes (Int → Option Region)) (r : Remote) :
    BankTask → Prop
  | idle (callers : ∀ c, x.caller c = none)
    (bytes : HasBytes n banks bank x.object fun i => (r.sList i).bank) :
    TaskSim n banks bank x r .idle
  | writing {a : BankAccess} {i : Nat} {thread : Nat → WriterState} (took : Nat → Bool)
    (inside : a.bankId < banks) (servers : i ≤ n) (main : x.caller .main = none)
    (created : ∀ j, thread j ≠ .absent ↔ j < i)
    (writers : ∀ j, WriterSim a (bank j a.bankId) (thread j) (x.caller (.writer j)) (took j))
    (bytes : HasBytes n banks bank x.object fun i b => a.writeOf (took i) b ((r.sList i).bank b)) :
    TaskSim n banks bank x r (.writing a i thread)
  | reading {a : BankAccess} {i : Nat} {waits : Bool} (inside : a.bankId < banks)
    (server : i < n) (writers : ∀ j, x.caller (.writer j) = none)
    (reader : ReaderSim a (bank i a.bankId) ((r.sList i).bank a.bankId) waits
      (x.caller .main))
    (bytes : HasBytes n banks bank x.object fun i => (r.sList i).bank) :
    TaskSim n banks bank x r (.reading a i waits)
  | hasRead {a : BankAccess} {i : Nat} (server : i < n)
    (callers : ∀ c, x.caller c = none)
    (bytes : HasBytes n banks bank x.object fun i => (r.sList i).bank) :
    TaskSim n banks bank x r (.hasRead a (a.readOf ((r.sList i).bank a.bankId)))

/-- The file system over the pool, and over plain memory. -/
structure BankSim (banks : Nat) (f : BankClient)
    (x : ObjectState BankThread PoolWork PoolRes (Int → Option Region)) (r : Remote) :
    Prop where
  full : ∀ i < f.serverNum, ∀ b < banks, f.bank i b ≠ 0
  memory : BankMemory f.bank x.object
  num : r.serverNum = f.serverNum
  up : r.AllConnected
  connected : ∀ i, f.serverState i = .connected
  task : TaskSim f.serverNum banks f.bank x r f.task

namespace BankSim

variable {banks : Nat} {f f' : BankClient}
  {x : ObjectState BankThread PoolWork PoolRes (Int → Option Region)} {r : Remote}
  {c : BankThread} {op : PoolWork} {res : PoolRes}

/-- The function in progress goes on, perhaps with a call. -/
theorem setTask (h : BankSim banks f x r) {task : BankTask}
    {caller : BankThread → Option (PoolWork ⊕ PoolRes)}
    (htask : TaskSim f.serverNum banks f.bank { x with caller := caller } r task) :
    BankSim banks { f with task := task } { x with caller := caller } r :=
  ⟨h.full, h.memory, h.num, h.up, h.connected, htask⟩

theorem of_task (h : BankSim banks f x r) {task : BankTask} (ht : f.task = task) :
    TaskSim f.serverNum banks f.bank x r task :=
  ht ▸ h.task

/-- Every thread has ended, and every bank has been written. -/
theorem joined (h : BankSim banks f x r) {a : BankAccess} {thread : Nat → WriterState}
    (task : f.task = .writing a f.serverNum thread)
    (joins : ∀ i < f.serverNum, thread i = .absent ∨ ∃ re, thread i = .ended re) :
    ∃ r', PlainStep r (.write a) r' ∧
      BankSim banks { f with task := .idle, serverState := f.joinedState thread } x r' := by
  cases h.of_task task with
  | writing took inside servers main created writers bytes =>
    have ended : ∀ i < f.serverNum, thread i = .ended 0 := by
      intro i hi
      rcases joins i hi with habsent | ⟨re, hre⟩
      · exact absurd habsent ((created i).mpr hi)
      · rw [hre, ((writers i).of_ended hre).1]
    have absent : ∀ i, ¬ i < f.serverNum → thread i = .absent := by
      intro i hi
      by_contra hne
      exact hi ((created i).mp hne)
    obtain ⟨r', hwrite, hnum, hup, hbank⟩ := dhmpFsWriteToRemote_connected a.bankId a.size a.offset
      a.buf h.up ⟨fun _ => true, fun _ => 0⟩ fun _ _ => rfl
    refine ⟨r', .write (fun _ => rfl) hwrite, h.full, h.memory, hnum.trans h.num, hup, ?_,
      .idle ?_ ?_⟩
    · intro i
      by_cases hi : i < f.serverNum
      · simp [BankClient.joinedState, ended i hi, h.connected]
      · simp [BankClient.joinedState, absent i hi, h.connected]
    · rintro (_ | i)
      · exact main
      · by_cases hi : i < f.serverNum
        · exact ((writers i).of_ended (ended i hi)).2.1
        · exact ((writers i).of_absent (absent i hi)).1
    · intro i hi b hb
      obtain ⟨reg, hreg, hdata⟩ := bytes i hi b hb
      refine ⟨reg, hreg, hdata.trans ?_⟩
      have htook := ((writers i).of_ended (ended i hi)).2.2
      dsimp only
      rw [hbank i (h.num ▸ hi), BankAccess.writeOf, Function.update_apply, htook]
      by_cases hba : b = a.bankId
      · rw [if_pos ⟨hba, rfl⟩, if_pos hba, hba]
      · rw [if_neg (fun hb => hba hb.1), if_neg hba]

/-- The server that was chosen is read. -/
theorem readOf (h : BankSim banks f x r) (a : BankAccess) {i : Nat} (hi : i < f.serverNum) :
    PlainStep r (.read a (a.readOf ((r.sList i).bank a.bankId))) r := by
  have hn : r.serverNum ≠ 0 := by
    rw [h.num]
    omega
  have hmod : i % r.serverNum = i := Nat.mod_eq_of_lt (h.num ▸ hi)
  apply @PlainStep.read r a ⟨i, fun _ => true⟩ r _ (fun _ => rfl)
  simp [dhmpFsReadFromRemote, readRemoteLoop, hn, hmod, h.up i (h.num ▸ hi), BankAccess.readOf]

theorem own (h : BankSim banks f x r) {t : BankEvent}
    (hs : BankProgram banks f (.inr t) f') :
    ∃ r', Run PlainStep r t.result.toList r' ∧ BankSim banks f' x r' := by
  cases hs with
  | started task => cases h.of_task task
  | write task inside =>
    cases h.of_task task with
    | idle callers bytes =>
      refine ⟨r, .refl r, h.setTask ?_⟩
      apply TaskSim.writing (fun _ => false) inside (Nat.zero_le _) (callers .main)
      · simp
      · intro j
        rw [callers]
        exact .absent
      · simpa [BankAccess.writeOf] using bytes
  | @create a i thread task server connected =>
    cases h.of_task task with
    | writing took inside servers main created writers bytes =>
      have habsent : thread i = .absent := by
        by_contra hne
        exact Nat.lt_irrefl i ((created i).mp hne)
      refine ⟨r, .refl r, h.setTask ?_⟩
      apply TaskSim.writing took inside server main
      · intro j
        by_cases hj : j = i
        · subst hj
          simp
        · rw [Function.update_of_ne hj, created j]
          omega
      · intro j
        by_cases hj : j = i
        · subst hj
          obtain ⟨hcall, htook⟩ := (writers j).of_absent habsent
          rw [Function.update_self, hcall, htook]
          exact .created
        · rw [Function.update_of_ne hj]
          exact writers j
      · exact bytes
  | skip task server down =>
    rw [h.connected] at down
    rcases down with down | down <;> cases down
  | joined task joins =>
    obtain ⟨r', hwrite, hsim⟩ := h.joined task joins
    exact ⟨r', .single hwrite, hsim⟩
  | @read a rand task inside servers =>
    cases h.of_task task with
    | idle callers bytes =>
      refine ⟨r, .refl r, h.setTask ?_⟩
      apply TaskSim.reading inside (Nat.mod_lt _ (Nat.pos_of_ne_zero servers))
        (fun j => callers (.writer j)) _ bytes
      rw [callers]
      exact .before
  | @noServer a i task asked =>
    simp [BankClient.askedServer, h.connected] at asked
  | @hasRead a buf task =>
    cases h.of_task task with
    | @hasRead _ i server callers bytes =>
      exact ⟨r, .single (h.readOf a server), h.setTask (.idle callers bytes)⟩

theorem call (h : BankSim banks f x r) (hs : BankProgram banks f (.inl (c, .inl op)) f')
    (idle : x.caller c = none) :
    BankSim banks f' { x with caller := Function.update x.caller c (some (.inl op)) } r := by
  cases hs with
  | malloc task server => cases h.of_task task
  | @writePthread a i j thread task created' =>
    cases h.of_task task with
    | writing took inside servers main created writers bytes =>
      apply h.setTask
      apply TaskSim.writing took inside servers
      · simpa using main
      · intro k
        by_cases hk : k = j
        · subst hk
          simp [← created k, created']
        · rw [Function.update_of_ne hk, created k]
      · intro k
        by_cases hk : k = j
        · subst hk
          dsimp only
          rw [Function.update_self, Function.update_self, (writers k).of_created created']
          exact .asked
        · simpa [hk] using writers k
      · exact bytes
  | @ask a i j task asked =>
    cases h.of_task task with
    | reading inside server writers reader bytes =>
      obtain rfl : i = j := by simpa [BankClient.askedServer, h.connected] using asked
      apply h.setTask
      apply TaskSim.reading inside server
      · simpa using writers
      · dsimp only
        rw [Function.update_self]
        exact .asked
      · exact bytes

theorem ret (h : BankSim banks f x r) (hs : BankProgram banks f (.inl (c, .inr res)) f')
    (result : x.caller c = some (.inr res)) :
    BankSim banks f' { x with caller := Function.update x.caller c none } r := by
  cases hs with
  | mallocRet task => cases h.of_task task
  | @writePthreadRet a i j thread re task waits =>
    cases h.of_task task with
    | writing took inside servers main created writers bytes =>
      obtain ⟨hres, htook⟩ := (writers j).of_result result
      obtain rfl : re = 0 := by simpa using hres
      apply h.setTask
      apply TaskSim.writing took inside servers
      · simpa using main
      · intro k
        by_cases hk : k = j
        · subst hk
          simp [← created k, waits]
        · rw [Function.update_of_ne hk, created k]
      · intro k
        by_cases hk : k = j
        · subst hk
          dsimp only
          rw [Function.update_self, Function.update_self, htook]
          exact .ended
        · simpa [hk] using writers k
      · exact bytes
  | @answer a i re buf task ok =>
    cases h.of_task task with
    | reading inside server writers reader bytes =>
      apply h.setTask
      rw [result] at reader
      cases reader with
      | answered =>
        apply TaskSim.hasRead server
        · rintro (_ | j)
          · simp
          · simpa using writers j
        · exact bytes
  | @fails a i buf task =>
    cases h.of_task task with
    | reading inside server writers reader bytes =>
      rw [result] at reader
      cases reader

/-- A write takes effect on the bank of its server. -/
theorem done_writer (h : BankSim banks f x r) {a : BankAccess} {i j : Nat}
    {thread : Nat → WriterState} (task : f.task = .writing a i thread)
    (waits : x.caller (.writer j) = some (.inl op)) {y : Int → Option Region}
    (acts : RegionStep x.object (BankThread.writer j, op, res) y) :
    BankSim banks f ⟨Function.update x.caller (.writer j) (some (.inr res)), y⟩ r := by
  cases h.of_task task with
  | writing took inside servers main created writers bytes =>
    obtain ⟨hthread, rfl, htook⟩ := (writers j).of_open waits
    have hj : j < f.serverNum := by
      have := (created j).mp (by simp [hthread])
      omega
    cases acts with
    | @write _ _ _ _ _ region live inside' =>
      have hne := h.full j hj a.bankId inside
      refine ⟨h.full, ?_, h.num, h.up, h.connected, ?_⟩
      · apply h.memory.mono
        intro d reg hreg
        by_cases hd : d = f.bank j a.bankId
        · subst hd
          obtain rfl : region = reg := Option.some.inj (live.symm.trans hreg)
          exact ⟨_, Function.update_self .., Nat.le_refl _⟩
        · exact ⟨reg, (Function.update_of_ne hd ..).trans hreg, Nat.le_refl _⟩
      · rw [task]
        apply TaskSim.writing (Function.update took j true) inside servers
        · simpa using main
        · exact created
        · intro k
          dsimp only
          by_cases hk : k = j
          · subst hk
            rw [Function.update_self, Function.update_self, hthread]
            exact .answered
          · simpa [hk] using writers k
        · intro k hk b hb
          obtain ⟨reg, hreg, hdata⟩ := bytes k hk b hb
          dsimp only
          by_cases hsame : f.bank j a.bankId = f.bank k b
          · obtain ⟨rfl, rfl⟩ := h.memory.injective j a.bankId k b hne hsame
            obtain rfl : region = reg := Option.some.inj (live.symm.trans hreg)
            refine ⟨_, Function.update_self .., ?_⟩
            simp [BankAccess.writeOf, hdata, htook]
          · refine ⟨reg, (Function.update_of_ne (Ne.symm hsame) ..).trans hreg, hdata.trans ?_⟩
            by_cases hkj : k = j
            · subst hkj
              have hb : b ≠ a.bankId := fun heq => hsame (by rw [heq])
              simp [BankAccess.writeOf, hb]
            · rw [Function.update_of_ne hkj]
    | writeNothing dead =>
      obtain ⟨reg, hreg, -⟩ := bytes j hj a.bankId inside
      rw [dead] at hreg
      cases hreg

theorem done (h : BankSim banks f x r) (waits : x.caller c = some (.inl op))
    {y : Int → Option Region} (acts : RegionStep x.object (c, op, res) y) :
    BankSim banks f ⟨Function.update x.caller c (some (.inr res)), y⟩ r := by
  generalize htask : f.task = task
  cases h.of_task htask with
  | idle callers => cases (callers c).symm.trans waits
  | writing took inside servers main created writers bytes =>
    cases c with
    | main => cases main.symm.trans waits
    | writer j => exact h.done_writer htask waits acts
  | @reading a i _ inside server writers reader bytes =>
    cases c with
    | writer j => cases (writers j).symm.trans waits
    | main =>
      rw [waits] at reader
      cases reader with
      | asked =>
        cases acts with
        | @read _ _ _ _ _ region live =>
          obtain ⟨reg, hreg, hdata⟩ := bytes i server a.bankId inside
          obtain rfl : region = reg := Option.some.inj (live.symm.trans hreg)
          refine ⟨h.full, h.memory, h.num, h.up, h.connected, ?_⟩
          rw [htask]
          apply TaskSim.reading inside server
          · simpa using writers
          · dsimp only
            rw [Function.update_self, hdata]
            exact .answered
          · exact bytes
        | readNothing dead =>
          obtain ⟨reg, hreg, -⟩ := bytes i server a.bankId inside
          rw [dead] at hreg
          cases hreg
  | hasRead server callers => cases (callers c).symm.trans waits

end BankSim

/-! ## `dhmp_init` -/

/-- The memory that `dhmp_init` has so far, and its call. -/
structure StartSim (f : BankClient)
    (x : ObjectState BankThread PoolWork PoolRes (Int → Option Region)) (i : Nat)
    (bank : Option Nat) (waits : Bool) : Prop where
  task : f.task = .starting i bank waits
  memory : BankMemory f.bank x.object
  connected : ∀ i, f.serverState i = .connected
  writers : ∀ j, x.caller (.writer j) = none
  malloc : MallocSim f.bank x.object i (BankClient.mallocSize bank) waits (x.caller .main)

namespace StartSim

variable {banks : Nat} {f f' : BankClient}
  {x : ObjectState BankThread PoolWork PoolRes (Int → Option Region)} {i : Nat}
  {bank : Option Nat} {waits : Bool} {c : BankThread} {op : PoolWork} {res : PoolRes}

theorem start (n : Nat) : StartSim (.start n) ⟨fun _ => none, fun _ => none⟩ 0 none false := by
  refine ⟨rfl, ⟨?_, ?_, ?_⟩, fun _ => rfl, fun _ => rfl, .before⟩ <;> simp [BankClient.start]

theorem call (h : StartSim f x i bank waits) (hs : BankProgram banks f (.inl (c, .inl op)) f') :
    StartSim f' { x with caller := Function.update x.caller c (some (.inl op)) } i bank true := by
  cases hs with
  | malloc task server =>
    obtain ⟨rfl, rfl, rfl⟩ : _ ∧ _ ∧ _ := by simpa using h.task.symm.trans task
    refine ⟨rfl, h.memory, h.connected, by simpa using h.writers, ?_⟩
    dsimp only
    rw [Function.update_self]
    exact .asked
  | writePthread task => cases h.task.symm.trans task
  | ask task => cases h.task.symm.trans task

theorem ret (h : StartSim f x i bank waits) (hs : BankProgram banks f (.inl (c, .inr res)) f')
    (result : x.caller c = some (.inr res)) : ∃ i' bank',
    StartSim f' { x with caller := Function.update x.caller c none } i' bank' false := by
  cases hs with
  | @mallocRet _ _ p task =>
    obtain ⟨rfl, rfl, rfl⟩ : _ ∧ _ ∧ _ := by simpa using h.task.symm.trans task
    obtain ⟨i', bank', hnext⟩ : ∃ i' bank',
        BankClient.nextMemory banks i bank = .starting i' bank' false := by
      unfold BankClient.nextMemory
      dsimp only
      split
      · exact ⟨_, _, rfl⟩
      · exact ⟨_, _, rfl⟩
    have hmalloc := h.malloc
    rw [result] at hmalloc
    cases hmalloc with
    | answered gives =>
      refine ⟨i', bank', hnext, ?_, ?_, by simpa using h.writers, ?_⟩
      · cases bank with
        | none => exact h.memory
        | some b =>
          rw [BankClient.mallocSize_some] at gives
          exact h.memory.set gives
      · cases bank with
        | none => exact h.connected
        | some b => exact h.connected
      · dsimp only
        rw [Function.update_self]
        exact .before
  | writePthreadRet task => cases h.task.symm.trans task
  | answer task => cases h.task.symm.trans task
  | fails task => cases h.task.symm.trans task

theorem done (h : StartSim f x i bank waits) (hcall : x.caller c = some (.inl op))
    {y : Int → Option Region} (acts : RegionStep x.object (c, op, res) y) :
    StartSim f ⟨Function.update x.caller c (some (.inr res)), y⟩ i bank waits := by
  cases c with
  | writer j => cases (h.writers j).symm.trans hcall
  | main =>
    have hmalloc := h.malloc
    rw [hcall] at hmalloc
    cases hmalloc with
    | asked =>
      have writers : ∀ j, Function.update x.caller .main (some (.inr res)) (.writer j) = none := by
        simpa using h.writers
      cases acts with
      | refused =>
        refine ⟨h.task, h.memory, h.connected, writers, ?_⟩
        dsimp only
        rw [Function.update_self]
        exact .answered fun hp => absurd rfl hp
      | @malloc _ _ _ _ _ dhmpAddr region null node fresh long =>
        refine ⟨h.task, ?_, h.connected, writers, ?_⟩
        · apply h.memory.mono
          intro d reg hreg
          have hne : d ≠ dhmpAddr := by
            rintro rfl
            cases fresh.symm.trans hreg
          exact ⟨reg, (Function.update_of_ne hne ..).trans hreg, Nat.le_refl _⟩
        · dsimp only
          rw [Function.update_self]
          apply MallocSim.answered
          refine fun _ => ⟨⟨region, Function.update_self .., long⟩, node, fun j c heq => ?_⟩
          obtain ⟨reg, hreg, -⟩ := h.memory.region j c (heq ▸ null)
          rw [heq, fresh] at hreg
          cases hreg

/-- Every bank has got memory. -/
theorem booted (h : StartSim f x f.serverNum none false)
    (full : ∀ i < f.serverNum, ∀ b < banks, f.bank i b ≠ 0) :
    ∃ bytes, BankSim banks { f with task := .idle } x (initRemote f.serverNum bytes) := by
  refine ⟨fun i b => (x.object (f.bank i b)).elim (fun _ => 0) Region.data, full, h.memory, rfl,
    fun _ _ => rfl, h.connected, .idle ?_ ?_⟩
  · rintro (_ | j)
    · have hmalloc := h.malloc
      generalize x.caller .main = caller at hmalloc
      cases hmalloc
      rfl
    · exact h.writers j
  · intro i hi b hb
    obtain ⟨reg, hreg, -⟩ := h.memory.region i b (full i hi b hb)
    exact ⟨reg, hreg, by simp [initRemote, hreg]⟩

end StartSim

/-! ## One server and one bank -/

/-- `dhmp_init` is over. -/
def BankClient.Booted (f : BankClient) : Prop := ∀ i bank waits, f.task ≠ .starting i bank waits

theorem BankProgram.booted {banks : Nat} {f f' : BankClient}
    {e : (BankThread × (PoolWork ⊕ PoolRes)) ⊕ BankEvent} (hs : BankProgram banks f e f')
    (h : f.Booted) : f'.Booted ∧ f'.bank = f.bank ∧ f'.serverNum = f.serverNum := by
  cases hs with
  | malloc task => exact absurd task (h _ _ _)
  | mallocRet task => exact absurd task (h _ _ _)
  | started task => exact absurd task (h _ _ _)
  | @fails a i buf task =>
    refine ⟨?_, rfl, rfl⟩
    intro i' bank waits heq
    unfold BankClient.nextRead at heq
    cases hfind : (f.setState i .disconnect).findAliveServer <;> simp [hfind] at heq
  | _ => exact ⟨by simp [BankClient.Booted], rfl, rfl⟩

/-- What the program is in, after these functions. -/
def BankInv (banks : Nat) (events : List BankEvent) (f : BankClient)
    (x : ObjectState BankThread PoolWork PoolRes (Int → Option Region)) : Prop :=
  (events.filterMap BankEvent.result = [] ∧ ∃ i bank waits, StartSim f x i bank waits) ∨
  (f.Booted ∧ ((∀ i < f.serverNum, ∀ b < banks, f.bank i b ≠ 0) →
    ∃ bytes r, Run PlainStep (initRemote f.serverNum bytes) (events.filterMap BankEvent.result) r ∧
      BankSim banks f x r))

namespace BankInv

variable {banks : Nat} {events : List BankEvent} {f f' : BankClient}
  {x : ObjectState BankThread PoolWork PoolRes (Int → Option Region)} {c : BankThread}
  {op : PoolWork} {res : PoolRes}

/-- A step of the program, without another function that is over, or with one. -/
theorem booted {x' : ObjectState BankThread PoolWork PoolRes (Int → Option Region)}
    {e : (BankThread × (PoolWork ⊕ PoolRes)) ⊕ BankEvent} {more : List BankEvent}
    (hs : BankProgram banks f e f') (hb : f.Booted)
    (h : (∀ i < f.serverNum, ∀ b < banks, f.bank i b ≠ 0) → ∃ bytes r,
      Run PlainStep (initRemote f.serverNum bytes) (events.filterMap BankEvent.result) r ∧
        BankSim banks f x r)
    (hstep : ∀ r, BankSim banks f x r → ∃ r',
      Run PlainStep r (more.filterMap BankEvent.result) r' ∧ BankSim banks f' x' r') :
    BankInv banks (events ++ more) f' x' := by
  obtain ⟨hb', hbank, hnum⟩ := hs.booted hb
  refine .inr ⟨hb', fun full => ?_⟩
  rw [hbank, hnum] at full
  obtain ⟨bytes, r, hrun, hsim⟩ := h full
  obtain ⟨r', hmore, hsim'⟩ := hstep r hsim
  refine ⟨bytes, r', ?_, hsim'⟩
  rw [hnum, List.filterMap_append]
  exact hrun.trans hmore

theorem own (h : BankInv banks events f x) {t : BankEvent}
    (hs : BankProgram banks f (.inr t) f') : BankInv banks (events ++ [t]) f' x := by
  rcases h with ⟨hnone, i, bank, waits, hstart⟩ | ⟨hb, h⟩
  · cases hs with
    | started task =>
      obtain ⟨rfl, rfl, rfl⟩ : _ ∧ _ ∧ _ := by simpa using hstart.task.symm.trans task
      refine .inr ⟨by simp [BankClient.Booted], fun full => ?_⟩
      obtain ⟨bytes, hsim⟩ := hstart.booted full
      refine ⟨bytes, _, ?_, hsim⟩
      rw [List.filterMap_append, hnone]
      exact .refl _
    | write task | create task | skip task | joined task | read task | noServer task
    | hasRead task => cases hstart.task.symm.trans task
  · apply booted hs hb h
    intro r hsim
    obtain ⟨r', hrun, hsim'⟩ := hsim.own hs
    refine ⟨r', ?_, hsim'⟩
    cases ht : t.result with
    | none =>
      rw [ht] at hrun
      simpa [ht] using hrun
    | some result =>
      rw [ht] at hrun
      simpa [ht] using hrun

theorem call (h : BankInv banks events f x) (hs : BankProgram banks f (.inl (c, .inl op)) f')
    (idle : x.caller c = none) : BankInv banks events f'
      { x with caller := Function.update x.caller c (some (.inl op)) } := by
  rcases h with ⟨hnone, i, bank, waits, hstart⟩ | ⟨hb, h⟩
  · exact .inl ⟨hnone, i, bank, true, hstart.call hs⟩
  · rw [← List.append_nil events]
    apply booted hs hb h
    exact fun r hsim => ⟨r, .refl r, hsim.call hs idle⟩

theorem ret (h : BankInv banks events f x) (hs : BankProgram banks f (.inl (c, .inr res)) f')
    (result : x.caller c = some (.inr res)) : BankInv banks events f'
      { x with caller := Function.update x.caller c none } := by
  rcases h with ⟨hnone, i, bank, waits, hstart⟩ | ⟨hb, h⟩
  · obtain ⟨i', bank', hstart'⟩ := hstart.ret hs result
    exact .inl ⟨hnone, i', bank', false, hstart'⟩
  · rw [← List.append_nil events]
    apply booted hs hb h
    exact fun r hsim => ⟨r, .refl r, hsim.ret hs result⟩

theorem done (h : BankInv banks events f x) (waits : x.caller c = some (.inl op))
    {y : Int → Option Region} (acts : RegionStep x.object (c, op, res) y) :
    BankInv banks events f ⟨Function.update x.caller c (some (.inr res)), y⟩ := by
  rcases h with ⟨hnone, i, bank, w, hstart⟩ | ⟨hb, h⟩
  · exact .inl ⟨hnone, i, bank, w, hstart.done waits acts⟩
  · refine .inr ⟨hb, fun full => ?_⟩
    obtain ⟨bytes, r, hrun, hsim⟩ := h full
    exact ⟨bytes, r, hrun, hsim.done waits acts⟩

end BankInv

/-- Every server has every bank, each in an allocation of its own, with the bytes of `r`. -/
def HoldsBanks (banks : Nat) (f : BankClient) (node : Nat → PoolNode) (r : Remote) : Prop :=
  ∃ out : Nat → List Allocation, (∀ n, Sound (node n).server (out n)) ∧
    ∀ i < f.serverNum, ∀ b < banks,
      (∀ j c, f.bank i b = f.bank j c → i = j ∧ b = c) ∧
      ∃ a ∈ out i, f.bank i b = dhmpTransferDhmpAddr i a.mr.addr ∧ bankSize ≤ a.mr.length ∧
        ∀ o < bankSize, (node i).mem (a.mr.addr + o) = (r.sList i).bank b o

theorem BankSim.holds {hash : Int → Nat} {live : Int → Option AddrInfoId}
    {out : Nat → List Allocation} {client : PoolClient} {node : Nat → PoolNode} {banks : Nat}
    {f : BankClient} {x : ObjectState BankThread PoolWork PoolRes (Int → Option Region)}
    {r : Remote} (h : BankSim banks f x r)
    (pool : PoolSim hash live out client node x.object)
    (bytes : HasBytes f.serverNum banks f.bank x.object fun i => (r.sList i).bank) :
    HoldsBanks banks f node r := by
  refine ⟨out, fun n => (pool.alloc n).toAllocInv.sound, fun i hi b hb => ?_⟩
  have hne := h.full i hi b hb
  obtain ⟨reg, hreg, hdata⟩ := bytes i hi b hb
  obtain ⟨reg', hreg', hsize⟩ := h.memory.region i b hne
  obtain rfl : reg = reg' := Option.some.inj (hreg.symm.trans hreg')
  obtain ⟨p, hp⟩ : ∃ p, live (f.bank i b) = some p := by
    apply Option.ne_none_iff_exists'.mp
    intro hdead
    cases (pool.dead _ hdead).symm.trans hreg
  obtain ⟨a, ha, hd, -⟩ := pool.given_at hp
  rw [h.memory.node i b hne, Int.toNat_natCast] at ha hd
  obtain ⟨reg', hreg', hlength, hmem⟩ := pool.region i a ha
  rw [← hd] at hreg'
  obtain rfl : reg = reg' := Option.some.inj (hreg.symm.trans hreg')
  refine ⟨fun j c => h.memory.injective i b j c hne, a, ha, hd, hlength ▸ hsize, fun o ho => ?_⟩
  rw [← hmem o (Nat.lt_of_lt_of_le ho hsize), hdata]

variable {hash : Int → Nat} {addrInfo : AddrInfoId → PoolInfo} {task : PoolTask}
  {areas : Nat → AreaId → Area} {reg : Nat → Registration} {mem : Nat → Bytes}
  {events : List (CallEvent BankThread Nat PoolWork PoolRes ⊕ BankEvent)}
  {s : CallState BankThread Nat PoolClient PoolNode PoolWork PoolRes PoolRequest PoolReply
    PoolStore}

/-- The regions that a client and its servers have between two works. -/
def PoolRegions (hash : Int → Nat) (a : PoolClient × (Nat → PoolNode))
    (regions : Int → Option Region) : Prop :=
  ∃ live out, PoolSim hash live out a.1 a.2 regions

theorem PoolRegions.inv {a : PoolClient × (Nat → PoolNode)} {regions : Int → Option Region}
    (h : PoolRegions hash a regions) : PoolInv hash a := by
  obtain ⟨live, out, h⟩ := h
  exact ⟨live, out, regions, h⟩

end DhmpFs
