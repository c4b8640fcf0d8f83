import DhmpFs.Stack.Mount
import DhmpFs.Fs.FileStore

/-!
# From the servers to the store of files

The whole path of a byte: files cut into chunks, chunks in banks, banks in a direct-mapped
write-back cache, and the cache over replicated servers. With the servers up, and as long as every
write finds its banks in the cache, the calls of FUSE refine the store of files, in between any
evictions and passes of `rewrite_dirty_cache`.

## Main definitions

* `StoreCall`: a call on a path, or a pass.
* `StoreCall.Fits`, `StoreCall.Hits`: the conditions on a call.
* `MountRefines`: what can be observed of the mount is the store.
-/

namespace DhmpFs

open Library

/-! ## Calls -/

/-- A call on a path with the environments of its cache calls, or a pass. -/
inductive StoreCall where
  | store (op : StoreOp) (env : Nat → ExpelEnv)
  | read (p : List Str) (size offset : Nat) (env : Nat → ExpelEnv) (buf : Bytes)
  | rewrite (env : Nat → WriteEnv)

namespace StoreCall

/-- A call through the handle that `dhmp_fs_open` gives. -/
def atHandle (m : Mount) (p : List Str) (op : InodeId → MountOp) : Option (Mount × Int) :=
  match dhmpFsOpen m.fs (pathOf p) with
  | none => none
  | some none => some (m, -1)
  | some (some fh) => m.run (op fh)

/-- The state after a call and its result. -/
def run (m : Mount) : StoreCall → Option (Mount × Int)
  | store (.name op) _ => (op.run m.fs).map fun (fs, res) => ({ m with fs := fs }, res)
  | store (.write p buf offset) env =>
    atHandle m p fun fh => .call (.write fh buf offset) env fun _ => 0
  | read p size offset env buf => atHandle m p fun fh => .call (.read fh size offset) env buf
  | rewrite env => m.run (.rewrite env)

/-- The store after a call. -/
def spec (st : FileStore) : StoreCall → FileStore
  | store op _ => (op.spec st).1
  | _ => st

/-- No call to one of `n` servers fails. -/
def Succeeds (n : Nat) : StoreCall → Prop
  | store _ env => ∀ i, (env i).Succeeds n
  | read _ _ _ env _ => ∀ i, (env i).Succeeds n
  | rewrite env => ∀ i, (env i).Succeeds n

/-- The call is one the kernel makes, there is room for it, and it does not read behind the data
of a chunk. -/
def Fits (m : Mount) (st : FileStore) : StoreCall → Prop
  | store op _ => op.Legal st ∧ op.Fits m.fs
  | read p _ offset _ _ => Legal st.tree p ∧ FitsName p ∧
      (st.tree.kind p = some false → NotBehind (st.content p) offset)
  | rewrite _ => True

/-- A write finds the banks of its chunks in the cache. -/
def Hits (m : Mount) : StoreCall → Prop
  | store (.write p buf offset) _ => ∀ fh s' res, dhmpFsOpen m.fs (pathOf p) = some (some fh) →
      dhmpFsWrite m.fs fh buf offset = some (s', res) →
        ∀ x ∈ (FsOp.write fh buf offset).places s', m.client.hits (bankId x.1) = true
  | _ => True

end StoreCall

/-- A call on `n` servers that returns. -/
structure CallStep (n : Nat) (x : Mount × FileStore) (call : StoreCall) (y : Mount × FileStore) :
    Prop where
  succeeds : call.Succeeds n
  fits : call.Fits x.1 x.2
  hits : call.Hits x.1
  returns : ∃ res, call.run x.1 = some (y.1, res)
  spec : y.2 = call.spec x.2

/-- Lookups, listings, `stat` and reads agree with the store. -/
structure MountRefines (n : Nat) (m : Mount) (st : FileStore) : Prop where
  names : Refines m.fs st.tree
  stat : ∀ p, Legal st.tree p → FitsName p → st.tree.kind p = some false → ∀ attr k,
    (∀ q, st.content p q ≠ none → q < k * chunkSize) →
      dhmpFsGetattr m.fs (pathOf p) attr =
        some (0, some ⟨regMode, toInt (∑ j ∈ Finset.range k, chunkEnd (st.content p) j), 1, 0, 0, 0⟩)
  read : ∀ p, Legal st.tree p → FitsName p → st.tree.kind p = some false → ∀ o k,
    NotBehind (st.content p) o → ∀ env : Nat → ExpelEnv, (∀ i, (env i).Succeeds n) → ∀ buf,
      ∃ fh client bytes, dhmpFsOpen m.fs (pathOf p) = some (some fh) ∧
        m.dhmpFsRead env fh buf k o = some (client, bytes, toInt bytes.length) ∧
        ReadsWritten (st.content p) o k bytes

/-! ## Other banks -/

section withBank

variable {s s' : Fs} {b : Banks}

theorem writeLoop_withBank {rounds : Nat} {f : InodeId} {rest : List UInt8} {offset : Nat}
    (o : Owned s) (h : writeLoop rounds s f rest offset = some s') (b : Banks) :
    ∃ b', writeLoop rounds (s.withBank b) f rest offset = some (s'.withBank b') := by
  induction rounds generalizing s rest offset b with
  | zero =>
    obtain rfl := Option.some.inj h
    exact ⟨b, rfl⟩
  | succ rounds ih =>
    by_cases hne : rest = []
    · obtain rfl : s = s' := by simpa [writeLoop, hne] using h
      exact ⟨b, by simp [writeLoop, hne]⟩
    have hlt : offset < sizeThirdDirectEnd := by
      by_contra hend
      simp [writeLoop, hne, level3LocalIndex_end (Nat.le_of_not_lt hend)] at h
    cases hreach : reach s f false (slotOf (offset / chunkSize)) with
    | none => simp [writeLoop, hne, level3LocalIndex_write (o.complete f) hlt, hreach] at h
    | some r =>
      obtain ⟨s1, cnt⟩ := r
      obtain ⟨c, rfl, loc⟩ := reach_write (o.complete f) hreach
      have hreach' : reach (s.withBank b) f false (slotOf (offset / chunkSize)) =
          some (s1.withBank b, some c) := by
        rw [reach_withBank, hreach]
        rfl
      have o1 := loc.owned o
      obtain ⟨-, og⟩ := Mount.owned_grown o hne hlt loc rfl
      rw [writeLoop_succ o rounds hne hlt hreach o1] at h
      rw [writeLoop_succ (Mount.owned_withBank o b) rounds hne hlt hreach'
        (Mount.owned_withBank o1 b)]
      exact ih (Mount.owned_withBank og _) h _

/-- A write returns on all banks, with the same metadata. -/
theorem dhmpFsWrite_withBank {f : InodeId} {buf : List UInt8} {offset : Nat} {res : Int}
    (o : Owned s) (h : dhmpFsWrite s f buf offset = some (s', res)) (b : Banks) :
    ∃ b', dhmpFsWrite (s.withBank b) f buf offset = some (s'.withBank b', res) := by
  cases hdir : (s.inodes f).isDirectories with
  | true =>
    rw [dhmpFsWrite, if_pos hdir, Option.some.injEq, Prod.mk.injEq] at h
    obtain ⟨rfl, rfl⟩ := h
    exact ⟨b, if_pos hdir⟩
  | false =>
    rw [dhmpFsWrite, if_neg (by simp [hdir]), Option.map_eq_some_iff] at h
    obtain ⟨t, ht, he⟩ := h
    obtain ⟨rfl, rfl⟩ := Prod.mk.inj he
    obtain ⟨b', hb'⟩ := writeLoop_withBank o ht b
    refine ⟨b', ?_⟩
    rw [dhmpFsWrite, if_neg (by simp [hdir]), hb']
    rfl

theorem Sim.withBank {kids : InodeId → List InodeId} {t : NameTree Str} (h : Sim s kids t)
    (b : Banks) : Sim (s.withBank b) kids t where
  owned := Mount.owned_withBank h.owned b
  tree := h.tree.congr (fun _ => ⟨rfl, rfl, rfl, rfl, rfl, rfl⟩) (fun i hi => (h.tree.spare i hi).2)
    rfl rfl
  exact := h.exact
  kind := h.kind

theorem dhmpFsOpen_withBank (s : Fs) (b : Banks) (path : Str) :
    dhmpFsOpen (s.withBank b) path = dhmpFsOpen s path := searchDHash_withBank s b path

theorem dhmpFsGetattr_withBank (s : Fs) (b : Banks) (path : Str) (attr : Attr) :
    dhmpFsGetattr (s.withBank b) path attr = dhmpFsGetattr s path attr := by
  unfold dhmpFsGetattr dhmpGetAttr
  rw [searchDHash_withBank]
  rfl

theorem resolves_withBank {path : Str} {father : InodeId} {filename : Str}
    {d : HashMap InodeId InodeId} :
    Resolves (s.withBank b) path father filename d ↔ Resolves s path father filename d := by
  unfold Resolves
  simp only [searchDHash_withBank, Fs.withBank_inodes]

theorem StoreOp.Fits.withBank {op : StoreOp} (h : op.Fits s) (b : Banks) :
    op.Fits (s.withBank b) := by
  cases op with
  | name op =>
    obtain ⟨hlen, hroom⟩ := h
    refine ⟨hlen, ?_⟩
    cases op with
    | mknod | mkdir => exact fun father d hr => hroom father d (resolves_withBank.mp hr)
    | delete => trivial
  | write p buf offset =>
    refine ⟨h.1, fun fh hopen => ?_⟩
    rw [dhmpFsOpen_withBank] at hopen
    exact h.2 fh hopen

theorem NsOp.run_withBank (op : NsOp) (s : Fs) (b : Banks) :
    op.run (s.withBank b) = (op.run s).map (onBank b) := by
  cases op with
  | mknod => exact dhmpMknod_withBank s b _
  | mkdir => exact dhmpCreateDirectory_withBank s b _
  | delete => exact dhmpDelete_withBank s b _

end withBank

/-! ## The cache over its servers -/

section cache

variable {n : Nat}

/-- A cache that holds what was written takes writes to the banks it has. -/
theorem absorbs_holding (hits : Nat → Bool) :
    Absorbs (fun c w => Holding n c w ∧ c.hits = hits) (fun b => hits b = true) where
  write := by
    rintro c w b size offset ⟨h, rfl⟩ hit - env buf
    obtain ⟨c', hrun, h'⟩ := h.write_hit hit env buf size offset
    obtain rfl : (c.copy b buf size offset .write).1 = c' := by
      simpa [Client.dhmpFsWriteToCache, Client.tryVisitCache, hit, Client.copy] using hrun
    exact ⟨_, hrun, h', rfl⟩

theorem serves_holding (hpos : 0 < n) :
    Serves (fun env => env.Succeeds n) (Holding n) (fun _ => True) where
  read h _ hfit henv buf := h.read hpos henv hfit _ buf

end cache

/-! ## The simulation -/

/-- The cache holds what was written, and whatever stands elsewhere, the file system simulates
the store. -/
def MountSim (n : Nat) (m : Mount) (st : FileStore) : Prop :=
  ∃ w, Holding n m.client w ∧ ∀ x, ∃ kids, StoreSim (m.fs.withBank (w.fill x)) kids st

/-- An offset that is not behind the data of its chunk, in the chunks of the file. -/
theorem Holds.startsInData {s : Fs} {f : InodeId} {a : Content} (h : Holds s f a) {o : Nat} (k : Nat)
    (hbehind : NotBehind a o) : StartsInData s f k o := by
  refine .inr (.inr fun c hc => ?_)
  obtain ⟨last, hlast, hsize⟩ := (h.size _ c hc).last
  have hend := h.chunkEnd_eq (o / chunkSize)
  simp only [hc, Option.map_some, Option.getD_some] at hend
  unfold NotBehind at hbehind
  omega

namespace MountSim

variable {n : Nat} {m : Mount} {st : FileStore}

theorem init (n : Nat) (bank : Nat → Nat → Bytes) : MountSim n (.init n bank) .empty :=
  ⟨fun _ _ => none, holding_initClient n bank, fun _ => ⟨_, .dhmpInit _⟩⟩

/-- The file at a path, and the bytes a read of it returns. -/
theorem read (h : MountSim n m st) (hpos : 0 < n) {p : List Str} (hl : Legal st.tree p)
    (hfit : FitsName p) (hk : st.tree.kind p = some false) {o : Nat} (k : Nat)
    (hbehind : NotBehind (st.content p) o) {env : Nat → ExpelEnv} (henv : ∀ i, (env i).Succeeds n)
    (buf : Bytes) :
    ∃ fh client bytes, dhmpFsOpen m.fs (pathOf p) = some (some fh) ∧
      m.dhmpFsRead env fh buf k o = some (client, bytes, toInt bytes.length) ∧
      ReadsWritten (st.content p) o k bytes ∧ MountSim n { m with client := client } st := by
  obtain ⟨w, hw, hall⟩ := h
  obtain ⟨kids, hsim⟩ := hall 0
  obtain ⟨r, hopen, hi, hr⟩ := hsim.dhmpFsOpen hl hfit
  rw [hk, Option.map_eq_some_iff] at hr
  obtain ⟨fh, rfl, hdir⟩ := hr
  rw [dhmpFsOpen_withBank] at hopen
  have hstart := (hsim.holds p fh ((hi fh).mp rfl) hdir).startsInData k hbehind
  obtain ⟨client, bytes, res, flat, hread, hw', hflat⟩ := Mount.dhmpFsRead_serves
    (serves_holding hpos) henv (Mount.owned_withBank hsim.sim.owned m.fs.bank) hw
    (fun _ _ _ => trivial) hstart buf
  -- on every flat bank the file reads as the store has it
  have hreads : ∀ x, res = toInt (flat x).length ∧ ReadsWritten (st.content p) o k (flat x) := by
    intro x
    obtain ⟨kids', hsim'⟩ := hall x
    obtain ⟨fh', bytes', hopen', hread', hwritten⟩ := hsim'.refines.read p hl hfit hk o k hbehind
    rw [dhmpFsOpen_withBank, hopen] at hopen'
    obtain rfl := Option.some.inj (Option.some.inj hopen')
    have heq := Prod.mk.inj (Option.some.inj ((hflat.read x).symm.trans hread'))
    rw [heq.1]
    exact ⟨heq.2, hwritten⟩
  obtain ⟨hres, le, inData, -, stop⟩ := hreads 0
  rw [hflat.length 0] at hres le inData stop
  rw [hres] at hread
  refine ⟨fh, client, bytes, hopen, hread, ⟨le, inData, fun i hi v hv => ?_, stop⟩, w, hw', hall⟩
  apply hflat.known i v
  intro x
  apply (hreads x).2.written i _ v hv
  rw [hflat.length x]
  exact hi

theorem refines (h : MountSim n m st) (hpos : 0 < n) : MountRefines n m st := by
  obtain ⟨w, -, hall⟩ := id h
  obtain ⟨kids, hsim⟩ := hall 0
  refine ⟨(hsim.sim.withBank m.fs.bank).refines, fun p hl hfit hk attr k hm => ?_, ?_⟩
  · rw [← dhmpFsGetattr_withBank m.fs (w.fill 0)]
    exact hsim.refines.stat p hl hfit hk attr k hm
  · intro p hl hfit hk o k hbehind env henv buf
    obtain ⟨fh, client, bytes, hopen, hread, hwritten, -⟩ :=
      h.read hpos hl hfit hk k hbehind henv buf
    exact ⟨fh, client, bytes, hopen, hread, hwritten⟩

/-- A creation or deletion. -/
theorem name (h : MountSim n m st) {op : NsOp} (hl : (StoreOp.name op).Legal st)
    (hfit : (StoreOp.name op).Fits m.fs) (env : Nat → ExpelEnv) :
    ∃ m', StoreCall.run m (.store (.name op) env) = some (m', ((StoreOp.name op).spec st).2) ∧
      MountSim n m' ((StoreOp.name op).spec st).1 := by
  obtain ⟨w, hw, hall⟩ := h
  have hstep : ∀ x, ∃ fs kids, op.run m.fs = some (fs, ((StoreOp.name op).spec st).2) ∧
      StoreSim (fs.withBank (w.fill x)) kids ((StoreOp.name op).spec st).1 := by
    intro x
    obtain ⟨kids, hsim⟩ := hall x
    obtain ⟨s', kids', hrun, hsim'⟩ := hsim.step hl (hfit.withBank _)
    have hrun : op.run (m.fs.withBank (w.fill x)) = some (s', ((StoreOp.name op).spec st).2) := hrun
    rw [NsOp.run_withBank, Option.map_eq_some_iff] at hrun
    obtain ⟨⟨fs, res⟩, hrun, heq⟩ := hrun
    obtain ⟨rfl, rfl⟩ := Prod.mk.inj heq
    exact ⟨fs, kids', hrun, hsim'⟩
  obtain ⟨fs, -, hrun, -⟩ := hstep 0
  refine ⟨{ m with fs := fs }, by simp [StoreCall.run, hrun], w, hw, fun x => ?_⟩
  obtain ⟨fs', kids, hrun', hsim⟩ := hstep x
  obtain ⟨rfl, -⟩ := Prod.mk.inj (Option.some.inj (hrun.symm.trans hrun'))
  exact ⟨kids, hsim⟩

/-- A write that finds its banks in the cache. -/
theorem write (h : MountSim n m st) {p : List Str} {buf : List UInt8} {offset : Nat}
    (hl : (StoreOp.write p buf offset).Legal st) (hfit : (StoreOp.write p buf offset).Fits m.fs)
    (env : Nat → ExpelEnv) (hhit : (StoreCall.store (.write p buf offset) env).Hits m) :
    ∃ m', StoreCall.run m (.store (.write p buf offset) env) =
        some (m', ((StoreOp.write p buf offset).spec st).2) ∧
      MountSim n m' ((StoreOp.write p buf offset).spec st).1 := by
  obtain ⟨w, hw, hall⟩ := id h
  -- the write on all flat banks
  have hstep : ∀ x, ∃ s' kids, (StoreOp.write p buf offset).run (m.fs.withBank (w.fill x)) =
      some (s', ((StoreOp.write p buf offset).spec st).2) ∧
        StoreSim s' kids ((StoreOp.write p buf offset).spec st).1 := by
    intro x
    obtain ⟨kids, hsim⟩ := hall x
    exact hsim.step hl (hfit.withBank _)
  obtain ⟨kids, hsim⟩ := hall 0
  have o : Owned m.fs := Mount.owned_withBank hsim.sim.owned m.fs.bank
  obtain ⟨r, hopen, -, -⟩ := hsim.dhmpFsOpen hl hfit.1
  rw [dhmpFsOpen_withBank] at hopen
  simp only [StoreOp.run, dhmpFsOpen_withBank, hopen] at hstep
  simp only [StoreCall.run, StoreCall.atHandle, hopen]
  cases r with
  | none =>
    refine ⟨m, ?_, w, hw, fun x => ?_⟩
    · obtain ⟨s', kids', hrun, -⟩ := hstep 0
      obtain ⟨-, hres⟩ := Prod.mk.inj (Option.some.inj hrun)
      exact congrArg (fun r => some (m, r)) hres
    · obtain ⟨s', kids', hrun, hsim'⟩ := hstep x
      obtain ⟨rfl, -⟩ := Prod.mk.inj (Option.some.inj hrun)
      exact ⟨kids', hsim'⟩
  | some fh =>
    dsimp only at hstep ⊢
    obtain ⟨s₀, -, hrun₀, -⟩ := hstep 0
    have hok : ∀ x ∈ (FsOp.write fh buf offset).places s₀, m.client.hits (bankId x.1) = true := by
      obtain ⟨b', hb'⟩ := dhmpFsWrite_withBank (Mount.owned_withBank o _) hrun₀ m.fs.bank
      exact fun x hx => hhit fh (s₀.withBank b') _ hopen hb' x hx
    obtain ⟨m', w', hrun, ⟨hw', -⟩, hflat⟩ := Mount.dhmpFsWrite_absorbs
      (absorbs_holding m.client.hits) env o ⟨hw, rfl⟩ hrun₀ hok
    refine ⟨m', by simp [Mount.run, hrun], w', hw', fun x => ?_⟩
    obtain ⟨s', kids', hrun', hsim'⟩ := hstep x
    obtain ⟨rfl, -⟩ := Prod.mk.inj (Option.some.inj ((hflat x).symm.trans hrun'))
    exact ⟨kids', hsim'⟩

/-- A call that meets the conditions returns, with the result it has on the store. -/
theorem step (h : MountSim n m st) (hpos : 0 < n) {call : StoreCall} (hs : call.Succeeds n)
    (hfit : call.Fits m st) (hhit : call.Hits m) :
    ∃ m' res, call.run m = some (m', res) ∧ MountSim n m' (call.spec st) ∧
      ∀ op env, call = .store op env → res = (op.spec st).2 := by
  cases call with
  | store op env =>
    have hres : ∀ res, res = (op.spec st).2 →
        ∀ op' env', StoreCall.store op env = .store op' env' → res = (op'.spec st).2 := by
      rintro res rfl op' env' heq
      obtain ⟨rfl, -⟩ := StoreCall.store.inj heq
      rfl
    cases op with
    | name op =>
      obtain ⟨m', hrun, h'⟩ := h.name hfit.1 hfit.2 env
      exact ⟨m', _, hrun, h', hres _ rfl⟩
    | write p buf offset =>
      obtain ⟨m', hrun, h'⟩ := h.write hfit.1 hfit.2 env hhit
      exact ⟨m', _, hrun, h', hres _ rfl⟩
  | read p k o env buf =>
    obtain ⟨hl, hname, hbehind⟩ := hfit
    obtain ⟨w, hw, hall⟩ := id h
    obtain ⟨kids, hsim⟩ := hall 0
    obtain ⟨r, hopen, -, hr⟩ := hsim.dhmpFsOpen hl hname
    rw [dhmpFsOpen_withBank] at hopen
    have other : ∀ res : Int, ∀ op env', StoreCall.read p k o env buf = .store op env' →
        res = (op.spec st).2 := fun _ _ _ heq => by cases heq
    cases r with
    | none => exact ⟨m, -1, by simp [StoreCall.run, StoreCall.atHandle, hopen], h, other _⟩
    | some fh =>
      cases hdir : (m.fs.inodes fh).isDirectories with
      | true =>
        refine ⟨m, -1, ?_, h, other _⟩
        simp [StoreCall.run, StoreCall.atHandle, hopen, Mount.run, Mount.dhmpFsRead, hdir]
      | false =>
        have hk : st.tree.kind p = some false := by rw [← hr, ← hdir]; rfl
        obtain ⟨fh', client, bytes, hopen', hread, -, h'⟩ :=
          h.read hpos hl hname hk k (hbehind hk) hs buf
        obtain rfl := Option.some.inj (Option.some.inj (hopen.symm.trans hopen'))
        refine ⟨{ m with client := client }, toInt bytes.length, ?_, h', other _⟩
        simp [StoreCall.run, StoreCall.atHandle, hopen, Mount.run, hread]
  | rewrite env =>
    obtain ⟨w, hw, hall⟩ := h
    obtain ⟨client, hpass, hw'⟩ := hw.rewriteDirtyCache hs
    refine ⟨{ m with client := client }, 0, by simp [StoreCall.run, Mount.run, hpass],
      ⟨w, hw', hall⟩, fun _ _ heq => by cases heq⟩

end MountSim

/-! ## Runs -/

/-- In every run of calls over servers that are up, whose writes find their banks in the cache, the
mount refines the store of files; and the next such call returns, with the result it has on the
store, and keeps the refinement. -/
theorem mount_run {n : Nat} (hpos : 0 < n) {bank : Nat → Nat → Bytes} {calls : List StoreCall}
    {m : Mount} {st : FileStore}
    (run : Run (CallStep n) (.init n bank, .empty) calls (m, st)) :
    MountRefines n m st ∧ ∀ call : StoreCall, call.Succeeds n → call.Fits m st → call.Hits m →
      ∃ m' res, call.run m = some (m', res) ∧ MountRefines n m' (call.spec st) ∧
        ∀ op env, call = .store op env → res = (op.spec st).2 := by
  have inv : MountSim n m st := by
    apply run.invariant (fun x => MountSim n x.1 x.2) _ (.init n bank)
    rintro ⟨t, u⟩ call ⟨t', u'⟩ h ⟨hs, hfit, hhit, ⟨res, hrun⟩, hspec⟩
    obtain ⟨m', res', hrun', h', -⟩ := h.step hpos hs hfit hhit
    obtain ⟨rfl, -⟩ := Prod.mk.inj (Option.some.inj (hrun.symm.trans hrun'))
    exact hspec ▸ h'
  refine ⟨inv.refines hpos, fun call hs hfit hhit => ?_⟩
  obtain ⟨m', res, hrun, h', hres⟩ := inv.step hpos hs hfit hhit
  exact ⟨m', res, hrun, h'.refines hpos, hres⟩

/-- The state after a call that returns. -/
def StoreCall.next (x : Mount × FileStore) (call : StoreCall) : Mount × FileStore :=
  (((call.run x.1).map Prod.fst).getD x.1, call.spec x.2)

theorem CallStep.next {n : Nat} {x : Mount × FileStore} {call : StoreCall}
    (succeeds : call.Succeeds n) (fits : call.Fits x.1 x.2) (hits : call.Hits x.1)
    (returns : (call.run x.1).isSome = true) : CallStep n x call (call.next x) := by
  obtain ⟨⟨m', res⟩, hr⟩ := Option.isSome_iff_exists.mp returns
  exact ⟨succeeds, fits, hits, ⟨res, by simp [StoreCall.next, hr]⟩, rfl⟩

/-- A file is created and written on two servers, and the cache is written back. -/
def storeCalls : List StoreCall :=
  [.store (.name (.mknod [] [97])) fun _ => .succeeding,
    .store (.write [[97]] [7, 6] 1) fun _ => .succeeding,
    .rewrite fun _ => ⟨fun _ => true, fun _ => 0⟩]

theorem mount_run_written :
    MountRefines 2 (storeCalls.foldl StoreCall.next (.init 2 fun _ _ _ => 0, .empty)).1
      (storeCalls.foldl StoreCall.next (.init 2 fun _ _ _ => 0, .empty)).2 := by
  have start : Run FsStep (dhmpInit fun _ _ => 0) [.mknod [47, 97]]
      ((StoreCall.store (.name (.mknod [] [97])) fun _ => .succeeding).next
        (.init 2 fun _ _ _ => 0, .empty)).1.fs := .single (.next trivial rfl)
  have fitsFile : (StoreCall.store (.name (.mknod [] [97])) fun _ => .succeeding).Fits
      (.init 2 fun _ _ _ => 0) .empty := by
    refine ⟨by decide, by decide, fun father d name _ => ?_⟩
    obtain ⟨-, hf, hd⟩ := (resolves_iff rfl rfl).mp name
    obtain rfl : rootId = father := Option.some.inj hf
    obtain rfl := Option.some.inj hd
    exact ⟨by decide, by decide⟩
  have fitsWrite : (StoreCall.store (.write [[97]] [7, 6] 1) fun _ => .succeeding).Fits
      ((StoreCall.store (.name (.mknod [] [97])) fun _ => .succeeding).next
        (.init 2 fun _ _ _ => 0, .empty)).1
      ((StoreCall.store (.name (.mknod [] [97])) fun _ => .succeeding).next
        (.init 2 fun _ _ _ => 0, .empty)).2 := by
    refine ⟨by decide, by simp [FitsName], fun fh hopen _ hun => ?_⟩
    obtain rfl : 1 = fh := Option.some.inj (Option.some.inj hopen)
    have hnone : dhmpFsWrite ((StoreCall.store (.name (.mknod [] [97])) fun _ => .succeeding).next
        (.init 2 fun _ _ _ => 0, .empty)).1.fs 1 [7, 6] 1 = none :=
      (dhmpFsWrite_eq_none_iff (fsInv_run start).1).mpr ⟨rfl, hun⟩
    exact absurd hnone (Option.some_ne_none _)
  have hits : (StoreCall.store (.write [[97]] [7, 6] 1) fun _ => .succeeding).Hits
      ((StoreCall.store (.name (.mknod [] [97])) fun _ => .succeeding).next
        (.init 2 fun _ _ _ => 0, .empty)).1 := by
    have hit : (initClient 2 fun _ _ _ => 0).hits (bankId 0) = true :=
      (direct_initClient 2 _).hits_iff.mpr (by decide)
    have client : ((StoreCall.store (.name (.mknod [] [97])) fun _ => .succeeding).next
        (.init 2 fun _ _ _ => 0, .empty)).1.client = initClient 2 fun _ _ _ => 0 := rfl
    rintro fh s' res hopen hrun ⟨c, k⟩ ⟨p, hlo, hhi, hget, -⟩
    obtain rfl : 1 = fh := Option.some.inj (Option.some.inj hopen)
    obtain ⟨rfl, -⟩ := Prod.mk.inj (Option.some.inj hrun)
    simp only [List.length_cons, List.length_nil] at hhi
    obtain rfl | rfl : p = 1 ∨ p = 2 := by omega
    all_goals
      obtain rfl : 0 = c := Option.some.inj hget
      rw [client]
      exact hit
  have run : Run (CallStep 2) (.init 2 fun _ _ _ => 0, .empty) storeCalls
      (storeCalls.foldl StoreCall.next (.init 2 fun _ _ _ => 0, .empty)) := by
    apply Run.cons (.next (fun _ => ExpelEnv.succeeding_succeeds 2) fitsFile trivial rfl)
    apply Run.cons (.next (fun _ => ExpelEnv.succeeding_succeeds 2) fitsWrite hits rfl)
    exact .single (.next (fun _ _ _ => rfl) trivial trivial rfl)
  exact (mount_run (by decide) run).1

end DhmpFs
