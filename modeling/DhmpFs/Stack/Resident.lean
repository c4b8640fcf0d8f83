import DhmpFs.Stack.Mount

/-!
# A file system that fits its cache

`dhmp_init` labels the cache with the first banks. As long as all chunks in use lie in these, no
call misses: the file system is the one on flat memory, whatever the servers and the passes of
`rewrite_dirty_cache` do.

## Main definitions

* `InCache`: the chunks in use lie in the banks of the cache.
* `Mount.flat`: the file system on the flat memory that the cache is.
* `ResidentStep`: an operation that stays in the cache.
-/

namespace DhmpFs

open Library

/-- The chunks in use lie in the banks that `dhmp_init` puts into the cache. -/
def InCache (s : Fs) : Prop := ∀ c, s.bitmap c = true → bankId c < cacheSize

/-- The blocks of the cache, as banks. -/
def Client.flat (c : Client) : Banks := fun b o => (c.caches b).data o

/-- The file system on the blocks of its cache. -/
def Mount.flat (m : Mount) : Fs := m.fs.withBank m.client.flat

/-- Every slot still has the label of `dhmp_init`. -/
structure Resident (c : Client) : Prop where
  slot : ∀ i < cacheSize, c.cacheHash i = ⟨i, i⟩

/-- A read does not start behind the data of its chunk. -/
def FsOp.ReadsData (s : Fs) : FsOp → Prop
  | .read fh size offset => StartsInData s fh size offset
  | _ => True

/-- An operation that returns with all chunks in the cache. -/
def ResidentStep (m : Mount) (op : MountOp) (m' : Mount) : Prop :=
  MountStep m op m' ∧ InCache m'.fs ∧
    ∀ call env buf, op = .call call env buf → call.ReadsData m.fs

/-- The operation of FUSE, if it is one. -/
def MountOp.fsOp : MountOp → Option FsOp
  | .call op _ _ => some op
  | .rewrite _ => none

/-! ## The cache -/

section

variable {c c' : Client} {b size offset : Nat}

theorem resident_initClient (serverNum : Nat) (bank : Nat → Nat → Bytes) :
    Resident (initClient serverNum bank) := ⟨fun _ _ => rfl⟩

theorem Resident.hits (h : Resident c) (hb : b < cacheSize) :
    c.hits b = true ∧ c.cachePtr b = b := by
  have hkey : cacheKey b = b := by rw [cacheKey_eq, Nat.mod_eq_of_lt hb]
  simp [Client.hits, Client.cachePtr, hkey, h.slot b hb]

/-- The blocks of a client, as what was written last. -/
def IsFlat (c : Client) (w : LastWritten) : Prop :=
  Resident c ∧ w = fun b o => some (c.flat b o)

theorem isFlat (h : Resident c) : IsFlat c fun b o => some (c.flat b o) := ⟨h, rfl⟩

theorem IsFlat.fill {w : LastWritten} (h : IsFlat c w) (x : UInt8) : w.fill x = c.flat := by
  obtain ⟨-, rfl⟩ := h
  rfl

theorem absorbs_flat : Absorbs IsFlat (· < cacheSize) where
  write := by
    rintro c w b size offset ⟨h, rfl⟩ hb - env buf
    obtain ⟨hit, hptr⟩ := h.hits hb
    refine ⟨(c.copy b buf size offset .write).1, ?_, ⟨h.slot⟩, ?_⟩
    · simp [Client.dhmpFsWriteToCache, Client.tryVisitCache, hit, Client.copy]
    · funext k o
      simp only [LastWritten.write, Client.flat, Client.copy, Client.setCache, Client.cacheOf, hptr]
      by_cases hk : k = b
      · subst hk
        simp only [Function.update_self, writeBytes, true_and]
        split <;> rfl
      · simp [hk]

theorem serves_flat : Serves (fun _ => True) IsFlat (· < cacheSize) where
  read := by
    rintro c w b size offset env ⟨h, rfl⟩ hb - - buf
    obtain ⟨hit, hptr⟩ := h.hits hb
    refine ⟨c, readBytes (c.cacheOf b).data offset size buf, ?_, ⟨h, rfl⟩, fun o ho v hv => ?_⟩
    · simp [Client.dhmpFsReadFromCache, Client.tryVisitCache, hit, Client.copy]
    · rw [readBytes, if_pos ho, Client.cacheOf, hptr]
      exact Option.some.inj hv

/-- A pass touches neither labels nor bytes. -/
theorem Resident.rewriteSlots (h : Resident c) {env : Nat → WriteEnv} {slots : List Nat}
    (hr : Client.rewriteSlots env slots c = some c') : Resident c' ∧ c'.flat = c.flat := by
  induction slots generalizing c with
  | nil =>
    obtain rfl := Option.some.inj hr
    exact ⟨h, rfl⟩
  | cons i slots ih =>
    rw [Client.rewriteSlots, Option.bind_eq_some_iff] at hr
    obtain ⟨c₁, hflush, hr⟩ := hr
    have h₁ : Resident c₁ ∧ c₁.flat = c.flat := by
      split at hflush
      · obtain ⟨remote, -, rfl⟩ := Option.map_eq_some_iff.mp hflush
        refine ⟨⟨h.slot⟩, ?_⟩
        funext k o
        by_cases hk : k = (c.cacheHash i).cachePtr <;> simp [Client.flat, Client.setCache, hk]
      · obtain rfl := Option.some.inj hflush
        exact ⟨h, rfl⟩
    obtain ⟨h', hflat⟩ := ih h₁.1 hr
    exact ⟨h', hflat.trans h₁.2⟩

end

/-! ## One operation -/

section

variable {m m' : Mount} {s' : Fs}

/-- The slots of an inode hold chunks in use. -/
theorem InCache.bankId_lt {s : Fs} (h : InCache s) (o : Owned s) {i : InodeId} {slot : Slot}
    {c : Chunk} (hget : (s.inodes i).cntId.get slot = some c) : bankId c < cacheSize :=
  h c (o.bitmap_of_get hget)

/-- A write that leaves all chunks in the cache is the write on the flat memory. -/
theorem Resident.dhmpFsWrite (h : Resident m.client) (o : Owned m.fs) (env : Nat → ExpelEnv)
    {fh : InodeId} {buf : List UInt8} {offset : Nat} {res : Int}
    (hs : DhmpFs.dhmpFsWrite m.flat fh buf offset = some (s', res)) (hin : InCache s') :
    ∃ m', m.dhmpFsWrite env fh buf offset = some (m', buf, res) ∧ Resident m'.client ∧
      m'.flat = s' := by
  have hflat := isFlat h
  rw [Mount.flat, ← hflat.fill 0] at hs
  have o' := (dhmpFsWrite_spec (Mount.owned_withBank o _) hs).1
  obtain ⟨m', w', hrun, h', hall⟩ := Mount.dhmpFsWrite_absorbs absorbs_flat env o hflat hs
    fun x hx => by
      obtain ⟨p, -, -, hget, -⟩ := hx
      exact hin.bankId_lt o' hget
  refine ⟨m', hrun, h'.1, ?_⟩
  rw [Mount.flat, ← h'.fill 0]
  exact (Prod.mk.inj (Option.some.inj ((hall 0).symm.trans hs))).1

/-- A read that starts in data is the read on the flat memory. -/
theorem Resident.dhmpFsRead (h : Resident m.client) (o : Owned m.fs) (hin : InCache m.fs)
    (env : Nat → ExpelEnv) {fh : InodeId} {size offset : Nat}
    (hstart : StartsInData m.fs fh size offset) (buf : Bytes) :
    ∃ client bytes res, m.dhmpFsRead env fh buf size offset = some (client, bytes, res) ∧
      Resident client ∧ client.flat = m.client.flat ∧
      DhmpFs.dhmpFsRead m.flat fh size offset = some (bytes, res) := by
  have hflat := isFlat h
  obtain ⟨client, bytes, res, flat, hread, h', hall⟩ := Mount.dhmpFsRead_serves serves_flat
    (fun i => trivial) o hflat (fun slot c hget => hin.bankId_lt o hget) hstart buf
  have hsame : ∀ x, flat x = flat 0 := by
    intro x
    have hx := hall.read x
    rw [hflat.fill, ← hflat.fill 0, hall.read 0] at hx
    exact (Prod.mk.inj (Option.some.inj hx)).1.symm
  obtain rfl : flat 0 = bytes := by
    apply List.ext_getElem (hall.length 0)
    intro i hi hi'
    have hv := hall.known i (flat 0)[i] fun x => by rw [hsame x, List.getElem?_eq_getElem hi]
    rw [List.getElem?_eq_getElem hi', Option.some.injEq] at hv
    exact hv.symm
  refine ⟨client, flat 0, res, hread, h'.1, ?_, ?_⟩
  · rw [← h'.fill 0, hflat.fill]
  · rw [Mount.flat, ← hflat.fill 0]
    exact hall.read 0

/-- What the file system on flat memory does, the one over the cache does too. -/
theorem Resident.step (h : Resident m.client) (o : Owned m.fs) (hin : InCache m.fs) {op : FsOp}
    {res : Int} (hs : op.run m.flat = some (s', res)) (hin' : InCache s')
    (hread : op.ReadsData m.fs) (env : Nat → ExpelEnv) (buf : Bytes) :
    ∃ m', m.run (.call op env buf) = some (m', res) ∧ Resident m'.client ∧ m'.flat = s' := by
  have names : op.OnNames → ∃ m', ((op.run m.fs).map fun r => ({ m with fs := r.1 }, r.2)) =
      some (m', res) ∧ Resident m'.client ∧ m'.flat = s' := by
    intro hop
    rw [Mount.flat, FsOp.run_withBank hop, Option.map_eq_some_iff] at hs
    obtain ⟨⟨fs, r⟩, hr, heq⟩ := hs
    obtain ⟨rfl, rfl⟩ := Prod.mk.inj heq
    exact ⟨{ m with fs := fs }, by rw [hr]; rfl, h, rfl⟩
  cases op with
  | write fh bytes offset =>
    obtain ⟨m', hrun, h', hflat⟩ := h.dhmpFsWrite o env hs hin'
    exact ⟨m', by simp [Mount.run, hrun], h', hflat⟩
  | read fh size offset =>
    obtain ⟨client, bytes, r, hrun, h', hflat, hr⟩ := h.dhmpFsRead o hin env hread buf
    obtain ⟨rfl, rfl⟩ : m.flat = s' ∧ r = res := by simpa [FsOp.run, hr] using hs
    exact ⟨{ m with client := client }, by simp [Mount.run, hrun], h', by simp [Mount.flat, hflat]⟩
  | mknod | mkdir | unlink | rmdir | rename => exact names trivial

/-- An operation that returns over the cache returns on flat memory, with the same metadata. -/
theorem Resident.run_flat (h : Resident m.client) (o : Owned m.fs) (hin : InCache m.fs) {op : FsOp}
    {res : Int} {env : Nat → ExpelEnv} {buf : Bytes} (hread : op.ReadsData m.fs)
    (hs : m.run (.call op env buf) = some (m', res)) :
    ∃ b, op.run m.flat = some (m'.fs.withBank b, res) := by
  have names : op.OnNames → ((op.run m.fs).map fun r => ({ m with fs := r.1 }, r.2)) =
      some (m', res) → ∃ b, op.run m.flat = some (m'.fs.withBank b, res) := by
    intro hop hr
    obtain ⟨⟨fs, r⟩, hrun, heq⟩ := Option.map_eq_some_iff.mp hr
    obtain ⟨rfl, rfl⟩ := Prod.mk.inj heq
    exact ⟨m.client.flat, by rw [Mount.flat, FsOp.run_withBank hop, hrun]; rfl⟩
  cases op with
  | write fh bytes offset =>
    obtain ⟨⟨m₁, after, r⟩, hrun, heq⟩ := Option.map_eq_some_iff.mp hs
    obtain ⟨rfl, rfl⟩ := Prod.mk.inj heq
    exact Mount.dhmpFsWrite_flat o hrun _
  | read fh size offset =>
    obtain ⟨client, bytes, r, hrun, -, -, hr⟩ := h.dhmpFsRead o hin env hread buf
    simp only [Mount.run, hrun, Option.map_some, Option.some.injEq, Prod.mk.injEq] at hs
    obtain ⟨rfl, rfl⟩ := hs
    exact ⟨m.client.flat, congrArg (Option.map fun x : List UInt8 × Int => (m.flat, x.2)) hr⟩
  | mknod | mkdir | unlink | rmdir | rename => exact names trivial hs

end

/-! ## Runs -/

theorem inTree_withBank {s : Fs} {i : InodeId} (h : InTree s i) (b : Banks) :
    InTree (s.withBank b) i := by
  induction h with
  | root => exact .root
  | son _ hc ih => exact .son ih hc

theorem FsOp.Handle.withBank {s : Fs} {op : FsOp} (h : op.Handle s) (b : Banks) :
    op.Handle (s.withBank b) := by
  cases op <;> first | exact inTree_withBank h b | trivial

/-- The mount does what the file system on flat memory does. -/
structure OnFlat (m : Mount) : Prop where
  step : ∀ op env buf s' res, op.run m.flat = some (s', res) → InCache s' → op.ReadsData m.flat →
    ∃ m', m.run (.call op env buf) = some (m', res) ∧ m'.flat = s'
  read : ∀ fh size offset env buf bytes res, StartsInData m.flat fh size offset →
    dhmpFsRead m.flat fh size offset = some (bytes, res) →
      ∃ client, m.dhmpFsRead env fh buf size offset = some (client, bytes, res)

/-- In every run whose chunks fit the cache, with passes of `rewrite_dirty_cache` anywhere and
whatever becomes of the servers, the mount is the file system on flat memory. -/
theorem resident_run {serverNum : Nat} {bank : Nat → Nat → Bytes} {ops : List MountOp} {m : Mount}
    (run : Run ResidentStep (.init serverNum bank) ops m) :
    Run FsStep (dhmpInit fun _ _ => 0) (ops.filterMap MountOp.fsOp) m.flat ∧ OnFlat m := by
  have inv : Run FsStep (dhmpInit fun _ _ => 0) (ops.filterMap MountOp.fsOp) m.flat ∧
      InCache m.fs ∧ Resident m.client := by
    apply run.history (fun ops m => Run FsStep (dhmpInit fun _ _ => 0)
      (ops.filterMap MountOp.fsOp) m.flat ∧ InCache m.fs ∧ Resident m.client)
    · refine ⟨.refl _, fun c hc => ?_, resident_initClient serverNum bank⟩
      exact absurd hc Bool.false_ne_true
    · rintro ops m op m' ⟨hrun, hin, hres⟩ ⟨⟨handle, res, hs⟩, hin', hread⟩
      have o : Owned m.fs := Mount.owned_withBank (fsInv_run hrun).1 m.fs.bank
      rw [List.filterMap_append]
      cases op with
      | call op env buf =>
        obtain ⟨b, hflat⟩ := hres.run_flat o hin (hread op env buf rfl) hs
        obtain ⟨m₁, hs₁, hres', hm⟩ := hres.step o hin hflat hin' (hread op env buf rfl) env buf
        obtain ⟨rfl, -⟩ := Prod.mk.inj (Option.some.inj (hs.symm.trans hs₁))
        refine ⟨hrun.trans (.single ⟨(handle op env buf rfl).withBank _, res, ?_⟩), hin', hres'⟩
        rw [hflat, hm]
      | rewrite env =>
        obtain ⟨client, hpass, heq⟩ := Option.map_eq_some_iff.mp hs
        obtain ⟨rfl, -⟩ := Prod.mk.inj heq
        obtain ⟨hres', hflat⟩ := hres.rewriteSlots hpass
        have hnone : [MountOp.rewrite env].filterMap MountOp.fsOp = [] := rfl
        refine ⟨?_, hin', hres'⟩
        rw [hnone, List.append_nil, Mount.flat, hflat]
        exact hrun
  obtain ⟨hrun, hin, hres⟩ := inv
  have o : Owned m.fs := Mount.owned_withBank (fsInv_run hrun).1 m.fs.bank
  refine ⟨hrun, fun op env buf s' res hs hin' hread => ?_, ?_⟩
  · obtain ⟨m', hm, -, hflat⟩ := hres.step o hin hs hin' hread env buf
    exact ⟨m', hm, hflat⟩
  · intro fh size offset env buf bytes res hstart hr
    obtain ⟨client, bytes', res', hm, -, -, hr'⟩ := hres.dhmpFsRead o hin env hstart buf
    obtain ⟨rfl, rfl⟩ := Prod.mk.inj (Option.some.inj (hr'.symm.trans hr))
    exact ⟨client, hm⟩

/-- The state after an operation that returns. -/
def MountOp.next (m : Mount) (op : MountOp) : Mount := ((m.run op).map Prod.fst).getD m

theorem MountStep.next {m : Mount} {op : MountOp}
    (handle : ∀ call env buf, op = .call call env buf → call.Handle m.fs)
    (returns : (m.run op).isSome = true) : MountStep m op (op.next m) := by
  obtain ⟨⟨m', res⟩, hr⟩ := Option.isSome_iff_exists.mp returns
  exact ⟨handle, res, by simp [MountOp.next, hr]⟩

/-- A file is created and written while the only server is down. -/
def residentOps : List MountOp :=
  [.call (.mknod [47, 97]) (fun _ => .succeeding) fun _ => 0,
    .call (.write 1 [7, 6] 1) (fun _ => .succeeding) fun _ => 0,
    .rewrite fun _ => ⟨fun _ => false, fun _ => 0⟩]

theorem resident_run_server_down :
    OnFlat (residentOps.foldl (fun m op => op.next m) (.init 1 fun _ _ _ => 0)) := by
  have handle : ∀ {m : Mount} {op : FsOp} {env : Nat → ExpelEnv} {b : Bytes}, op.Handle m.fs →
      ∀ call env' buf, MountOp.call op env b = .call call env' buf → call.Handle m.fs := by
    intro m op env b h call env' buf heq
    obtain ⟨rfl, -, -⟩ := MountOp.call.inj heq
    exact h
  have file : InTree ((MountOp.call (.mknod [47, 97]) (fun _ => .succeeding) fun _ => 0).next
      (.init 1 fun _ _ _ => 0)).fs 1 := .son .root ⟨[1], ⟨rfl, rfl⟩, rfl⟩
  have inCache : ∀ {s : Fs}, (∀ c, s.bitmap c = true → c = 0) → InCache s := by
    intro s h c hc
    rw [h c hc]
    decide
  have none : ∀ c : Chunk, (fun _ : Chunk => false) c = true → c = 0 :=
    fun _ hc => absurd hc Bool.false_ne_true
  have one : ∀ c, Function.update (fun _ : Chunk => false) 0 true c = true → c = 0 := by
    intro c hc
    by_contra hne
    simp [hne] at hc
  have reads : ∀ {m : Mount} {op : FsOp} {env : Nat → ExpelEnv} {b : Bytes}, op.ReadsData m.fs →
      ∀ call env' buf, MountOp.call op env b = .call call env' buf → call.ReadsData m.fs := by
    intro m op env b h call env' buf heq
    obtain ⟨rfl, -, -⟩ := MountOp.call.inj heq
    exact h
  have run : Run ResidentStep (.init 1 fun _ _ _ => 0) residentOps
      (residentOps.foldl (fun m op => op.next m) (.init 1 fun _ _ _ => 0)) := by
    apply Run.cons ⟨.next (handle trivial) rfl, inCache none, reads trivial⟩
    apply Run.cons ⟨.next (handle file) rfl, inCache one, reads trivial⟩
    exact .single ⟨.next (fun _ _ _ h => by cases h) rfl, inCache one, fun _ _ _ h => by cases h⟩
  exact (resident_run run).2

end DhmpFs
