import DhmpFs.Cache.Basic
import DhmpFs.Library.WriteBack

/-!
# The critical sections of the cache

What a write hit, a flush and an eviction do to the labels, whatever becomes of the remote
calls, and what they do to the content when every server is up: then the cache is a write-back
cache over the servers.

## Main definitions

* `Client.view`: the client as a write-back cache over `n` servers.
* `Client.Up`: the servers of the client are all connected.
-/

namespace DhmpFs

open Library

/-! ## Labels -/

section labels

variable {c c' : Client} {b i size offset : Nat} {buf : Bytes}

/-- A visit copies, and the labels stay. -/
theorem copy_bankId (c : Client) (b size offset : Nat) (buf : Bytes) (type : VisitType) (j : Nat) :
    ((c.copy b buf size offset type).1.caches j).bankId = (c.caches j).bankId := by
  cases type with
  | read => rfl
  | write =>
    rcases eq_or_ne j (c.cachePtr b) with rfl | hj <;>
      simp [Client.copy, Client.setCache, Client.cacheOf, *]

theorem Direct.copy (h : Direct c) (type : VisitType) :
    Direct (c.copy b buf size offset type).1 := by
  refine h.congr ?_ (copy_bankId c b size offset buf type)
  cases type <;> rfl

theorem flush_bankId {env : WriteEnv} (hf : c.flush env i = some c') (j : Nat) :
    (c'.caches j).bankId = (c.caches j).bankId := by
  obtain ⟨remote, -, rfl⟩ := Option.map_eq_some_iff.mp hf
  rcases eq_or_ne j (c.cacheHash i).cachePtr with rfl | hj <;> simp [Client.setCache, *]

theorem Direct.flush (h : Direct c) {env : WriteEnv} (hf : c.flush env i = some c') :
    Direct c' := by
  refine h.congr ?_ (flush_bankId hf)
  obtain ⟨remote, -, rfl⟩ := Option.map_eq_some_iff.mp hf
  rfl

theorem Direct.flush_eq (h : Direct c) (hi : i < cacheSize) (env : WriteEnv) :
    c.flush env i =
      (dhmpFsWriteToRemote c.remote env (c.caches i).bankId (c.caches i).data bankSize 0).map
        fun remote => { c with
          remote := remote
          caches := Function.update c.caches i { c.caches i with dirty := false } } := by
  simp only [Client.flush, h.cachePtr i hi]
  rfl

/-- An eviction after the write back: the slot of `b` gets the label and the bytes of `b`. -/
def Client.refill (c : Client) (env : ReadEnv) (b : Nat) : Option Client :=
  let key := cacheKey b
  (dhmpFsReadFromRemote c.remote env b (c.caches key).data bankSize 0).map fun (remote, data) =>
    { cacheHash := Function.update c.cacheHash key { c.cacheHash key with bankId := b }
      caches := Function.update c.caches key ⟨data, b, false⟩
      remote := remote }

/-- An eviction is a flush of a dirty slot and a refill. -/
theorem Direct.evict_eq (h : Direct c) (env : ExpelEnv) (b : Nat) :
    c.evict env b =
      (if (c.caches (cacheKey b)).dirty then c.flush env.write (cacheKey b) else some c).bind
        fun c => c.refill env.read b := by
  simp only [Client.evict, h.cachePtr_eq, h.key _ (cacheKey_lt b)]
  split
  · rw [h.flush_eq (cacheKey_lt b), Option.bind_map, Function.comp_def]
    simp [Client.refill]
  · rfl

theorem Direct.refill (h : Direct c) {env : ReadEnv} (hr : c.refill env b = some c') :
    Direct c' ∧ (c'.caches (cacheKey b)).bankId = b ∧
      ∀ i ≠ cacheKey b, c'.caches i = c.caches i := by
  obtain ⟨⟨remote, data⟩, -, rfl⟩ := Option.map_eq_some_iff.mp hr
  refine ⟨⟨fun i hi => ?_, fun i hi => ?_, fun i hi => ?_⟩, by simp, fun i hi => by simp [hi]⟩ <;>
    rcases eq_or_ne i (cacheKey b) with rfl | hne
  · simpa using h.cachePtr _ hi
  · simpa [hne] using h.cachePtr i hi
  · simp
  · simpa [hne] using h.tag i hi
  · simp
  · simpa [hne] using h.key i hi

/-- After an eviction the slot has the new label and every other slot the old one. -/
theorem Direct.evict (h : Direct c) {env : ExpelEnv} (he : c.evict env b = some c') :
    Direct c' ∧ (c'.caches (cacheKey b)).bankId = b ∧
      ∀ i ≠ cacheKey b, c'.caches i = c.caches i := by
  rw [h.evict_eq] at he
  obtain ⟨c₁, hflush, hrefill⟩ := Option.bind_eq_some_iff.mp he
  split at hflush
  · obtain ⟨hd, hlabel, hframe⟩ := (h.flush hflush).refill hrefill
    rw [h.flush_eq (cacheKey_lt b)] at hflush
    obtain ⟨remote, -, rfl⟩ := Option.map_eq_some_iff.mp hflush
    exact ⟨hd, hlabel, fun i hi => by simpa [hi] using hframe i hi⟩
  · obtain rfl := Option.some.inj hflush
    exact h.refill hrefill

end labels

/-! ## Content -/

/-- No write of the call fails on one of `n` servers. -/
def WriteEnv.Succeeds (env : WriteEnv) (n : Nat) : Prop := ∀ i < n, env.ok i = true

def ReadEnv.Succeeds (env : ReadEnv) (n : Nat) : Prop := ∀ i < n, env.ok i = true

def ExpelEnv.Succeeds (env : ExpelEnv) (n : Nat) : Prop :=
  env.write.Succeeds n ∧ env.read.Succeeds n

/-- The remote calls of an eviction that all succeed. -/
def ExpelEnv.succeeding : ExpelEnv := ⟨⟨fun _ => true, fun _ => 0⟩, ⟨0, fun _ => true⟩⟩

theorem ExpelEnv.succeeding_succeeds (n : Nat) : ExpelEnv.succeeding.Succeeds n :=
  ⟨fun _ _ => rfl, fun _ _ => rfl⟩

/-- The slot of a bank, as an index of the cache. -/
def bankSlot (b : Nat) : Fin cacheSize := ⟨cacheKey b, cacheKey_lt b⟩

namespace Client

/-- The cache over the banks of `n` servers. -/
def view (n : Nat) (c : Client) : WriteBack (Fin cacheSize) Nat (Fin n) (Fin bankSize) UInt8 where
  label i := (c.caches i).bankId
  data i o := (c.caches i).data o
  dirty := {i | (c.caches i).dirty = true}
  store j b o := (c.remote.sList j).bank b o

/-- All `n` servers are connected. -/
structure Up (n : Nat) (c : Client) : Prop where
  serverNum : c.remote.serverNum = n
  connected : c.remote.AllConnected

end Client

section content

variable {n : Nat} {c c' : Client} {b i size offset : Nat} {buf : Bytes}

theorem up_initClient (n : Nat) (bank : Nat → Nat → Bytes) : (initClient n bank).Up n :=
  ⟨rfl, fun _ _ => rfl⟩

/-- A write hit, or a write under a wrong label: the slot is written and becomes dirty. -/
theorem copy_writes (h : Direct c) :
    WriteBack.Writes (c.view n) ((c.copy b buf size offset .write).1.view n) (bankSlot b)
      fun a => if offset ≤ a ∧ a < offset + size then some (buf (a - offset)) else none := by
  have hcache : (c.copy b buf size offset .write).1.caches =
      Function.update c.caches (cacheKey b)
        ⟨writeBytes (c.caches (cacheKey b)).data offset size buf, (c.caches (cacheKey b)).bankId,
          true⟩ := by
    simp [Client.copy, Client.setCache, h.cachePtr_eq, h.cacheOf_eq]
  have other (j : Fin cacheSize) (hj : j ≠ bankSlot b) : (j : Nat) ≠ cacheKey b :=
    fun he => hj (Fin.ext he)
  refine ⟨?_, fun a => ?_, fun j hj => ?_, ?_, rfl⟩
  · funext j
    by_cases hj : j = bankSlot b
    · simp [Client.view, hcache, hj, bankSlot]
    · simp [Client.view, hcache, other j hj]
  · simp only [Client.view, hcache, bankSlot, Function.update_self, writeBytes]
    split <;> rfl
  · simp [Client.view, hcache, other j hj]
  · ext j
    by_cases hj : j = bankSlot b
    · simp [Client.view, hcache, hj, bankSlot]
    · simp [Client.view, hcache, hj, other j hj]

/-- What a write of a whole bank leaves in the banks of the servers. -/
theorem bank_written {r r' : Remote} (hnum : r.serverNum = n)
    (hbank : ∀ j < r.serverNum, (r'.sList j).bank = Function.update (r.sList j).bank b
      (writeBytes ((r.sList j).bank b) 0 bankSize buf)) (j : Fin n) :
    (∀ o : Fin bankSize, (r'.sList j).bank b o = buf o) ∧
      ∀ k ≠ b, (r'.sList j).bank k = (r.sList j).bank k := by
  have hj := hbank j (hnum ▸ j.isLt)
  exact ⟨fun o => by simp [hj, writeBytes], fun k hk => by simp [hj, hk]⟩

theorem flush_flushes (h : Direct c) (hup : c.Up n) (hi : i < cacheSize) {env : WriteEnv}
    (henv : env.Succeeds n) : ∃ c', c.flush env i = some c' ∧ Direct c' ∧ c'.Up n ∧
      WriteBack.Flushes (c.view n) (c'.view n) ⟨i, hi⟩ := by
  obtain ⟨r', hwrite, hnum, hconn, hbank⟩ := dhmpFsWriteToRemote_connected (c.caches i).bankId
    bankSize 0 (c.caches i).data hup.connected env (hup.serverNum ▸ henv)
  have hstore := bank_written hup.serverNum hbank
  have hf : c.flush env i = some { c with
      remote := r'
      caches := Function.update c.caches i { c.caches i with dirty := false } } := by
    rw [h.flush_eq hi, hwrite]
    rfl
  refine ⟨_, hf, h.flush hf, ⟨hnum.trans hup.serverNum, hconn⟩, ?_, ?_, ?_, ?_, ?_⟩
  · funext j
    rcases eq_or_ne (j : Nat) i with hj | hj <;> simp [Client.view, hj]
  · funext j o
    rcases eq_or_ne (j : Nat) i with hj | hj <;> simp [Client.view, hj]
  · ext j
    rcases eq_or_ne j ⟨i, hi⟩ with rfl | hj
    · simp [Client.view]
    · have : (j : Nat) ≠ i := fun he => hj (Fin.ext he)
      simp [Client.view, this, hj]
  · intro j
    funext o
    exact (hstore j).1 o
  · intro j k hk
    funext o
    exact congrFun ((hstore j).2 k hk) o

theorem refill_refills (h : Direct c) (hup : c.Up n) (hpos : 0 < n) {env : ReadEnv}
    (henv : env.Succeeds n) (b : Nat) : ∃ c', c.refill env b = some c' ∧ Direct c' ∧ c'.Up n ∧
      WriteBack.Refills bankSlot (c.view n) (c'.view n) b := by
  obtain ⟨j, hj, hread⟩ := dhmpFsReadFromRemote_connected b bankSize 0
    (c.caches (cacheKey b)).data hup.connected (hup.serverNum ▸ hpos) env (hup.serverNum ▸ henv)
  have hr : c.refill env b = some
      { cacheHash := Function.update c.cacheHash (cacheKey b)
          { c.cacheHash (cacheKey b) with bankId := b }
        caches := Function.update c.caches (cacheKey b)
          ⟨readBytes ((c.remote.sList j).bank b) 0 bankSize (c.caches (cacheKey b)).data, b, false⟩
        remote := c.remote } := by
    rw [Client.refill, hread]
    rfl
  have other (i : Fin cacheSize) (hi : i ≠ bankSlot b) : (i : Nat) ≠ cacheKey b :=
    fun he => hi (Fin.ext he)
  refine ⟨_, hr, (h.refill hr).1, ⟨hup.serverNum, hup.connected⟩,
    ⟨?_, ⟨⟨j, hup.serverNum ▸ hj⟩, ?_⟩, fun i hi => ?_, ?_, rfl⟩⟩
  · simp [Client.view, bankSlot]
  · funext o
    simp [Client.view, bankSlot, readBytes]
  · simp [Client.view, other i hi]
  · ext i
    by_cases hi : i = bankSlot b
    · simp [Client.view, hi, bankSlot]
    · simp [Client.view, hi, other i hi]

/-- With all servers up an eviction is a flush, if the slot is dirty, and a refill. -/
theorem evict_refills (h : Direct c) (hup : c.Up n) (hpos : 0 < n) {env : ExpelEnv}
    (henv : env.Succeeds n) (b : Nat) : ∃ c', c.evict env b = some c' ∧ Direct c' ∧ c'.Up n ∧
      ∃ w, (bankSlot b ∈ (c.view n).dirty ∧ WriteBack.Flushes (c.view n) w (bankSlot b) ∨
          bankSlot b ∉ (c.view n).dirty ∧ w = c.view n) ∧
        bankSlot b ∉ w.dirty ∧ WriteBack.Refills bankSlot w (c'.view n) b := by
  rw [h.evict_eq]
  by_cases hd : (c.caches (cacheKey b)).dirty = true
  · obtain ⟨c₁, hflush, h₁, hup₁, hfl⟩ := flush_flushes h hup (cacheKey_lt b) henv.1
    obtain ⟨c', hrefill, h', hup', href⟩ := refill_refills h₁ hup₁ hpos henv.2 b
    refine ⟨c', by simp [hd, hflush, hrefill], h', hup', c₁.view n, .inl ⟨hd, hfl⟩, ?_, href⟩
    rw [hfl.dirty]
    exact fun hc => hc.2 rfl
  · obtain ⟨c', hrefill, h', hup', href⟩ := refill_refills h hup hpos henv.2 b
    exact ⟨c', by simp [hd, hrefill], h', hup', c.view n, .inr ⟨hd, rfl⟩, hd, href⟩

end content

end DhmpFs
