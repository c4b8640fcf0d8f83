import DhmpFs.Cache.Basic
import DhmpFs.Remote.ReadFailover

/-!
# Dirty slots whose write back fails

`rewrite_dirty_cache` and `expel_cache_rewrite` clear the dirty bit of a slot after the write to
the servers, whatever became of it.

## Main definitions

* `CacheRewrite`: one slot of a pass, or one eviction.
* `StoresDirty`: what a slot held before it was cleaned or given away is on a connected server.
* `WriteTaken`: the condition on the servers.
-/

namespace DhmpFs

/-- A step that may clean a slot. -/
inductive CacheRewrite where
  | rewrite (env : WriteEnv) (i : Nat)
  | expel (env : ExpelEnv) (newBankId : Nat)

/-- The iteration for one slot of `rewrite_dirty_cache`, or a call of `expel_cache_rewrite`. -/
inductive RewriteStep : Client → CacheRewrite → Client → Prop where
  | rewrite {c c' : Client} {env : WriteEnv} {i : Nat} (hi : i < cacheSize)
      (h : (if c.isDirty i then c.flush env i else some c) = some c') :
      RewriteStep c (.rewrite env i) c'
  | expel {c c' : Client} {env : ExpelEnv} {newBankId : Nat}
      (h : c.expelCacheRewrite env newBankId = some c') :
      RewriteStep c (.expel env newBankId) c'

/-- The bytes of a block are on a server that is connected. -/
def Remote.Stores (r : Remote) (cache : CacheDram) : Prop :=
  ∃ i < r.serverNum, (r.sList i).serverState = .connected ∧
    ∀ o < bankSize, (r.sList i).bank cache.bankId o = cache.data o

/-- Whatever was dirty and is clean or has another label has its bytes on a connected server. -/
def StoresDirty (c c' : Client) : Prop :=
  ∀ ptr, (c.caches ptr).dirty = true →
    (c'.caches ptr).dirty = false ∨ (c'.caches ptr).bankId ≠ (c.caches ptr).bankId →
    c'.remote.Stores (c.caches ptr)

/-- A connected server takes the write. -/
def Remote.Takes (r : Remote) (env : WriteEnv) : Prop :=
  ∃ i < r.serverNum, (r.sList i).serverState = .connected ∧ env.ok i = true

/-- The read after the write is answered: by a connected server that takes the write, or by the
server that is chosen first and is disconnected by then. -/
def Remote.AnswersAfter (r : Remote) (env : ExpelEnv) : Prop :=
  let first := env.read.rand % r.serverNum
  r.Takes ⟨fun i => env.write.ok i && env.read.ok i, env.write.stack⟩ ∨
    ((r.sList first).serverState = .disconnect ∨
      (r.sList first).serverState = .connected ∧ env.write.ok first = false) ∧
    env.read.ok first = true

/-- The servers take the write back of a dirty slot. -/
def WriteTaken (c : Client) : CacheRewrite → Prop
  | .rewrite env i => c.isDirty i = true → c.remote.Takes env
  | .expel env b => c.isResident b = false → (c.cacheOf b).dirty = true →
      c.remote.Takes env.write ∧ c.remote.AnswersAfter env

section

variable {r r' : Remote} {c c' : Client} {cache : CacheDram}

/-- After a write of a whole bank, every connected server holds it. -/
theorem write_stores {env : WriteEnv}
    (h : dhmpFsWriteToRemote r env cache.bankId cache.data bankSize 0 = some r') :
    r'.serverNum = r.serverNum ∧
      (∀ i < r.serverNum, (r'.sList i).serverState = .connected ↔
        (r.sList i).serverState = .connected ∧ env.ok i = true) ∧
      ∀ i < r.serverNum, (r'.sList i).serverState = .connected →
        ∀ o < bankSize, (r'.sList i).bank cache.bankId o = cache.data o := by
  obtain ⟨hnum, -, -, hlist⟩ := dhmpFsWriteToRemote_spec h
  refine ⟨hnum, fun i hi => ?_, fun i hi hc o ho => ?_⟩
  · rw [hlist, if_pos hi]
    exact writeServer_connected_iff
  · rw [hlist, if_pos hi] at hc ⊢
    rw [(writeServer_connected hc).2]
    simp [writeBytes, ho]

theorem write_stores_iff {env : WriteEnv}
    (h : dhmpFsWriteToRemote r env cache.bankId cache.data bankSize 0 = some r') :
    r'.Stores cache ↔ r.Takes env := by
  obtain ⟨hnum, hup, hdata⟩ := write_stores h
  constructor
  · rintro ⟨i, hi, hc, -⟩
    have hi : i < r.serverNum := hnum ▸ hi
    exact ⟨i, hi, (hup i hi).mp hc⟩
  · rintro ⟨i, hi, hc⟩
    have hc := (hup i hi).mpr hc
    exact ⟨i, hnum.symm ▸ hi, hc, hdata i hi hc⟩

/-- Where a read follows the write, it must leave a server connected. -/
theorem write_read_stores_iff {env : ExpelEnv} {r'' : Remote} {b : Nat} {buf : Bytes}
    (hw : dhmpFsWriteToRemote r env.write cache.bankId cache.data bankSize 0 = some r')
    (hr : dhmpFsReadFromRemote r' env.read b cache.data bankSize 0 = some (r'', buf)) :
    r''.Stores cache ↔ r.Takes env.write ∧ r'.Answers env.read := by
  obtain ⟨hnum, hup, hdata⟩ := write_stores hw
  have hfails := read_fails hr
  have hconn := read_connected hr
  have htakes : (∃ i < r'.serverNum, (r'.sList i).serverState = .connected) ↔
      r.Takes env.write := by
    rw [hnum]
    exact exists_congr fun i => and_congr_right fun hi => hup i hi
  rw [← htakes, ← hconn]
  constructor
  · rintro ⟨i, hi, hc, -⟩
    exact ⟨i, hfails.serverNum ▸ hi, hc⟩
  · rintro ⟨i, hi, hc⟩
    have hc' : (r'.sList i).serverState = .connected := by
      rcases hfails.serverState i with hs | hs | hs <;> simp_all
    refine ⟨i, hfails.serverNum.symm ▸ hi, hc, fun o ho => ?_⟩
    rw [hfails.bank]
    exact hdata i (hnum ▸ hi) hc' o ho

/-- Who answers a read after a write, by the servers before it. -/
theorem write_answers_iff {env : ExpelEnv} {b : Nat} (hpos : 0 < r.serverNum)
    (hw : dhmpFsWriteToRemote r env.write b cache.data bankSize 0 = some r') :
    r'.Answers env.read ↔ r.AnswersAfter env := by
  obtain ⟨hnum, -, -, hlist⟩ := dhmpFsWriteToRemote_spec hw
  have hfirst : env.read.rand % r.serverNum < r.serverNum := Nat.mod_lt _ hpos
  simp only [Remote.Answers, Remote.AnswersAfter, Remote.Takes, hnum]
  refine or_congr (exists_congr fun i => and_congr_right fun hi => ?_) ?_
  · rw [hlist, if_pos hi, writeServer_connected_iff, Bool.and_eq_true, and_assoc]
  · rw [hlist, if_pos hfirst, writeServer_disconnect_iff]

theorem flush_storesDirty {env : WriteEnv} {i : Nat} (hd : c.isDirty i = true)
    (h : c.flush env i = some c') : StoresDirty c c' ↔ c.remote.Takes env := by
  obtain ⟨remote, hw, rfl⟩ := Option.map_eq_some_iff.mp h
  rw [← write_stores_iff hw]
  constructor
  · exact fun hs => hs _ hd (.inl (by simp [Client.setCache]))
  · intro hs ptr hptr hchange
    rcases eq_or_ne ptr (c.cacheHash i).cachePtr with rfl | hne
    · exact hs
    · simp [Client.setCache, hne, hptr] at hchange

/-- An eviction cleans one block and gives it another label. -/
theorem evict_storesDirty {env : ExpelEnv} {b : Nat} (hd : (c.cacheOf b).dirty = true)
    (h : c.evict env b = some c') :
    StoresDirty c c' ↔ c.remote.Takes env.write ∧ c.remote.AnswersAfter env := by
  have hdirty : (c.caches (c.cachePtr b)).dirty = true := hd
  unfold Client.evict at h
  dsimp only at h
  rw [if_pos hdirty] at h
  obtain ⟨r', hw, hmap⟩ := Option.bind_eq_some_iff.mp h
  obtain ⟨⟨r'', data⟩, hr, rfl⟩ := Option.map_eq_some_iff.mp hmap
  have hnum := (dhmpFsWriteToRemote_spec hw).1
  have hpos : 0 < c.remote.serverNum := by
    rw [← hnum, Nat.pos_iff_ne_zero]
    intro h0
    simp [dhmpFsReadFromRemote, h0] at hr
  rw [← write_answers_iff hpos hw, ← write_read_stores_iff hw hr]
  constructor
  · exact fun hs => hs _ hd (.inl (by simp))
  · intro hs ptr hptr hchange
    rcases eq_or_ne ptr (c.cachePtr b) with rfl | hne
    · exact hs
    · simp [hne, hptr] at hchange

/-- What did not change has lost nothing. -/
theorem StoresDirty.refl_of_clean (h : ∀ ptr, (c.caches ptr).dirty = true →
    (c'.caches ptr).dirty = true ∧ (c'.caches ptr).bankId = (c.caches ptr).bankId) :
    StoresDirty c c' := by
  intro ptr hd hchange
  obtain ⟨hd', hbank⟩ := h ptr hd
  simp [hd', hbank] at hchange

theorem evict_clean {env : ExpelEnv} {b : Nat} (hd : (c.cacheOf b).dirty = false)
    (h : c.evict env b = some c') : StoresDirty c c' := by
  unfold Client.evict at h
  obtain ⟨r', -, hmap⟩ := Option.bind_eq_some_iff.mp h
  obtain ⟨⟨r'', data⟩, -, rfl⟩ := Option.map_eq_some_iff.mp hmap
  refine .refl_of_clean fun ptr hptr => ?_
  have hne : ptr ≠ c.cachePtr b := by
    rintro rfl
    exact absurd hptr (by simpa [Client.cacheOf] using hd)
  simp [hne, hptr]

/-- What a step cleans or gives away is stored exactly when the servers take the write back, and
in an eviction the read after it is answered. -/
theorem no_silent_loss {a : CacheRewrite} (h : RewriteStep c a c') :
    StoresDirty c c' ↔ WriteTaken c a := by
  cases h with
  | @rewrite _ env i hi h =>
    cases hd : c.isDirty i with
    | true =>
      rw [hd, if_pos rfl] at h
      simp [WriteTaken, hd, flush_storesDirty hd h]
    | false =>
      obtain rfl := Option.some.inj (by simpa [hd] using h)
      simp [WriteTaken, hd, StoresDirty.refl_of_clean]
  | @expel _ env b h =>
    unfold Client.expelCacheRewrite at h
    cases hres : c.isResident b with
    | true =>
      obtain rfl := Option.some.inj (by simpa [hres] using h)
      simp [WriteTaken, hres, StoresDirty.refl_of_clean]
    | false =>
      rw [hres, if_neg (by simp)] at h
      cases hd : (c.cacheOf b).dirty with
      | true => simp [WriteTaken, hres, hd, evict_storesDirty hd h]
      | false => simp [WriteTaken, hd, evict_clean hd h]

/-- A client of one server with a dirty slot. -/
def dirtyClient : Client :=
  (initClient 1 fun _ _ _ => 0).setCache 0 ⟨fun _ => 7, 0, true⟩

/-- Slot 0 is evicted for bank 128, and every remote call succeeds. -/
theorem no_silent_loss_evict :
    ∃ c', RewriteStep dirtyClient (.expel ⟨⟨fun _ => true, fun _ => 0⟩, ⟨0, fun _ => true⟩⟩ 128) c' ∧
      (StoresDirty dirtyClient c' ↔
        WriteTaken dirtyClient (.expel ⟨⟨fun _ => true, fun _ => 0⟩, ⟨0, fun _ => true⟩⟩ 128)) := by
  have step : ∃ c', RewriteStep dirtyClient
      (.expel ⟨⟨fun _ => true, fun _ => 0⟩, ⟨0, fun _ => true⟩⟩ 128) c' := ⟨_, .expel rfl⟩
  obtain ⟨c', h⟩ := step
  exact ⟨c', h, no_silent_loss h⟩

/-- The only server does not take the flush of slot 0, and the slot is clean. -/
theorem not_no_silent_loss :
    ∃ c', RewriteStep dirtyClient (.rewrite ⟨fun _ => false, fun _ => 0⟩ 0) c' ∧
      ¬ StoresDirty dirtyClient c' := by
  refine ⟨_, .rewrite (by decide) rfl, fun h => ?_⟩
  obtain ⟨i, hi, hc, -⟩ := h 0 rfl (.inl rfl)
  obtain rfl : i = 0 := by simpa [dirtyClient, initClient, initRemote, Client.setCache] using hi
  exact absurd hc (by decide)

end

end DhmpFs
