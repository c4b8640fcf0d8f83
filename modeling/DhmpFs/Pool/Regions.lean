import DhmpFs.Pool.Basic

/-!
# The pool is a store of regions

A work, from its start to its end, acts on one region: the allocations of a server are apart, and
the table of the client has exactly the allocations of all servers.

## Main definitions

* `Server.InSpace`: every area has addresses of 48 bits.
* `PoolSim`: what the client, the servers and the regions have to do with each other.
-/

namespace DhmpFs

open Library

/-! ## Addresses and memory -/

theorem dhmpTransferDhmpAddr_inj {n m x y : Nat} (hx : x < 2 ^ 48) (hy : y < 2 ^ 48)
    (heq : dhmpTransferDhmpAddr n x = dhmpTransferDhmpAddr m y) : n = m ∧ x = y := by
  have hnode := congrArg dhmpGetNodeIndexFromAddr heq
  have haddr := congrArg dhmpTransferNormalAddr heq
  rw [dhmpGetNodeIndexFromAddr_transfer (by omega) (by omega),
    dhmpGetNodeIndexFromAddr_transfer (by omega) (by omega)] at hnode
  rw [dhmpTransferNormalAddr_transfer (by omega) (by omega),
    dhmpTransferNormalAddr_transfer (by omega) (by omega)] at haddr
  exact ⟨by exact_mod_cast hnode, by exact_mod_cast haddr⟩

/-- An address of 48 bits and the number of a server fit a `long long`. -/
theorem PoolClient.resAddr_eq {n x : Nat} (hn : n < dhmpServerNodeNum) (hx : x < 2 ^ 48) :
    resAddr n x = dhmpTransferDhmpAddr n x := by
  have hn' : n < 3 := hn
  unfold resAddr dhmpTransferDhmpAddr
  apply Int.bmod_eq_of_le <;> split <;> omega

/-- A pointer that a server can have answered goes into the table. -/
theorem PoolClient.dhmpMallocWorkDone_given {hash : Int → Nat} {client : PoolClient} {n : Nat}
    {p : AddrInfoId} {mr : IbvMr} (hn : n < dhmpServerNodeNum)
    (hinfo : (client.addrInfo p).nvmMr = mr) (hpointer : 0 < mr.addr ∧ mr.addr < 2 ^ 48) :
    let d := dhmpTransferDhmpAddr n mr.addr
    let index := dhmpHashInClient hash d
    client.dhmpMallocWorkDone hash n p = ({ client with
      addrInfoHt := Function.update client.addrInfoHt index (p :: client.addrInfoHt index)
      addrInfo := Function.update client.addrInfo p ⟨mr, dhmpGetNodeIndexFromAddr d, false⟩ },
      .malloc d) := by
  have hnull := Nat.ne_of_gt hpointer.1
  simp only [dhmpMallocWorkDone, hinfo, hnull, if_false, setInfo, resAddr_eq hn hpointer.2]

/-- The two parts of an address. -/
theorem dhmpAddr_eq (d : Int) :
    d = dhmpTransferNormalAddr d + dhmpGetNodeIndexFromAddr d * 2 ^ 48 := by
  unfold dhmpTransferNormalAddr dhmpGetNodeIndexFromAddr
  dsimp only
  omega

theorem writeBytes_apart {mem buf : Bytes} {b c : Nat × Nat} {o n i : Nat} (h : Apart b c)
    (hb : b.1 ≤ o ∧ o + n ≤ b.1 + b.2) (hi : i < c.2) :
    writeBytes mem o n buf (c.1 + i) = mem (c.1 + i) := by
  unfold writeBytes
  unfold Apart at h
  rw [if_neg]
  omega

/-- A text stays in its buffer. -/
theorem snprintf_apart {mem : Bytes} {b c : Nat × Nat} {n i : Nat} {text : List UInt8}
    (h : Apart b c) (hn : n ≤ b.2) (hi : i < c.2) :
    snprintf mem b.1 n text (c.1 + i) = mem (c.1 + i) := by
  unfold snprintf
  split
  · rfl
  · apply writeBytes_apart h _ hi
    simp only [List.length_append, List.length_take, List.length_singleton]
    omega

/-! ## Addresses of 48 bits -/

def Server.InSpace (s : Server) : Prop :=
  ∀ id ∈ s.ids, 0 < (s.areas id).mr.addr ∧ (s.areas id).mr.addr + (s.areas id).mr.length ≤ 2 ^ 48

theorem dhmpGetFreeBlock_mr {rounds index : Nat} {area area' : Area} {r : Option FreeBlock}
    (h : dhmpGetFreeBlock rounds area index = some (area', r)) : area'.mr = area.mr := by
  induction rounds generalizing area with
  | zero => simp [dhmpGetFreeBlock] at h
  | succ rounds ih =>
    rcases dhmpGetFreeBlock_cases h with
      ⟨rfl, -⟩ | ⟨blk, rest, -, -, rfl, -⟩ | ⟨i, blk, rest, -, -, -, -, hrest⟩
    · rfl
    · rfl
    · exact (ih hrest).trans rfl

theorem recycleLoop_mr {rounds addr index : Nat} {area area' : Area}
    (h : recycleLoop rounds area addr index = some area') : area'.mr = area.mr := by
  induction rounds generalizing area addr index with
  | zero => simp [recycleLoop] at h
  | succ rounds ih =>
    have hmr : (dhmpRecycleFreeBlock area addr index).1.mr = area.mr := by
      rcases dhmpRecycleFreeBlock_cases area addr index with ⟨list, heq, -⟩ | ⟨tmp, list, heq, -⟩
      · rw [heq, Area.setHead_mr]
      · rw [heq, Area.setHead_mr]
    unfold recycleLoop at h
    dsimp only at h
    split at h
    · exact (ih h).trans hmr
    · rw [← Option.some.inj h]
      exact hmr

theorem freeInArea_mr {area area' : Area} {mr : IbvMr} (h : freeInArea area mr = some area') :
    area'.mr = area.mr := by
  unfold freeInArea at h
  simp only [Option.bind_eq_bind, Option.pure_def, Option.bind_eq_some_iff,
    Option.some.injEq] at h
  obtain ⟨index, -, area₁, hloop, rfl⟩ := h
  have hmr : area₁.mr = area.mr := recycleLoop_mr hloop
  split
  · exact hmr
  · exact hmr

namespace Server.InSpace

variable {s s' : Server} {id : AreaId} {area : Area} {reg : Option Registration} {reqSize : Nat}

theorem setArea (h : s.InSpace) (hmr : area.mr = (s.areas id).mr) :
    (s.setArea id area).InSpace := by
  intro id' hid'
  have hsame : ((s.setArea id area).areas id').mr = (s.areas id').mr := by
    by_cases heq : id' = id
    · subst heq
      simpa [Server.setArea] using hmr
    · simp [Server.setArea, heq]
  rw [hsame]
  exact h id' hid'

theorem create (h : s.InSpace) {r : Registration} {length : Nat}
    (hr : 0 < r.addr ∧ r.addr + length ≤ 2 ^ 48) (hasBuddySys : Bool) :
    (dhmpAreaCreate s r hasBuddySys length).InSpace := by
  intro id hid
  by_cases heq : id = r.area
  · subst heq
    cases hasBuddySys <;>
      simpa [dhmpAreaCreate, Server.setArea, dhmpBuddySystemBuild] using hr
  · have harea : (dhmpAreaCreate s r hasBuddySys length).areas id = s.areas id := by
      cases hasBuddySys <;> exact Function.update_of_ne heq ..
    rw [harea]
    apply h id
    cases hasBuddySys <;>
      simpa [Server.ids, dhmpAreaCreate, Server.setArea, heq] using hid

theorem selectArea (h : s.InSpace) {index : Nat} (hle : reqSize ≤ singleAreaSize)
    (space : ∀ r ∈ reg, r.InSpace reqSize) (hs : DhmpFs.selectArea s reg index = some s') :
    s'.InSpace := by
  unfold DhmpFs.selectArea at hs
  split at hs
  · exact Option.some.inj hs ▸ h
  · split at hs
    · exact Option.some.inj hs ▸ h
    · obtain ⟨r, hr, rfl⟩ := Option.map_eq_some_iff.mp hs
      have hspace := space r hr
      rw [Registration.InSpace, areaLength, if_pos hle] at hspace
      exact h.create hspace true

theorem malloc (h : s.InSpace) (space : ∀ r ∈ reg, r.InSpace reqSize) {res : Option IbvMr}
    (hs : Host.dhmpMallocRequestHandler s reg reqSize = some (s', res)) : s'.InSpace := by
  have more : (Host.dhmpMallocMoreArea s reg (areaLength reqSize)).1.InSpace := by
    cases reg with
    | none => exact h
    | some r => exact h.create (space r rfl) false
  unfold Host.dhmpMallocRequestHandler at hs
  by_cases hblock : reqSize ≤ buddySize (maxOrder - 1)
  · rw [if_pos hblock, Host.dhmpMallocOneBlock] at hs
    cases hsel : DhmpFs.selectArea s reg (orderOf reqSize) with
    | none =>
      rw [hsel] at hs
      obtain ⟨rfl, -⟩ := Prod.mk.inj (Option.some.inj hs)
      exact h
    | some t =>
      simp only [hsel, Option.bind_eq_bind, Option.pure_def, Option.bind_eq_some_iff,
        Option.some.injEq, Prod.mk.injEq] at hs
      obtain ⟨⟨area, blk⟩, hget, rfl, -⟩ := hs
      have ht := h.selectArea (Nat.le_trans hblock (by decide)) space hsel
      exact ht.setArea (dhmpGetFreeBlock_mr hget)
  · rw [if_neg hblock] at hs
    by_cases hone : reqSize ≤ singleAreaSize
    · rw [areaLength, if_pos hone] at more
      rw [if_pos hone] at hs
      obtain ⟨rfl, -⟩ := Prod.mk.inj (Option.some.inj hs)
      exact more
    · rw [areaLength, if_neg hone] at more
      rw [if_neg hone] at hs
      obtain ⟨rfl, -⟩ := Prod.mk.inj (Option.some.inj hs)
      exact more

theorem free (h : s.InSpace) {mr : IbvMr} (hs : dhmpFreeRequestHandler s mr = some s') :
    s'.InSpace := by
  unfold dhmpFreeRequestHandler dhmpFreeOneBlock dhmpFreeOneArea dhmpFreeMoreArea at hs
  split at hs
  · cases hfind : s.findArea s.areaList mr with
    | none =>
      rw [hfind] at hs
      exact Option.some.inj hs ▸ h
    | some id =>
      simp only [hfind, Option.map_eq_some_iff] at hs
      obtain ⟨area, harea, rfl⟩ := hs
      exact h.setArea (freeInArea_mr harea)
  · cases hfind : s.findArea s.moreAreaList mr with
    | none => simp [hfind] at hs
    | some id =>
      have hid : id ∈ s.moreAreaList := List.mem_of_find?_eq_some hfind
      simp only [hfind, Option.bind_eq_bind, Option.bind_some, Option.pure_def] at hs
      split at hs
      · obtain rfl := Option.some.inj hs
        have hbuild : (s.setArea id { dhmpBuddySystemBuild (s.areas id) with
            maxIndex := maxOrder - 1 }).InSpace := h.setArea rfl
        intro id' hid'
        apply hbuild id'
        simp only [Server.ids, Server.setArea, List.cons_append, List.mem_cons,
          List.mem_append] at hid' ⊢
        rcases hid' with rfl | hid' | hid'
        · exact .inr hid
        · exact .inl hid'
        · exact .inr (List.mem_of_mem_erase hid')
      · obtain rfl := Option.some.inj hs
        intro id' hid'
        apply h id'
        simp only [Server.ids, List.mem_append] at hid' ⊢
        exact hid'.imp_right List.mem_of_mem_erase

theorem pointer (h : s.InSpace) {out : List Allocation} {a : Allocation} (hinv : AllocInv s out)
    (ha : a ∈ out) (hpos : 0 < a.mr.length) : 0 < a.mr.addr ∧ a.mr.addr < 2 ^ 48 := by
  obtain ⟨-, id, hid, hkey⟩ := hinv.owned a ha
  have hin := hinv.inside ha hid hkey
  have hspace := h id hid
  omega

end Server.InSpace

/-! ## The simulation -/

/-- The table has the allocations of the servers and no others, no write is on its way, and the
regions have the memory of the allocations. -/
structure PoolSim (hash : Int → Nat) (live : Int → Option AddrInfoId) (out : Nat → List Allocation)
    (client : PoolClient) (node : Nat → PoolNode) (regions : Int → Option Region) : Prop where
  table : TableInv hash ⟨client.table, live⟩
  idle : ∀ d p, live d = some p → (client.addrInfo p).writeFlag = false
  alloc : ∀ n, CompleteInv (node n).server (out n)
  space : ∀ n, (node n).server.InSpace
  long : ∀ n, ∀ a ∈ out n, 0 < a.mr.length
  given : ∀ d p, live d = some p → ∃ n, ∃ a ∈ out n,
    d = dhmpTransferDhmpAddr n a.mr.addr ∧ (client.addrInfo p).nvmMr = a.mr
  owned : ∀ n, ∀ a ∈ out n, live (dhmpTransferDhmpAddr n a.mr.addr) ≠ none
  dead : ∀ d, live d = none → regions d = none
  region : ∀ n, ∀ a ∈ out n, ∃ r, regions (dhmpTransferDhmpAddr n a.mr.addr) = some r ∧
    r.size = a.mr.length ∧ ∀ i < r.size, r.data i = (node n).mem (a.mr.addr + i)

/-- Only what is live matters in the table. -/
theorem TableInv.congr {hash : Int → Nat} {s t : AddrState} (h : TableInv hash s)
    (hlive : t.live = s.live) (hht : t.client.addrInfoHt = s.client.addrInfoHt)
    (hinfo : ∀ d p, s.live d = some p → t.client.addrInfo p = s.client.addrInfo p) :
    TableInv hash t := by
  constructor
  · rw [hlive, hht]
    apply h.chained.congr
    intro d p hd
    rw [hinfo d p hd]
  · intro d p hd
    rw [hlive] at hd
    rw [hinfo d p hd]
    exact h.nodeIndex d p hd

namespace PoolSim

variable {hash : Int → Nat} {live : Int → Option AddrInfoId} {out : Nat → List Allocation}
  {client : PoolClient} {node : Nat → PoolNode} {regions : Int → Option Region} {n : Nat}
  {a b : Allocation} {d : Int} {p : AddrInfoId}

theorem sized (h : PoolSim hash live out client node regions) (ha : a ∈ out n) :
    0 < a.mr.addr ∧ a.mr.addr < 2 ^ 48 :=
  (h.space n).pointer (h.alloc n).toAllocInv ha (h.long n a ha)

theorem noClash (h : PoolSim hash live out client node regions)
    (hd : client.Unambiguous hash d) : NoClash hash ⟨client.table, live⟩ d := by
  rintro ⟨d', hlive, hne, hbucket, htag⟩
  obtain ⟨p, hp⟩ := Option.ne_none_iff_exists'.mp hlive
  have hmem : p ∈ client.addrInfoHt (dhmpHashInClient hash d) :=
    (h.table.chained.mem_iff _ p).mpr ⟨d', hp, hbucket⟩
  have haddr := h.table.chained.tag_eq d' p hp
  have hnode := h.table.nodeIndex d' p hp
  have hsame := hd p hmem (haddr.trans htag)
  apply hne
  rw [dhmpAddr_eq d', dhmpAddr_eq d, htag, ← hnode, ← hsame]
  rfl

theorem lookup (h : PoolSim hash live out client node regions) (hd : client.Unambiguous hash d) :
    client.lookup hash d = live d :=
  ((h.table.tableCorrect_iff d).mpr (h.noClash hd)).lookup

/-- Where the allocation of an address is. -/
theorem given_at (h : PoolSim hash live out client node regions) (hp : live d = some p) :
    ∃ a ∈ out (dhmpGetNodeIndexFromAddr d).toNat,
      d = dhmpTransferDhmpAddr (dhmpGetNodeIndexFromAddr d).toNat a.mr.addr ∧
        (client.addrInfo p).nvmMr = a.mr := by
  obtain ⟨n, a, ha, hd, hmr⟩ := h.given d p hp
  have hnode : dhmpGetNodeIndexFromAddr d = n := by
    obtain ⟨-, hlt⟩ := h.sized ha
    rw [hd]
    exact dhmpGetNodeIndexFromAddr_transfer (by omega) (by omega)
  rw [hnode, Int.toNat_natCast]
  exact ⟨a, ha, hd, hmr⟩

/-- An allocation and another one. -/
theorem apart (h : PoolSim hash live out client node regions) (ha : a ∈ out n)
    (hb : b ∈ (out n).erase a) : Apart a.mr.span b.mr.span := by
  have hpair := (h.alloc n).toAllocInv.sound.apart
  rw [(List.perm_cons_erase ha).pairwise_iff fun h => h.symm, List.pairwise_cons] at hpair
  exact hpair.1 b hb

theorem mem_erase_of_ne (ha : b ∈ out n) (hne : b.mr.addr ≠ a.mr.addr) : b ∈ (out n).erase a := by
  apply (List.mem_erase_of_ne _).mpr ha
  rintro rfl
  exact hne rfl

/-- A new element is not in the table. -/
theorem ne_of_live (h : PoolSim hash live out client node regions) {q : AddrInfoId}
    (hnew : ∀ index, p ∉ client.addrInfoHt index) (hq : live d = some q) : q ≠ p := by
  rintro rfl
  exact hnew _ ((h.table.chained.mem_iff _ q).mpr ⟨d, hq, rfl⟩)

theorem mem_update_cons {m : Nat} :
    b ∈ Function.update out n (a :: out n) m ↔ m = n ∧ b = a ∨ b ∈ out m := by
  by_cases hm : m = n
  · subst hm
    simp
  · simp [hm]

theorem mem_update_erase {m : Nat} (hb : b ∈ Function.update out n ((out n).erase a) m) :
    b ∈ out m ∧ (m = n → b ∈ (out n).erase a) := by
  by_cases hm : m = n
  · subst hm
    rw [Function.update_self] at hb
    exact ⟨List.mem_of_mem_erase hb, fun _ => hb⟩
  · rw [Function.update_of_ne hm] at hb
    exact ⟨hb, fun h => absurd h hm⟩

/-- One server changes, but not in its allocations. -/
theorem mem_update {server : Server} {mem : Bytes} {m i : Nat}
    (hmem : ∀ b ∈ out n, ∀ i < b.mr.length, mem (b.mr.addr + i) = (node n).mem (b.mr.addr + i))
    (hb : b ∈ out m) (hi : i < b.mr.length) :
    (Function.update node n ⟨server, mem⟩ m).mem (b.mr.addr + i) =
      (node m).mem (b.mr.addr + i) := by
  by_cases hm : m = n
  · subst hm
    simpa using hmem b hb i hi
  · simp [hm]

theorem space_update {server : Server} {mem : Bytes} (h : ∀ n, (node n).server.InSpace)
    (hspace : server.InSpace) (m : Nat) :
    (Function.update node n ⟨server, mem⟩ m).server.InSpace := by
  by_cases hm : m = n
  · subst hm
    simpa using hspace
  · simpa [hm] using h m

/-- What the allocator hands out is apart from the memory of every allocation. -/
theorem memAfterMalloc (h : PoolSim hash live out client node regions)
    {reg : Option Registration} {server : Server} {res : Option IbvMr} {reqSize : Nat}
    (fresh : ∀ r ∈ reg, r.Fresh (node n).server reqSize)
    (handle : Host.dhmpMallocRequestHandler (node n).server reg reqSize = some (server, res)) :
    CompleteInv server ((res.map fun mr => ⟨mr, reqSize⟩).toList ++ out n) ∧
      ∀ fill pointer, ∀ b ∈ out n, ∀ i < b.mr.length,
        (node n).memAfterMalloc reg res reqSize fill pointer (b.mr.addr + i) =
          (node n).mem (b.mr.addr + i) := by
  obtain ⟨server', res', heq, hinv⟩ := (h.alloc n).malloc fresh
  obtain ⟨rfl, rfl⟩ := Prod.mk.inj (Option.some.inj (heq.symm.trans handle))
  refine ⟨hinv, fun fill pointer b hb i hi => ?_⟩
  have hfill : (node n).memWithArea reg reqSize fill (b.mr.addr + i) =
      (node n).mem (b.mr.addr + i) := by
    cases reg with
    | none => rfl
    | some r =>
      obtain ⟨-, id, hid, hkey⟩ := (h.alloc n).toAllocInv.owned b hb
      have hin := (h.alloc n).toAllocInv.inside hb hid hkey
      have hapart : Apart (r.addr, areaLength reqSize) b.mr.span :=
        ((fresh r rfl id hid).2.2.symm).mono ⟨Nat.le_refl _, Nat.le_refl _⟩ hin
      exact writeBytes_apart hapart ⟨Nat.le_refl _, Nat.le_refl _⟩ hi
  unfold PoolNode.memAfterMalloc
  cases res' with
  | none => exact hfill
  | some mr =>
    have hpair := hinv.toAllocInv.sound.apart
    simp only [Option.map_some, Option.toList_some, List.singleton_append,
      List.pairwise_cons] at hpair
    have hlong := (hinv.toAllocInv.sound.inside ⟨mr, reqSize⟩ (by simp)).1
    exact (snprintf_apart (b := mr.span) (hpair.1 b hb) hlong hi).trans hfill

/-- What the allocator has just handed out has no address of another allocation. -/
theorem distinct (h : PoolSim hash live out client node regions) {mr : IbvMr} {reqSize m : Nat}
    {server : Server} (hinv : CompleteInv server (⟨mr, reqSize⟩ :: out n))
    (hlength : 0 < mr.length) (hhigh : mr.addr < 2 ^ 48) {b : Allocation} (hb : b ∈ out m) :
    dhmpTransferDhmpAddr m b.mr.addr ≠ dhmpTransferDhmpAddr n mr.addr := by
  intro heq
  obtain ⟨rfl, hsame⟩ := dhmpTransferDhmpAddr_inj (h.sized hb).2 hhigh heq
  have hpair := hinv.toAllocInv.sound.apart
  rw [List.pairwise_cons] at hpair
  have hlen := h.long _ _ hb
  have := hpair.1 b hb
  simp only [Apart, IbvMr.span] at this
  omega

theorem live_eq_none (h : PoolSim hash live out client node regions)
    (hd : ∀ m, ∀ b ∈ out m, dhmpTransferDhmpAddr m b.mr.addr ≠ d) : live d = none := by
  by_contra hne
  obtain ⟨q, hq⟩ := Option.ne_none_iff_exists'.mp hne
  obtain ⟨m, b, hb, heq, -⟩ := h.given d q hq
  exact hd m b hb heq.symm

theorem table_malloc (h : PoolSim hash live out client node regions) {mr : IbvMr}
    (hnew : ∀ index, p ∉ client.addrInfoHt index) (hn : n < dhmpServerNodeNum)
    (hinfo : (client.addrInfo p).nvmMr = mr) (hpointer : 0 < mr.addr ∧ mr.addr < 2 ^ 48)
    (hd : client.Unambiguous hash (dhmpTransferDhmpAddr n mr.addr))
    (hlive : live (dhmpTransferDhmpAddr n mr.addr) = none) :
    TableInv hash ⟨(client.dhmpMallocWorkDone hash n p).1.table,
      Function.update live (dhmpTransferDhmpAddr n mr.addr) (some p)⟩ := by
  have hreply : AddrStep hash ⟨client.table, live⟩ (.malloc n mr.addr)
      (AddrState.reply hash ⟨client.table, live⟩ n p mr.addr) :=
    .malloc hn (by omega) hnew hlive
  have ok : AddrOp.Allowed hash ⟨client.table, live⟩ (.malloc n mr.addr) := h.noClash hd
  have hnull := Nat.ne_of_gt hpointer.1
  rw [PoolClient.dhmpMallocWorkDone_given hn hinfo hpointer]
  refine TableInv.congr (h.table.step ok hreply) rfl ?_ fun d' q hq => ?_
  · simp [AddrState.reply, dhmpMallocWorkHandler, dhmpAddrInfoInsertHt, PoolClient.table, hnull]
  · simp only [AddrState.reply, dhmpMallocWorkHandler, dhmpAddrInfoInsertHt, PoolClient.table]
    by_cases hqp : q = p
    · subst hqp
      simp [hnull]
    · simp [hqp, hnull]

/-- An allocation that the allocator has just made gets into the table. -/
theorem malloc (h : PoolSim hash live out client node regions) {mr : IbvMr} {reqSize : Nat}
    {server : Server} {mem : Bytes} (hnew : ∀ index, p ∉ client.addrInfoHt index)
    (hn : n < dhmpServerNodeNum) (hlength : 0 < mr.length)
    (hinfo : (client.addrInfo p).nvmMr = mr)
    (hinv : CompleteInv server (⟨mr, reqSize⟩ :: out n)) (hspace : server.InSpace)
    (hmem : ∀ b ∈ out n, ∀ i < b.mr.length, mem (b.mr.addr + i) = (node n).mem (b.mr.addr + i))
    (hd : client.Unambiguous hash (dhmpTransferDhmpAddr n mr.addr)) :
    live (dhmpTransferDhmpAddr n mr.addr) = none ∧
      PoolSim hash (Function.update live (dhmpTransferDhmpAddr n mr.addr) (some p))
        (Function.update out n (⟨mr, reqSize⟩ :: out n)) (client.dhmpMallocWorkDone hash n p).1
        (Function.update node n ⟨server, mem⟩)
        (Function.update regions (dhmpTransferDhmpAddr n mr.addr)
          (some ⟨mr.length, fun i => mem (mr.addr + i)⟩)) := by
  have pointer : 0 < mr.addr ∧ mr.addr < 2 ^ 48 :=
    hspace.pointer hinv.toAllocInv List.mem_cons_self hlength
  have hdistinct : ∀ m, ∀ b ∈ out m,
      dhmpTransferDhmpAddr m b.mr.addr ≠ dhmpTransferDhmpAddr n mr.addr :=
    fun _ _ hb => h.distinct hinv hlength pointer.2 hb
  have hlive := h.live_eq_none hdistinct
  have htable := h.table_malloc hnew hn hinfo pointer hd hlive
  rw [PoolClient.dhmpMallocWorkDone_given hn hinfo pointer] at htable ⊢
  refine ⟨hlive, htable, fun d' q hq => ?_, fun m => ?_, space_update h.space hspace,
    fun m b hb => ?_, fun d' q hq => ?_, fun m b hb => ?_, fun d' hd' => ?_, fun m b hb => ?_⟩
  · dsimp only
    by_cases heq : d' = dhmpTransferDhmpAddr n mr.addr
    · subst heq
      rw [Function.update_self, Option.some.injEq] at hq
      subst hq
      rw [Function.update_self]
    · rw [Function.update_of_ne heq] at hq
      rw [Function.update_of_ne (h.ne_of_live hnew hq)]
      exact h.idle d' q hq
  · by_cases hm : m = n
    · subst hm
      simpa using hinv
    · simpa [hm] using h.alloc m
  · rcases mem_update_cons.mp hb with ⟨rfl, rfl⟩ | hb
    · exact hlength
    · exact h.long m b hb
  · dsimp only
    by_cases heq : d' = dhmpTransferDhmpAddr n mr.addr
    · subst heq
      rw [Function.update_self, Option.some.injEq] at hq
      subst hq
      exact ⟨n, ⟨mr, reqSize⟩, mem_update_cons.mpr (.inl ⟨rfl, rfl⟩), rfl, by simp⟩
    · rw [Function.update_of_ne heq] at hq
      rw [Function.update_of_ne (h.ne_of_live hnew hq)]
      obtain ⟨m, b, hb, hd', hmr⟩ := h.given d' q hq
      exact ⟨m, b, mem_update_cons.mpr (.inr hb), hd', hmr⟩
  · rcases mem_update_cons.mp hb with ⟨rfl, rfl⟩ | hb
    · simp
    · rw [Function.update_of_ne (hdistinct m b hb)]
      exact h.owned m b hb
  · by_cases heq : d' = dhmpTransferDhmpAddr n mr.addr
    · simp [heq] at hd'
    · rw [Function.update_of_ne heq] at hd' ⊢
      exact h.dead d' hd'
  · rcases mem_update_cons.mp hb with ⟨rfl, rfl⟩ | hb
    · exact ⟨_, Function.update_self .., rfl, fun i _ => by simp⟩
    · obtain ⟨r, hr, hsize, hdata⟩ := h.region m b hb
      refine ⟨r, by rw [Function.update_of_ne (hdistinct m b hb), hr], hsize, fun i hi => ?_⟩
      rw [mem_update hmem hb (hsize ▸ hi)]
      exact hdata i hi

/-! ### A region goes -/

theorem free (h : PoolSim hash live out client node regions) {server : Server}
    {client' : PoolClient} (hnull : d ≠ 0) (htrans : HasTrans d)
    (hd : client.Unambiguous hash d) (hp : live d = some p) (ha : a ∈ out n)
    (hda : d = dhmpTransferDhmpAddr n a.mr.addr)
    (hinv : CompleteInv server ((out n).erase a)) (hspace : server.InSpace)
    (hht : client'.addrInfoHt = (client.dhmpFreeWorkPost hash d).1.addrInfoHt)
    (hinfo : ∀ q, q ≠ p → client'.addrInfo q = client.addrInfo q) :
    PoolSim hash (Function.update live d none) (Function.update out n ((out n).erase a)) client'
      (Function.update node n ⟨server, (node n).mem⟩) (Function.update regions d none) := by
  have hlookup : client.lookup hash d = some p := (h.lookup hd).trans hp
  have hhandler : dhmpFreeWorkHandler hash client.table d = { client.table with
      addrInfoHt := (client.dhmpFreeWorkPost hash d).1.addrInfoHt } := by
    have hget : dhmpGetAddrInfoFromHt client.table (dhmpHashInClient hash d) d = some p := hlookup
    simp only [dhmpFreeWorkHandler, PoolClient.dhmpFreeWorkPost, hget, hlookup]
    rfl
  have hlive : ∀ d' q, Function.update live d none d' = some q → live d' = some q ∧ d' ≠ d := by
    intro d' q hq
    by_cases heq : d' = d
    · simp [heq] at hq
    · exact ⟨by simpa [heq] using hq, heq⟩
  have hout : ∀ d' q, Function.update live d none d' = some q → q ≠ p := by
    rintro d' q hq rfl
    obtain ⟨hq, hne⟩ := hlive d' q hq
    exact hne (h.table.chained.injective d' d q hq hp)
  -- what is still out has another address
  have hdistinct : ∀ m, ∀ b ∈ Function.update out n ((out n).erase a) m,
      dhmpTransferDhmpAddr m b.mr.addr ≠ d := by
    intro m b hb heq
    obtain ⟨hmem, herase⟩ := mem_update_erase hb
    obtain ⟨rfl, haddr⟩ := dhmpTransferDhmpAddr_inj (h.sized hmem).2 (h.sized ha).2
      (heq.trans hda)
    have hlen' := h.long _ _ hmem
    have hapart := h.apart ha (herase rfl)
    have hlen := h.long _ _ ha
    simp only [Apart, IbvMr.span] at hapart
    omega
  refine ⟨?_, fun d' q hq => ?_, fun m => ?_, space_update h.space hspace, fun m b hb => ?_,
    fun d' q hq => ?_, fun m b hb => ?_, fun d' hd' => ?_, fun m b hb => ?_⟩
  · have hfree : AddrStep hash ⟨client.table, live⟩ (.free d)
        ⟨dhmpFreeWorkHandler hash client.table d, Function.update live d none⟩ :=
      .free hnull htrans
    have ok : AddrOp.Allowed hash ⟨client.table, live⟩ (.free d) := h.noClash hd
    have hstep := h.table.step ok hfree
    refine TableInv.congr hstep rfl ?_ fun d' q hq => ?_
    · rw [hhandler]
      exact hht
    · rw [hhandler]
      simp only [PoolClient.table, hinfo q (hout d' q hq)]
  · obtain ⟨hq', -⟩ := hlive d' q hq
    rw [hinfo q (hout d' q hq)]
    exact h.idle d' q hq'
  · by_cases hm : m = n
    · subst hm
      simpa using hinv
    · simpa [hm] using h.alloc m
  · exact h.long m b (mem_update_erase hb).1
  · obtain ⟨hq', hne⟩ := hlive d' q hq
    obtain ⟨m, b, hb, hd', hmr⟩ := h.given d' q hq'
    refine ⟨m, b, ?_, hd', by rw [hinfo q (hout d' q hq), hmr]⟩
    by_cases hm : m = n
    · subst hm
      rw [Function.update_self]
      apply mem_erase_of_ne hb
      intro heq
      exact hne (by rw [hd', hda, heq])
    · simpa [hm] using hb
  · rw [Function.update_of_ne (hdistinct m b hb)]
    exact h.owned m b (mem_update_erase hb).1
  · by_cases heq : d' = d
    · simp [heq]
    · rw [Function.update_of_ne heq] at hd' ⊢
      exact h.dead d' hd'
  · obtain ⟨r, hr, hsize, hdata⟩ := h.region m b (mem_update_erase hb).1
    refine ⟨r, by rw [Function.update_of_ne (hdistinct m b hb), hr], hsize, fun i hi => ?_⟩
    rw [mem_update (fun _ _ _ _ => rfl) (mem_update_erase hb).1 (hsize ▸ hi)]
    exact hdata i hi

/-! ### A region is written -/

theorem write (h : PoolSim hash live out client node regions) {r : Region} (buf : Bytes)
    {length offset : Nat} (ha : a ∈ out n) (hda : d = dhmpTransferDhmpAddr n a.mr.addr)
    (hr : regions d = some r) (hsize : r.size = a.mr.length)
    (hdata : ∀ i < r.size, r.data i = (node n).mem (a.mr.addr + i))
    (hinside : offset + length ≤ a.mr.length) :
    PoolSim hash live out client
      (Function.update node n
        { node n with mem := writeBytes (node n).mem (a.mr.addr + offset) length buf })
      (Function.update regions d
        (some { r with data := writeBytes r.data offset length buf })) := by
  refine { h with
    alloc := fun m => ?_, space := space_update h.space (h.space n), dead := fun d' hd' => ?_,
    region := fun m b hb => ?_ }
  · by_cases hm : m = n
    · subst hm
      simpa using h.alloc m
    · simpa [hm] using h.alloc m
  · have hne : d' ≠ d := by
      rintro rfl
      simp [h.dead d' hd'] at hr
    rw [Function.update_of_ne hne]
    exact h.dead d' hd'
  · by_cases heq : dhmpTransferDhmpAddr m b.mr.addr = d
    · obtain ⟨rfl, haddr⟩ := dhmpTransferDhmpAddr_inj (h.sized hb).2 (h.sized ha).2
        (heq.trans hda)
      obtain ⟨r', hr', hsize', -⟩ := h.region m b hb
      obtain rfl : r' = r := Option.some.inj (hr'.symm.trans (heq ▸ hr))
      refine ⟨{ r' with data := writeBytes r'.data offset length buf },
        by rw [heq, Function.update_self], hsize', fun i hi => ?_⟩
      rw [Function.update_self, haddr]
      unfold writeBytes
      dsimp only
      by_cases hi' : offset ≤ i ∧ i < offset + length
      · rw [if_pos hi', if_pos (by omega)]
        congr 1
        omega
      · rw [if_neg hi', if_neg (by omega)]
        exact hdata i hi
    · obtain ⟨r', hr', hsize', hdata'⟩ := h.region m b hb
      refine ⟨r', by rw [Function.update_of_ne heq, hr'], hsize', fun i hi => ?_⟩
      rw [hdata' i hi]
      by_cases hm : m = n
      · subst hm
        rw [Function.update_self]
        have hne : b.mr.addr ≠ a.mr.addr := by
          intro hab
          exact heq (by rw [hda, hab])
        have hapart := h.apart ha (mem_erase_of_ne hb hne)
        have hi' : i < b.mr.length := hsize' ▸ hi
        symm
        apply writeBytes_apart hapart _ hi'
        simp only [IbvMr.span]
        omega
      · rw [Function.update_of_ne hm]

end PoolSim

end DhmpFs
