import DhmpFs.Client.AddrTable
import DhmpFs.Lists.ListHead

/-!
# The hash table of the client in memory

A bucket is an `hlist_head`, a single pointer; an entry has the pointer to the next one and the
address of the pointer that points to it. The client with these links does what the client with
chains does.

## Main definitions

* `HlistLinks`: the memory of the heads and nodes.
* `HlistClient`: the client with its table in memory.
* `HlistAgrees`: the two clients.
-/

namespace DhmpFs

open Library

/-- The address of a `struct hlist_node *`: in a head, in a node, or `LIST_POISON2`. -/
inductive HlistPlace where
  | first (head : Nat)
  | next (node : AddrInfoId)
  | poison
  deriving DecidableEq

/-- `NULL` is `none`. -/
structure HlistLinks where
  at' : HlistPlace → Option AddrInfoId
  pprev : AddrInfoId → HlistPlace

namespace HlistLinks

/-- `*place = value` -/
def setAt (h : HlistLinks) (place : HlistPlace) (value : Option AddrInfoId) : HlistLinks :=
  { h with at' := Function.update h.at' place value }

def setPprev (h : HlistLinks) (node : AddrInfoId) (place : HlistPlace) : HlistLinks :=
  { h with pprev := Function.update h.pprev node place }

/-- `if (node) node->pprev = place` -/
def setPprevOf (h : HlistLinks) (node : Option AddrInfoId) (place : HlistPlace) : HlistLinks :=
  node.elim h fun node => h.setPprev node place

/-- `INIT_HLIST_HEAD` of every head. -/
def init (pprev : AddrInfoId → HlistPlace) : HlistLinks := ⟨fun _ => none, pprev⟩

def hlistEmpty (h : HlistLinks) (head : Nat) : Bool := (h.at' (.first head)).isNone

def hlistAddHead (h : HlistLinks) (n : AddrInfoId) (head : Nat) : HlistLinks :=
  let first := h.at' (.first head)
  (((h.setAt (.next n) first).setPprevOf first (.next n)).setAt (.first head) (some n)).setPprev n
    (.first head)

/-- `__hlist_del` -/
def hlistDelNode (h : HlistLinks) (n : AddrInfoId) : HlistLinks :=
  let next := h.at' (.next n)
  let pprev := h.pprev n
  (h.setAt pprev next).setPprevOf next pprev

def hlistDel (h : HlistLinks) (n : AddrInfoId) : HlistLinks :=
  ((h.hlistDelNode n).setAt (.next n) (some listPoison1)).setPprev n .poison

/-- The loop `hlist_for_each_entry` that breaks at the first entry with `cond`, from the pointer at
a place; `none` if it takes more steps. -/
def hlistForEachEntry (h : HlistLinks) (cond : AddrInfoId → Bool) :
    Nat → Option AddrInfoId → Option (Option AddrInfoId)
  | 0, _ => none
  | _ + 1, none => some none
  | fuel + 1, some pos =>
    if cond pos then some (some pos) else hlistForEachEntry h cond fuel (h.at' (.next pos))

theorem hlistForEachEntry_add {h : HlistLinks} {cond : AddrInfoId → Bool} {fuel : Nat}
    {pos result : Option AddrInfoId} (hrun : h.hlistForEachEntry cond fuel pos = some result)
    (more : Nat) : h.hlistForEachEntry cond (fuel + more) pos = some result := by
  induction fuel generalizing pos with
  | zero => simp [hlistForEachEntry] at hrun
  | succ fuel ih =>
    rw [Nat.succ_add]
    cases pos with
    | none => exact hrun
    | some x =>
      by_cases hcond : cond x
      · simpa [hlistForEachEntry, hcond] using hrun
      · have hrest : h.hlistForEachEntry cond fuel (h.at' (.next x)) = some result := by
          simpa [hlistForEachEntry, hcond] using hrun
        simpa [hlistForEachEntry, hcond] using ih hrest

/-! ### Links after an operation -/

section

variable (h : HlistLinks) {n x y : AddrInfoId} {head : Nat} {place : HlistPlace}

theorem hlistAddHead_at (hfirst : place ≠ .first head) (hnext : place ≠ .next n) :
    (h.hlistAddHead n head).at' place = h.at' place := by
  cases hf : h.at' (.first head) <;>
    simp [hlistAddHead, setAt, setPprev, setPprevOf, hf, hfirst, hnext]

theorem hlistAddHead_at_first : (h.hlistAddHead n head).at' (.first head) = some n := by
  cases hf : h.at' (.first head) <;> simp [hlistAddHead, setAt, setPprev, setPprevOf, hf]

theorem hlistAddHead_at_next : (h.hlistAddHead n head).at' (.next n) = h.at' (.first head) := by
  cases hf : h.at' (.first head) <;> simp [hlistAddHead, setAt, setPprev, setPprevOf, hf]

theorem hlistAddHead_pprev (hn : x ≠ n) (hx : h.at' (.first head) ≠ some x) :
    (h.hlistAddHead n head).pprev x = h.pprev x := by
  cases hf : h.at' (.first head) with
  | none => simp [hlistAddHead, setAt, setPprev, setPprevOf, hf, hn]
  | some y =>
    have hxy : x ≠ y := fun heq => hx (heq ▸ hf)
    simp [hlistAddHead, setAt, setPprev, setPprevOf, hf, hn, hxy]

theorem hlistAddHead_pprev_new : (h.hlistAddHead n head).pprev n = .first head := by
  simp [hlistAddHead, setAt, setPprev]

theorem hlistAddHead_pprev_first (hn : x ≠ n) (hx : h.at' (.first head) = some x) :
    (h.hlistAddHead n head).pprev x = .next n := by
  simp [hlistAddHead, setAt, setPprev, setPprevOf, hx, hn]

theorem hlistDel_at (hprev : place ≠ h.pprev n) (hnext : place ≠ .next n) :
    (h.hlistDel n).at' place = h.at' place := by
  cases hf : h.at' (.next n) <;>
    simp [hlistDel, hlistDelNode, setAt, setPprev, setPprevOf, hf, hprev, hnext]

theorem hlistDel_at_pprev (hne : h.pprev n ≠ .next n) :
    (h.hlistDel n).at' (h.pprev n) = h.at' (.next n) := by
  cases hf : h.at' (.next n) <;>
    simp [hlistDel, hlistDelNode, setAt, setPprev, setPprevOf, hf, hne]

theorem hlistDel_pprev (hn : x ≠ n) (hx : h.at' (.next n) ≠ some x) :
    (h.hlistDel n).pprev x = h.pprev x := by
  cases hf : h.at' (.next n) with
  | none => simp [hlistDel, hlistDelNode, setAt, setPprev, setPprevOf, hf, hn]
  | some y =>
    have hxy : x ≠ y := fun heq => hx (heq ▸ hf)
    simp [hlistDel, hlistDelNode, setAt, setPprev, setPprevOf, hf, hn, hxy]

theorem hlistDel_pprev_next (hn : x ≠ n) (hx : h.at' (.next n) = some x) :
    (h.hlistDel n).pprev x = h.pprev n := by
  simp [hlistDel, hlistDelNode, setAt, setPprev, setPprevOf, hx, hn]

end

/-! ### Chains -/

/-- From a place on the entries of `l` follow, and then `NULL`. -/
def Chain (h : HlistLinks) (place : HlistPlace) : List AddrInfoId → Prop
  | [] => h.at' place = none
  | x :: l => h.at' place = some x ∧ h.pprev x = place ∧ h.Chain (.next x) l

namespace Chain

variable {h h' : HlistLinks} {place : HlistPlace} {l : List AddrInfoId} {n x y : AddrInfoId}
  {head : Nat}

theorem congr (hc : h.Chain place l) (hplace : h'.at' place = h.at' place)
    (hsame : ∀ x ∈ l, h'.at' (.next x) = h.at' (.next x) ∧ h'.pprev x = h.pprev x) :
    h'.Chain place l := by
  induction l generalizing place with
  | nil => exact hplace.trans hc
  | cons x l ih =>
    obtain ⟨hx, hp, hc⟩ := hc
    obtain ⟨hx', hp'⟩ := hsame x (by simp)
    exact ⟨hplace.trans hx, hp'.trans hp, ih hc hx' fun y hy => hsame y (by simp [hy])⟩

theorem at_eq (hc : h.Chain place l) : h.at' place = l.head? := by
  cases l with
  | nil => exact hc
  | cons x l => exact hc.1

/-- The pointer to an entry is in the place before the chain or in another entry. -/
theorem pprev_cases (hc : h.Chain place l) (hn : n ∈ l) :
    h.pprev n = place ∨ ∃ y ∈ l, h.pprev n = .next y := by
  induction l generalizing place with
  | nil => simp at hn
  | cons x l ih =>
    obtain ⟨hx, hp, hc⟩ := hc
    rcases List.mem_cons.mp hn with rfl | hn
    · exact .inl hp
    · rcases ih hc hn with hprev | ⟨y, hy, hprev⟩
      · exact .inr ⟨x, by simp, hprev⟩
      · exact .inr ⟨y, by simp [hy], hprev⟩

theorem next_mem (hc : h.Chain place l) (hn : n ∈ l) (hy : h.at' (.next n) = some y) :
    y ∈ l := by
  induction l generalizing place with
  | nil => simp at hn
  | cons x l ih =>
    obtain ⟨hx, -, hc⟩ := hc
    rcases List.mem_cons.mp hn with rfl | hn
    · have hhead := hc.at_eq.symm.trans hy
      exact List.mem_cons_of_mem n (List.mem_of_mem_head? hhead)
    · exact List.mem_cons_of_mem x (ih hc hn)

theorem find (hc : h.Chain place l) (cond : AddrInfoId → Bool) {fuel : Nat}
    (hfuel : l.length < fuel) :
    h.hlistForEachEntry cond fuel (h.at' place) = some (l.find? cond) := by
  induction l generalizing place fuel with
  | nil =>
    obtain ⟨k, rfl⟩ := Nat.exists_eq_add_of_lt hfuel
    have hnone : h.at' place = none := hc
    simp [hnone, hlistForEachEntry]
  | cons x l ih =>
    obtain ⟨k, rfl⟩ : ∃ k, fuel = k + 1 := ⟨fuel - 1, by omega⟩
    obtain ⟨hx, -, hc⟩ := hc
    have hrest := ih hc (show l.length < k by simpa using hfuel)
    by_cases hcond : cond x
    · simp [hx, hlistForEachEntry, hcond]
    · simp [hx, hlistForEachEntry, hcond, hrest]

theorem addHead (hc : h.Chain (.first head) l) (hn : n ∉ l) (hnodup : l.Nodup) :
    (h.hlistAddHead n head).Chain (.first head) (n :: l) := by
  refine ⟨h.hlistAddHead_at_first, h.hlistAddHead_pprev_new, ?_⟩
  cases l with
  | nil => exact h.hlistAddHead_at_next.trans hc
  | cons x l =>
    obtain ⟨hx, -, hc⟩ := hc
    have hxn : x ≠ n := by
      rintro rfl
      exact hn List.mem_cons_self
    refine ⟨h.hlistAddHead_at_next.trans hx, h.hlistAddHead_pprev_first hxn hx, ?_⟩
    apply hc.congr
    · exact h.hlistAddHead_at (by simp) (by simpa using hxn)
    · intro y hy
      have hyn : y ≠ n := by
        rintro rfl
        exact hn (List.mem_cons_of_mem x hy)
      have hyx : x ≠ y := by
        rintro rfl
        exact (List.nodup_cons.mp hnodup).1 hy
      exact ⟨h.hlistAddHead_at (by simp) (by simpa using hyn),
        h.hlistAddHead_pprev hyn (by simpa [hx] using hyx)⟩

/-- A chain at another head stays. -/
theorem addHead_other (hc : h.Chain (.first head) l) {other : Nat} {l' : List AddrInfoId}
    (hother : h.Chain (.first other) l') (hne : other ≠ head) (hn : n ∉ l')
    (hdisj : l.Disjoint l') : (h.hlistAddHead n head).Chain (.first other) l' := by
  apply hother.congr
  · exact h.hlistAddHead_at (by simpa using hne) (by simp)
  · intro x hx
    have hxn : x ≠ n := by
      rintro rfl
      exact hn hx
    refine ⟨h.hlistAddHead_at (by simp) (by simpa using hxn), h.hlistAddHead_pprev hxn ?_⟩
    intro hfirst
    rw [hc.at_eq] at hfirst
    exact hdisj (List.mem_of_mem_head? hfirst) hx

theorem del (hc : h.Chain place l) (hplace : ∀ x ∈ l, place ≠ .next x) (hnodup : l.Nodup)
    (hn : n ∈ l) : (h.hlistDel n).Chain place (l.erase n) := by
  induction l generalizing place with
  | nil => simp at hn
  | cons x l ih =>
    obtain ⟨hx, hp, hc⟩ := hc
    obtain ⟨hxl, hnodup⟩ := List.nodup_cons.mp hnodup
    by_cases heq : x = n
    · subst heq
      subst hp
      have hself : h.pprev x ≠ .next x := hplace x List.mem_cons_self
      rw [List.erase_cons_head]
      cases l with
      | nil => exact (h.hlistDel_at_pprev hself).trans hc
      | cons y l =>
        obtain ⟨hy, -, hc⟩ := hc
        have hyx : y ≠ x := by
          rintro rfl
          exact hxl List.mem_cons_self
        refine ⟨(h.hlistDel_at_pprev hself).trans hy, h.hlistDel_pprev_next hyx hy, ?_⟩
        -- the place before `x` is none of the entries after it
        apply hc.congr
        · exact h.hlistDel_at (hplace y (by simp)).symm (by simpa using hyx)
        · intro z hz
          have hzx : z ≠ x := by
            rintro rfl
            exact hxl (List.mem_cons_of_mem y hz)
          have hzy : y ≠ z := by
            rintro rfl
            exact (List.nodup_cons.mp hnodup).1 hz
          exact ⟨h.hlistDel_at (hplace z (by simp [hz])).symm (by simpa using hzx),
            h.hlistDel_pprev hzx (by simpa [hy] using hzy)⟩
    · have hn : n ∈ l := by grind
      have hnext : h.at' (.next n) ≠ some x := fun hnx => hxl (hc.next_mem hn hnx)
      rw [List.erase_cons_tail (by simpa using heq)]
      refine ⟨?_, (h.hlistDel_pprev heq hnext).trans hp, ?_⟩
      · refine (h.hlistDel_at ?_ (hplace n (by simp [hn]))).trans hx
        intro hprev
        rcases hc.pprev_cases hn with hpx | ⟨y, hy, hpy⟩
        · exact hplace x List.mem_cons_self (hprev.trans hpx)
        · exact hplace y (by simp [hy]) (hprev.trans hpy)
      · apply ih hc _ hnodup hn
        intro z hz hzx
        obtain rfl : x = z := by simpa using hzx
        exact hxl hz

theorem del_other (hc : h.Chain (.first head) l) (hn : n ∈ l) {other : Nat}
    {l' : List AddrInfoId} (hother : h.Chain (.first other) l') (hne : other ≠ head)
    (hdisj : l.Disjoint l') : (h.hlistDel n).Chain (.first other) l' := by
  have hprev := hc.pprev_cases hn
  apply hother.congr
  · refine h.hlistDel_at ?_ (by simp)
    rcases hprev with hp | ⟨y, hy, hp⟩ <;> simp [hp, hne]
  · intro x hx
    have hxn : x ≠ n := by
      rintro rfl
      exact hdisj hn hx
    refine ⟨h.hlistDel_at ?_ (by simpa using hxn), h.hlistDel_pprev hxn ?_⟩
    · rcases hprev with hp | ⟨y, hy, hp⟩
      · simp [hp]
      · rw [hp]
        intro hxy
        obtain rfl : x = y := by simpa using hxy
        exact hdisj hy hx
    · exact fun hnx => hdisj (hc.next_mem hn hnx) hx

end Chain

end HlistLinks

/-! ## The client -/

/-- `client` with the links of its hash table: the head `index` is `addr_info_ht[index]`, the node
of an entry is its `addr_entry`. -/
structure HlistClient where
  links : HlistLinks
  addrInfo : AddrInfoId → AddrInfo

namespace HlistClient

variable (hash : Int → Nat)

def dhmpAddrInfoInsertHt (client : HlistClient) (dhmpAddr : Int) (addrInfo : AddrInfoId) :
    HlistClient :=
  let index := dhmpHashInClient hash dhmpAddr
  { client with links := client.links.hlistAddHead addrInfo index }

/-- `none` if the loop takes more steps. -/
def dhmpGetAddrInfoFromHt (client : HlistClient) (fuel index : Nat) (dhmpAddr : Int) :
    Option (Option AddrInfoId) :=
  if client.links.hlistEmpty index then some none
  else
    let normalAddr := dhmpTransferNormalAddr dhmpAddr
    client.links.hlistForEachEntry (fun addrInfo => (client.addrInfo addrInfo).nvmAddr = normalAddr)
      fuel (client.links.at' (.first index))

def dhmpMallocWorkHandler (client : HlistClient) (rdmaTrans : Nat) (addrInfo : AddrInfoId)
    (addr : Int) : HlistClient × Int :=
  if addr = 0 then (client, 0)
  else
    let resAddr := dhmpTransferDhmpAddr rdmaTrans addr
    let client := { client with
      addrInfo := Function.update client.addrInfo addrInfo
        ⟨dhmpGetNodeIndexFromAddr resAddr, addr⟩ }
    (dhmpAddrInfoInsertHt hash client resAddr addrInfo, resAddr)

/-- The client, and the `dhmp_addr_info` that is released. -/
def dhmpFreeWorkHandler (client : HlistClient) (fuel : Nat) (dhmpAddr : Int) :
    Option (HlistClient × Option AddrInfoId) :=
  let index := dhmpHashInClient hash dhmpAddr
  (dhmpGetAddrInfoFromHt client fuel index dhmpAddr).map fun found =>
    (found.elim client fun addrInfo => { client with links := client.links.hlistDel addrInfo },
      found)

end HlistClient

/-- The client, the `dhmp_addr_info`s that are allocated, and what was allocated at an address and
not freed since. -/
structure HlistState where
  client : HlistClient
  allocated : AddrInfoId → Prop
  live : Int → Option AddrInfoId

/-- `dhmp_client_init` -/
def HlistState.start (pprev : AddrInfoId → HlistPlace) : HlistState where
  client := ⟨.init pprev, fun _ => ⟨0, 0⟩⟩
  allocated _ := False
  live _ := none

/-- The server `node` has answered with the region at `addr`. -/
def HlistState.reply (hash : Int → Nat) (s : HlistState) (node : Nat) (addrInfo : AddrInfoId)
    (addr : Int) : HlistState where
  client := (s.client.dhmpMallocWorkHandler hash node addrInfo addr).1
  allocated p := p = addrInfo ∨ s.allocated p
  live := Function.update s.live (dhmpTransferDhmpAddr node addr) (some addrInfo)

/-- The calls of `AddrStep`. `malloc` gives none of the entries that are allocated. -/
inductive HlistStep (hash : Int → Nat) (s : HlistState) : AddrOp → HlistState → Prop
  | malloc {node : Nat} {addr : Int} {addrInfo : AddrInfoId} (server : node < dhmpServerNodeNum)
    (pointer : 0 < addr ∧ addr < 2 ^ 48) (fresh : ¬ s.allocated addrInfo)
    (distinct : s.live (dhmpTransferDhmpAddr node addr) = none) :
    HlistStep hash s (.malloc node addr) (s.reply hash node addrInfo addr)
  | free {dhmpAddr : Int} {fuel : Nat} {client : HlistClient} {freed : Option AddrInfoId}
    (null : dhmpAddr ≠ 0)
    (trans : 0 ≤ dhmpGetNodeIndexFromAddr dhmpAddr ∧
      dhmpGetNodeIndexFromAddr dhmpAddr < dhmpServerNodeNum)
    (returned : s.client.dhmpFreeWorkHandler hash fuel dhmpAddr = some (client, freed)) :
    HlistStep hash s (.free dhmpAddr)
      { client := client
        allocated p := freed ≠ some p ∧ s.allocated p
        live := Function.update s.live dhmpAddr none }

/-- Every bucket is the chain of the other client, and no entry is in two. -/
structure HlistAgrees (c : HlistState) (s : AddrState) : Prop where
  addrInfo : c.client.addrInfo = s.client.addrInfo
  live : c.live = s.live
  allocated : ∀ p, c.allocated p ↔ ∃ index, p ∈ s.client.addrInfoHt index
  chain : ∀ index, c.client.links.Chain (.first index) (s.client.addrInfoHt index)
  nodup : ∀ index, (s.client.addrInfoHt index).Nodup
  apart : ∀ i j, i ≠ j → (s.client.addrInfoHt i).Disjoint (s.client.addrInfoHt j)

namespace HlistAgrees

variable {hash : Int → Nat} {c c' : HlistState} {s : AddrState} {op : AddrOp}

theorem start (pprev : AddrInfoId → HlistPlace) : HlistAgrees (.start pprev) .start := by
  constructor <;> simp [HlistState.start, AddrState.start, HlistLinks.init, HlistLinks.Chain]

/-- The loop ends, and with the entry that is found in the chain. -/
theorem lookup (agree : HlistAgrees c s) {fuel index : Nat} (dhmpAddr : Int)
    (hfuel : (s.client.addrInfoHt index).length < fuel) :
    c.client.dhmpGetAddrInfoFromHt fuel index dhmpAddr =
      some (dhmpGetAddrInfoFromHt s.client index dhmpAddr) := by
  have hchain := agree.chain index
  unfold HlistClient.dhmpGetAddrInfoFromHt dhmpGetAddrInfoFromHt HlistLinks.hlistEmpty
  rw [hchain.at_eq, agree.addrInfo]
  cases hl : s.client.addrInfoHt index with
  | nil => simp
  | cons x l =>
    have hfind := hchain.find
      (fun addrInfo => (s.client.addrInfo addrInfo).nvmAddr = dhmpTransferNormalAddr dhmpAddr) hfuel
    rw [hchain.at_eq, hl] at hfind
    simpa using hfind

/-- Whatever number of steps the loop was allowed, it ended with the entry in the chain. -/
theorem lookup_of_returned (agree : HlistAgrees c s) {fuel index : Nat} {dhmpAddr : Int}
    {found : Option AddrInfoId}
    (hret : c.client.dhmpGetAddrInfoFromHt fuel index dhmpAddr = some found) :
    found = dhmpGetAddrInfoFromHt s.client index dhmpAddr := by
  have hmore : c.client.dhmpGetAddrInfoFromHt
      (fuel + ((s.client.addrInfoHt index).length + 1)) index dhmpAddr = some found := by
    unfold HlistClient.dhmpGetAddrInfoFromHt at hret ⊢
    by_cases hempty : c.client.links.hlistEmpty index
    · rw [if_pos hempty] at hret ⊢
      exact hret
    · rw [if_neg hempty] at hret ⊢
      exact HlistLinks.hlistForEachEntry_add hret _
  rw [agree.lookup dhmpAddr (by omega)] at hmore
  exact (Option.some.inj hmore).symm

theorem malloc (agree : HlistAgrees c s) {node : Nat} {addrInfo : AddrInfoId} {addr : Int}
    (fresh : ¬ c.allocated addrInfo) (hne : addr ≠ 0) :
    HlistAgrees (c.reply hash node addrInfo addr) (s.reply hash node addrInfo addr) := by
  have hnew : ∀ index, addrInfo ∉ s.client.addrInfoHt index := fun index hmem =>
    fresh ((agree.allocated addrInfo).mpr ⟨index, hmem⟩)
  simp only [AddrState.reply, DhmpFs.dhmpMallocWorkHandler, DhmpFs.dhmpAddrInfoInsertHt,
    HlistState.reply, HlistClient.dhmpMallocWorkHandler, HlistClient.dhmpAddrInfoInsertHt, hne,
    if_false]
  generalize dhmpHashInClient hash (dhmpTransferDhmpAddr node addr) = bucket
  constructor
  · simp [agree.addrInfo]
  · simp [agree.live]
  · intro p
    constructor
    · rintro (rfl | hp)
      · exact ⟨bucket, by simp⟩
      · obtain ⟨index, hmem⟩ := (agree.allocated p).mp hp
        refine ⟨index, ?_⟩
        by_cases hindex : index = bucket
        · subst hindex
          simp [hmem]
        · simpa [hindex] using hmem
    · rintro ⟨index, hmem⟩
      by_cases hindex : index = bucket
      · subst hindex
        rcases (by simpa using hmem : p = addrInfo ∨ p ∈ s.client.addrInfoHt index) with hp | hp
        · exact .inl hp
        · exact .inr ((agree.allocated p).mpr ⟨index, hp⟩)
      · exact .inr ((agree.allocated p).mpr ⟨index, by simpa [hindex] using hmem⟩)
  · intro index
    by_cases hindex : index = bucket
    · subst hindex
      simpa using (agree.chain index).addHead (hnew index) (agree.nodup index)
    · simpa [hindex] using (agree.chain bucket).addHead_other (agree.chain index) hindex
        (hnew index) (agree.apart bucket index (Ne.symm hindex))
  · intro index
    by_cases hindex : index = bucket
    · subst hindex
      simpa using ⟨hnew index, agree.nodup index⟩
    · simpa [hindex] using agree.nodup index
  · intro i j hij
    by_cases hi : i = bucket
    · subst hi
      simpa [Ne.symm hij] using ⟨hnew j, agree.apart i j hij⟩
    · by_cases hj : j = bucket
      · subst hj
        simpa [hi] using ⟨hnew i, agree.apart i j hij⟩
      · simpa [hi, hj] using agree.apart i j hij

/-- The entry that is found leaves its chain, and the others stay in theirs. -/
theorem free (agree : HlistAgrees c s) {fuel : Nat} {dhmpAddr : Int} {client : HlistClient}
    {freed : Option AddrInfoId}
    (returned : c.client.dhmpFreeWorkHandler hash fuel dhmpAddr = some (client, freed)) :
    HlistAgrees
      { client := client
        allocated := fun p => freed ≠ some p ∧ c.allocated p
        live := Function.update c.live dhmpAddr none }
      { client := DhmpFs.dhmpFreeWorkHandler hash s.client dhmpAddr
        live := Function.update s.live dhmpAddr none } := by
  unfold HlistClient.dhmpFreeWorkHandler at returned
  unfold DhmpFs.dhmpFreeWorkHandler
  dsimp only at returned ⊢
  generalize dhmpHashInClient hash dhmpAddr = bucket at returned ⊢
  obtain ⟨found, hret, heq⟩ := Option.map_eq_some_iff.mp returned
  obtain ⟨rfl, rfl⟩ : _ ∧ found = freed := by simpa using heq
  have hfound := agree.lookup_of_returned hret
  rw [← hfound]
  cases found with
  | none => exact { agree with
      live := by rw [agree.live]
      allocated := by simpa using agree.allocated }
  | some addrInfo =>
    have hmem : addrInfo ∈ s.client.addrInfoHt bucket := List.mem_of_find?_eq_some hfound.symm
    dsimp only [Option.elim_some]
    have hnodup := agree.nodup bucket
    have herase : ∀ p, p ∈ (s.client.addrInfoHt bucket).erase addrInfo ↔
        p ≠ addrInfo ∧ p ∈ s.client.addrInfoHt bucket := fun p => hnodup.mem_erase_iff
    constructor
    · simp [agree.addrInfo]
    · simp [agree.live]
    · intro p
      constructor
      · rintro ⟨hne, hp⟩
        obtain ⟨index, hin⟩ := (agree.allocated p).mp hp
        refine ⟨index, ?_⟩
        by_cases hindex : index = bucket
        · subst hindex
          simpa [herase] using ⟨fun heq => hne (by rw [heq]), hin⟩
        · simpa [hindex] using hin
      · rintro ⟨index, hin⟩
        by_cases hindex : index = bucket
        · subst hindex
          have hin : p ≠ addrInfo ∧ p ∈ s.client.addrInfoHt index := by simpa [herase] using hin
          exact ⟨fun heq => hin.1 (Option.some.inj heq).symm, (agree.allocated p).mpr ⟨_, hin.2⟩⟩
        · have hin : p ∈ s.client.addrInfoHt index := by simpa [hindex] using hin
          refine ⟨?_, (agree.allocated p).mpr ⟨index, hin⟩⟩
          intro heq
          obtain rfl : addrInfo = p := by simpa using heq
          exact agree.apart index bucket hindex hin hmem
    · intro index
      by_cases hindex : index = bucket
      · subst hindex
        simpa using (agree.chain index).del (by simp) hnodup hmem
      · simpa [hindex] using (agree.chain bucket).del_other hmem (agree.chain index) hindex
          (agree.apart bucket index (Ne.symm hindex))
    · intro index
      by_cases hindex : index = bucket
      · subst hindex
        simpa using hnodup.erase addrInfo
      · simpa [hindex] using agree.nodup index
    · intro i j hij
      by_cases hi : i = bucket
      · subst hi
        simpa [Ne.symm hij] using
          List.disjoint_of_subset_left List.erase_subset (agree.apart i j hij)
      · by_cases hj : j = bucket
        · subst hj
          simpa [hi] using List.disjoint_of_subset_right List.erase_subset (agree.apart i j hij)
        · simpa [hi, hj] using agree.apart i j hij

theorem step (agree : HlistAgrees c s) (hs : HlistStep hash c op c') :
    ∃ s', AddrStep hash s op s' ∧ HlistAgrees c' s' := by
  cases hs with
  | @malloc node addr addrInfo server pointer fresh distinct =>
    refine ⟨s.reply hash node addrInfo addr, ?_, agree.malloc fresh (by omega)⟩
    apply AddrStep.malloc server pointer
    · exact fun index hmem => fresh ((agree.allocated addrInfo).mpr ⟨index, hmem⟩)
    · rw [← agree.live]
      exact distinct
  | free null trans returned => exact ⟨_, .free null trans, agree.free returned⟩

end HlistAgrees

/-- A lookup and a free come to an end, with the entry that the chains have first for the
address. -/
structure HlistServes (hash : Int → Nat) (c : HlistState) (s : AddrState) : Prop where
  lookup : ∀ dhmpAddr index fuel, (s.client.addrInfoHt index).length < fuel →
    c.client.dhmpGetAddrInfoFromHt fuel index dhmpAddr =
      some (dhmpGetAddrInfoFromHt s.client index dhmpAddr)
  free : ∀ dhmpAddr fuel,
    (s.client.addrInfoHt (dhmpHashInClient hash dhmpAddr)).length < fuel →
    ∃ client, c.client.dhmpFreeWorkHandler hash fuel dhmpAddr = some (client,
      dhmpGetAddrInfoFromHt s.client (dhmpHashInClient hash dhmpAddr) dhmpAddr)

theorem HlistAgrees.serves {c : HlistState} {s : AddrState} (agree : HlistAgrees c s)
    (hash : Int → Nat) : HlistServes hash c s := by
  constructor
  · exact fun dhmpAddr index fuel hfuel => agree.lookup dhmpAddr hfuel
  · intro dhmpAddr fuel hfuel
    unfold HlistClient.dhmpFreeWorkHandler
    simp only [agree.lookup dhmpAddr hfuel, Option.map_some]
    exact ⟨_, rfl⟩

/-- In every run, the table in memory is the table of chains after the same run: its loops come to
an end, what they find is what the chains have, and no entry is lost or left behind. -/
theorem hlistClient_run {hash : Int → Nat} {pprev : AddrInfoId → HlistPlace} {ops : List AddrOp}
    {c : HlistState} (run : Run (HlistStep hash) (.start pprev) ops c) :
    ∃ s, Run (AddrStep hash) .start ops s ∧ HlistAgrees c s ∧ HlistServes hash c s := by
  have hsim : ∃ s, Run (AddrStep hash) .start ops s ∧ HlistAgrees c s := by
    apply run.history (fun ops c => ∃ s, Run (AddrStep hash) .start ops s ∧ HlistAgrees c s)
    · exact ⟨.start, .refl _, .start pprev⟩
    · rintro ops c op c' ⟨s, hrun, agree⟩ hs
      obtain ⟨s', hs', agree'⟩ := agree.step hs
      exact ⟨s', .snoc hrun hs', agree'⟩
  obtain ⟨s, hrun, agree⟩ := hsim
  exact ⟨s, hrun, agree, agree.serves hash⟩

/-- Two entries in one bucket, and then one is freed. -/
theorem hlistClient_run_free : ∃ c s,
    Run (HlistStep hashAddr) (.start fun _ => .poison)
      [.malloc 0 0x7f0071cec000, .malloc 1 0x7f0071cec000, .free 0x7f0071cec000] c ∧
    HlistAgrees c s ∧ HlistServes hashAddr c s := by
  have hne : dhmpTransferDhmpAddr 1 0x7f0071cec000 ≠ dhmpTransferDhmpAddr 0 0x7f0071cec000 := by
    decide
  have step1 := @HlistStep.malloc hashAddr (.start fun _ => .poison) 0 0x7f0071cec000 7 (by decide)
    (by decide) id rfl
  have hnew : ¬ (8 = 7 ∨ False) := by decide
  have step2 := @HlistStep.malloc hashAddr
    ((HlistState.start fun _ => .poison).reply hashAddr 0 7 0x7f0071cec000) 1 0x7f0071cec000 8
    (by decide) (by decide) hnew (Function.update_of_ne hne (some 7) fun _ => none)
  have run := Run.cons step1 (.single step2)
  obtain ⟨s, -, -, serves⟩ := hlistClient_run run
  obtain ⟨client, returned⟩ := serves.free 0x7f0071cec000 _ (Nat.lt_succ_self _)
  have run3 := run.snoc (.free (by decide) (by decide) returned)
  obtain ⟨s3, -, agree, serves3⟩ := hlistClient_run run3
  exact ⟨_, s3, run3, agree, serves3⟩

end DhmpFs
