import DhmpFs.Remote.Servers

/-!
# The bank cache

The client caches whole banks, direct mapped by the low bits of the bank's number. A slot of
`cache_hash` and the block it points to both carry the label. The parts of the operations that
one thread performs at once are definitions of their own: the comparison of a label, the copy,
and what stands between the lock and the unlock of `rewrite_lock`.

Left out: the locks themselves, and the list `cache_head`, which nothing walks.

## Main definitions

* `Client`: the cache and the servers behind it.
* `tryVisitCache`, `expelCacheRewrite`, `rewriteDirtyCache`: visit, eviction, one flush pass.
* `dhmpFsReadFromCache`, `dhmpFsWriteToCache`: the two calls of the file system.
-/

namespace DhmpFs

abbrev cacheSizeByte : Nat := 1024 * 1024 * 512
abbrev cacheSize : Nat := cacheSizeByte / bankSize

/-- A cached bank, `cache_DRAM`. -/
structure CacheDram where
  data : Bytes
  bankId : Nat
  dirty : Bool

/-- A slot of `cache_hash`: `cachePtr` is the number of a block. -/
structure CacheSlot where
  bankId : Nat
  cachePtr : Nat

structure Client where
  cacheHash : Nat → CacheSlot
  caches : Nat → CacheDram
  remote : Remote

/-- The slot of a bank. -/
def cacheKey (bankId : Nat) : Nat := bankId &&& (cacheSize - 1)

/-- The `type` of a visit: 1 reads the cache, 2 writes it. -/
inductive VisitType where
  | read
  | write
  deriving DecidableEq, Repr

/-- What the remote calls of an eviction meet. -/
structure ExpelEnv where
  write : WriteEnv
  read : ReadEnv

namespace Client

def cachePtr (c : Client) (bankId : Nat) : Nat := (c.cacheHash (cacheKey bankId)).cachePtr

/-- The block behind the slot of a bank, whatever its label. -/
def cacheOf (c : Client) (bankId : Nat) : CacheDram := c.caches (c.cachePtr bankId)

def setCache (c : Client) (ptr : Nat) (cache : CacheDram) : Client :=
  { c with caches := Function.update c.caches ptr cache }

/-- The comparison of `try_visit_cache`. -/
def hits (c : Client) (bankId : Nat) : Bool := (c.cacheHash (cacheKey bankId)).bankId = bankId

/-- The copy of `try_visit_cache`: the buffer changes, or the cache does. -/
def copy (c : Client) (bankId : Nat) (buf : Bytes) (size offset : Nat) : VisitType → Client × Bytes
  | .read => (c, readBytes (c.cacheOf bankId).data offset size buf)
  | .write =>
    let cache := c.cacheOf bankId
    let data := writeBytes cache.data offset size buf
    (c.setCache (c.cachePtr bankId) { cache with data := data, dirty := true }, buf)

/-- `try_visit_cache`, the buffer after it, and whether it was a hit. -/
def tryVisitCache (c : Client) (bankId : Nat) (buf : Bytes) (size offset : Nat) (type : VisitType) :
    Client × Bytes × Bool :=
  if c.hits bankId then
    let (c, buf) := c.copy bankId buf size offset type
    (c, buf, true)
  else (c, buf, false)

/-- A critical section of `rewrite_dirty_cache`: the slot is written to the servers. -/
def flush (c : Client) (env : WriteEnv) (i : Nat) : Option Client :=
  let ptr := (c.cacheHash i).cachePtr
  let cache := c.caches ptr
  (dhmpFsWriteToRemote c.remote env cache.bankId cache.data bankSize 0).map fun remote =>
    { c with remote := remote }.setCache ptr { cache with dirty := false }

def isDirty (c : Client) (i : Nat) : Bool := (c.caches (c.cacheHash i).cachePtr).dirty

/-- The slots of a pass of `rewrite_dirty_cache`; no other thread holds a lock. -/
def rewriteSlots (env : Nat → WriteEnv) : List Nat → Client → Option Client
  | [], c => some c
  | i :: rest, c =>
    (if c.isDirty i then c.flush (env i) i else some c).bind fun c => rewriteSlots env rest c

/-- One pass of `rewrite_dirty_cache`. -/
def rewriteDirtyCache (c : Client) (env : Nat → WriteEnv) : Option Client :=
  rewriteSlots env (List.range cacheSize) c

/-- The early exit of `expel_cache_rewrite`. -/
def isResident (c : Client) (newBankId : Nat) : Bool := (c.cacheOf newBankId).bankId = newBankId

/-- The critical section of `expel_cache_rewrite`: write back, change the labels, refill. -/
def evict (c : Client) (env : ExpelEnv) (newBankId : Nat) : Option Client :=
  let ptr := c.cachePtr newBankId
  let cache := c.caches ptr
  let wrote :=
    if cache.dirty then
      dhmpFsWriteToRemote c.remote env.write cache.bankId cache.data bankSize 0
    else some c.remote
  wrote.bind fun remote =>
    let key := cacheKey cache.bankId
    let slot := { c.cacheHash key with bankId := newBankId }
    (dhmpFsReadFromRemote remote env.read newBankId cache.data bankSize 0).map fun (remote, data) =>
      { cacheHash := Function.update c.cacheHash key slot
        caches := Function.update c.caches ptr ⟨data, newBankId, false⟩
        remote := remote }

def expelCacheRewrite (c : Client) (env : ExpelEnv) (newBankId : Nat) : Option Client :=
  if c.isResident newBankId then some c else c.evict env newBankId

/-- `dhmp_fs_read_from_cache` and the buffer after it. -/
def dhmpFsReadFromCache (c : Client) (env : ExpelEnv) (bankId : Nat) (buf : Bytes)
    (size offset : Nat) : Option (Client × Bytes) :=
  match c.tryVisitCache bankId buf size offset .read with
  | (c, buf, true) => some (c, buf)
  | (c, buf, false) => (c.expelCacheRewrite env bankId).map fun c =>
    let (c, buf, _) := c.tryVisitCache bankId buf size offset .read
    (c, buf)

/-- `dhmp_fs_write_to_cache` and the caller's buffer after it. The second visit reads. -/
def dhmpFsWriteToCache (c : Client) (env : ExpelEnv) (bankId : Nat) (buf : Bytes)
    (size offset : Nat) : Option (Client × Bytes) :=
  match c.tryVisitCache bankId buf size offset .write with
  | (c, buf, true) => some (c, buf)
  | (c, buf, false) => (c.expelCacheRewrite env bankId).map fun c =>
    let (c, buf, _) := c.tryVisitCache bankId buf size offset .read
    (c, buf)

end Client

/-- The client after `dhmp_init`: slot `i` is labelled with bank `i` and holds zeros. -/
def initClient (serverNum : Nat) (bank : Nat → Nat → Bytes) : Client where
  cacheHash i := ⟨i, i⟩
  caches i := ⟨fun _ => 0, i, false⟩
  remote := initRemote serverNum bank

/-! ## Labels -/

theorem cacheKey_eq (bankId : Nat) : cacheKey bankId = bankId % cacheSize :=
  Nat.and_two_pow_sub_one_eq_mod bankId 7

theorem cacheKey_lt (bankId : Nat) : cacheKey bankId < cacheSize := by
  rw [cacheKey_eq]
  exact Nat.mod_lt _ (by decide)

/-- The cache is direct mapped: a slot and its block carry the same label, that of a bank of
this slot. -/
structure Direct (c : Client) : Prop where
  cachePtr : ∀ i < cacheSize, (c.cacheHash i).cachePtr = i
  tag : ∀ i < cacheSize, (c.cacheHash i).bankId = (c.caches i).bankId
  key : ∀ i < cacheSize, cacheKey (c.caches i).bankId = i

section labels

variable {c c' : Client} {b size offset : Nat} {buf : Bytes}

theorem direct_initClient (serverNum : Nat) (bank : Nat → Nat → Bytes) :
    Direct (initClient serverNum bank) where
  cachePtr _ _ := rfl
  tag _ _ := rfl
  key i hi := by
    rw [cacheKey_eq]
    exact Nat.mod_eq_of_lt hi

theorem Direct.cachePtr_eq (h : Direct c) (b : Nat) : c.cachePtr b = cacheKey b :=
  h.cachePtr _ (cacheKey_lt b)

theorem Direct.cacheOf_eq (h : Direct c) (b : Nat) : c.cacheOf b = c.caches (cacheKey b) := by
  rw [Client.cacheOf, h.cachePtr_eq]

/-- The two labels of a slot are asked alike. -/
theorem Direct.hits_eq (h : Direct c) (b : Nat) : c.hits b = c.isResident b := by
  simp [Client.hits, Client.isResident, h.cacheOf_eq, h.tag _ (cacheKey_lt b)]

theorem Direct.hits_iff (h : Direct c) :
    c.hits b = true ↔ (c.caches (cacheKey b)).bankId = b := by
  simp [h.hits_eq, Client.isResident, h.cacheOf_eq]

/-- Data and dirty bit do not matter to the labels. -/
theorem Direct.congr (h : Direct c) (hhash : c'.cacheHash = c.cacheHash)
    (hbank : ∀ i, (c'.caches i).bankId = (c.caches i).bankId) : Direct c' where
  cachePtr i hi := hhash ▸ h.cachePtr i hi
  tag i hi := by rw [hhash, hbank]; exact h.tag i hi
  key i hi := by rw [hbank]; exact h.key i hi

end labels

end DhmpFs
