import DhmpFs.Client.AddrTable

/-!
# The codec of global addresses

A global address is a `long long`: the number of a server above the 48 bits of an address on it.
The encoder finds the number by looking the transport up in `connect_trans`, and leaves an address
on server 0 as it is; the decoders shift the number out again.

Here the values are words of 64 bits. As integers they are those of the address table.

## Main definitions

* `ConnectTrans`: `connect_trans`, whose transports are distinct.
* `ConnectTrans.dhmpTransferDhmpAddr`: the encoder on words.
-/

namespace DhmpFs

/-! ## Transports -/

/-- The address of a `dhmp_transport`. -/
abbrev TransId := Nat

/-- `connect_trans`, where `none` is `NULL`. Every transport in it is an allocation of its own;
`fresh` is the next address that `malloc` returns. -/
structure ConnectTrans where
  trans : Nat → Option TransId
  fresh : TransId
  below : ∀ i t, trans i = some t → t < fresh
  distinct : ∀ i j t, trans i = some t → trans j = some t → i = j

namespace ConnectTrans

/-- The `memset` of `dhmp_client_init`. -/
def null : ConnectTrans where
  trans _ := none
  fresh := 0
  below := by simp
  distinct := by simp

/-- `connect_trans[i]=dhmp_transport_create(..)`, which fails unless `ok`. -/
def create (c : ConnectTrans) (i : Nat) (ok : Bool) : ConnectTrans where
  trans := Function.update c.trans i (if ok then some c.fresh else none)
  fresh := c.fresh + 1
  below j t hj := by
    rcases eq_or_ne j i with rfl | hne
    · cases ok with
      | false => simp at hj
      | true => exact (by simpa using hj : c.fresh = t) ▸ Nat.lt_succ_self _
    · exact Nat.lt_succ_of_lt (c.below j t (by simpa [hne] using hj))
  distinct j k t hj hk := by
    have hold : ∀ l, l ≠ i →
        Function.update c.trans i (if ok then some c.fresh else none) l = some t →
        c.trans l = some t := fun l hl h => by simpa [hl] using h
    have hnew : Function.update c.trans i (if ok then some c.fresh else none) i = some t →
        t = c.fresh := by
      cases ok <;> simp [eq_comm]
    by_cases hji : j = i <;> by_cases hki : k = i
    · exact hji.trans hki.symm
    · exact absurd (hnew (hji ▸ hj)) (Nat.ne_of_lt (c.below k t (hold k hki hk)))
    · exact absurd (hnew (hki ▸ hk)) (Nat.ne_of_lt (c.below j t (hold j hji hj)))
    · exact c.distinct j k t (hold j hji hj) (hold k hki hk)

/-- The transports that `dhmp_client_init` connects to. -/
def dhmpClientInit (netsCnt : Nat) (ok : Nat → Bool) : ConnectTrans :=
  (List.range netsCnt).foldl (fun c i => c.create i (ok i)) null

end ConnectTrans

/-! ## Encoder and decoders -/

/-- The search of `dhmp_transfer_dhmp_addr`, when `n` indices are left from `index` on. -/
def ConnectTrans.indexFrom (c : ConnectTrans) (rdmaTrans : TransId) : Nat → Nat → Nat
  | 0, index => index
  | n + 1, index =>
    if c.trans index = some rdmaTrans then index else c.indexFrom rdmaTrans n (index + 1)

/-- `dhmp_transfer_dhmp_addr` -/
def ConnectTrans.dhmpTransferDhmpAddr (c : ConnectTrans) (rdmaTrans : TransId)
    (normalAddr : BitVec 64) : BitVec 64 :=
  let index := c.indexFrom rdmaTrans dhmpServerNodeNum 0
  let nodeIndex := BitVec.ofNat 64 index
  if nodeIndex = 0 then normalAddr
  else
    let nodeIndex := nodeIndex <<< 48
    normalAddr + nodeIndex

namespace Word

/-- `dhmp_get_node_index_from_addr`: the result is an `int`. -/
def dhmpGetNodeIndexFromAddr (dhmpAddr : BitVec 64) : BitVec 32 :=
  (dhmpAddr.sshiftRight 48).setWidth 32

/-- `dhmp_transfer_normal_addr` -/
def dhmpTransferNormalAddr (dhmpAddr : BitVec 64) : BitVec 64 :=
  let nodeIndex := dhmpAddr.sshiftRight 48
  let nodeIndex := nodeIndex <<< 48
  dhmpAddr - nodeIndex

end Word

/-- `dhmp_get_trans_from_addr`; outside of the array the read is undefined. -/
def ConnectTrans.dhmpGetTransFromAddr (c : ConnectTrans) (dhmpAddr : BitVec 64) :
    Option (Option TransId) :=
  let nodeIndex := (dhmpAddr.sshiftRight 48).toInt
  if 0 ≤ nodeIndex ∧ nodeIndex < dhmpServerNodeNum then some (c.trans nodeIndex.toNat) else none

/-! ## Words and integers -/

theorem toInt_nodeIndex (d : BitVec 64) :
    (d.sshiftRight 48).toInt = dhmpGetNodeIndexFromAddr d.toInt := by
  rw [BitVec.toInt_sshiftRight, Int.shiftRight_eq_div_pow]
  rfl

/-- Signed and unsigned, a word differs by a multiple of `2 ^ 64`. -/
theorem dvd_toNat_sub_toInt (x : BitVec 64) : (2 ^ 64 : Int) ∣ x.toNat - x.toInt := by
  rw [BitVec.toInt_eq_toNat_cond]
  split
  · simp
  · exact ⟨1, by omega⟩

/-- The `int` holds every node number. -/
theorem toInt_getNodeIndexFromAddr (d : BitVec 64) :
    (Word.dhmpGetNodeIndexFromAddr d).toInt = dhmpGetNodeIndexFromAddr d.toInt := by
  have hlow := BitVec.le_toInt d
  have hhigh := BitVec.toInt_lt (x := d)
  have hdiv := toInt_nodeIndex d
  obtain ⟨k, hk⟩ := dvd_toNat_sub_toInt (d.sshiftRight 48)
  rw [← hdiv, Word.dhmpGetNodeIndexFromAddr, BitVec.toInt_setWidth, Int.bmod_eq_iff (by decide)]
  rw [dhmpGetNodeIndexFromAddr] at hdiv
  refine ⟨by omega, by omega, -k * 2 ^ 32, by omega⟩

theorem toInt_transferNormalAddr (d : BitVec 64) :
    (Word.dhmpTransferNormalAddr d).toInt = dhmpTransferNormalAddr d.toInt := by
  have hdiv : (d.sshiftRight 48).toInt = d.toInt / 2 ^ 48 := toInt_nodeIndex d
  obtain ⟨k, hk⟩ := dvd_toNat_sub_toInt (d.sshiftRight 48)
  rw [Word.dhmpTransferNormalAddr, dhmpTransferNormalAddr, ← hdiv, BitVec.toInt_sub,
    BitVec.toInt_shiftLeft, Int.sub_bmod_bmod, Int.bmod_eq_iff (by decide)]
  refine ⟨by omega, by omega, k * 2 ^ 48, ?_⟩
  rw [Nat.shiftLeft_eq]
  omega

/-! ## The search for a transport -/

namespace ConnectTrans

variable {c : ConnectTrans} {t : TransId} {n : Nat}

/-- The search finds the only index of a transport. -/
theorem indexFrom_eq (ht : c.trans n = some t) {m index : Nat} (hle : index ≤ n)
    (hlt : n < index + m) : c.indexFrom t m index = n := by
  induction m generalizing index with
  | zero => omega
  | succ m ih =>
    rw [indexFrom]
    split
    · next hindex => exact c.distinct index n t hindex ht
    · next hindex =>
      have hne : index ≠ n := fun heq => hindex (heq ▸ ht)
      exact ih (by omega) (by omega)

theorem toInt_transferDhmpAddr (hn : n < dhmpServerNodeNum) (ht : c.trans n = some t)
    {a : BitVec 64} (ha : a.toNat < 2 ^ 48) :
    (c.dhmpTransferDhmpAddr t a).toInt = DhmpFs.dhmpTransferDhmpAddr n a.toInt := by
  have hindex : c.indexFrom t dhmpServerNodeNum 0 = n :=
    indexFrom_eq ht (Nat.zero_le n) (by omega)
  have haddr : a.toInt = a.toNat := BitVec.toInt_eq_toNat_of_lt (by omega)
  have hthree : n < 3 := hn
  have hzero : BitVec.ofNat 64 n = 0 ↔ n = 0 := by
    rw [← BitVec.toNat_inj, BitVec.toNat_ofNat]
    change n % 2 ^ 64 = 0 ↔ n = 0
    omega
  rw [dhmpTransferDhmpAddr, DhmpFs.dhmpTransferDhmpAddr, hindex]
  simp only [hzero]
  split
  · rfl
  · have hsum : (a + BitVec.ofNat 64 n <<< 48).toNat = a.toNat + n * 2 ^ 48 := by
      rw [BitVec.toNat_add, BitVec.toNat_shiftLeft, BitVec.toNat_ofNat, Nat.shiftLeft_eq]
      omega
    rw [BitVec.toInt_eq_toNat_of_lt (by omega), hsum, haddr]
    omega

/-- What the decoders make of an encoded address. -/
theorem decode (hn : n < dhmpServerNodeNum) (ht : c.trans n = some t) {a : BitVec 64}
    (ha : a.toNat < 2 ^ 48) :
    Word.dhmpTransferNormalAddr (c.dhmpTransferDhmpAddr t a) = a ∧
      (Word.dhmpGetNodeIndexFromAddr (c.dhmpTransferDhmpAddr t a)).toInt = n ∧
      c.dhmpGetTransFromAddr (c.dhmpTransferDhmpAddr t a) = some (some t) := by
  have haddr : a.toInt = a.toNat := BitVec.toInt_eq_toNat_of_lt (by omega)
  have hnonneg : 0 ≤ a.toInt := by omega
  have hlt : a.toInt < 2 ^ 48 := by omega
  have hnode : dhmpGetNodeIndexFromAddr (DhmpFs.dhmpTransferDhmpAddr n a.toInt) = n :=
    dhmpGetNodeIndexFromAddr_transfer hnonneg hlt
  refine ⟨?_, ?_, ?_⟩
  · apply BitVec.toInt_inj.mp
    rw [toInt_transferNormalAddr, toInt_transferDhmpAddr hn ht ha,
      dhmpTransferNormalAddr_transfer hnonneg hlt]
  · rw [toInt_getNodeIndexFromAddr, toInt_transferDhmpAddr hn ht ha, hnode]
  · rw [dhmpGetTransFromAddr, toInt_nodeIndex, toInt_transferDhmpAddr hn ht ha, hnode]
    simp only [Int.toNat_natCast, ht]
    exact if_pos ⟨by omega, by omega⟩

end ConnectTrans

/-- For every transport in `connect_trans` and every 48-bit address on its server, the decoders
give back the address, the number of the server and the transport, and no other pair of a server
and an address has the same code. -/
theorem addr_codec {c : ConnectTrans} {n : Nat} {t : TransId} (hn : n < dhmpServerNodeNum)
    (ht : c.trans n = some t) {a : BitVec 64} (ha : a.toNat < 2 ^ 48) :
    Word.dhmpTransferNormalAddr (c.dhmpTransferDhmpAddr t a) = a ∧
      (Word.dhmpGetNodeIndexFromAddr (c.dhmpTransferDhmpAddr t a)).toInt = n ∧
      c.dhmpGetTransFromAddr (c.dhmpTransferDhmpAddr t a) = some (some t) ∧
      ∀ m u, m < dhmpServerNodeNum → c.trans m = some u → ∀ b : BitVec 64, b.toNat < 2 ^ 48 →
        c.dhmpTransferDhmpAddr u b = c.dhmpTransferDhmpAddr t a → m = n ∧ b = a := by
  obtain ⟨haddr, hnode, htrans⟩ := ConnectTrans.decode hn ht ha
  refine ⟨haddr, hnode, htrans, fun m u hm hu b hb heq => ?_⟩
  obtain ⟨haddr', hnode', -⟩ := ConnectTrans.decode hm hu hb
  rw [heq] at haddr' hnode'
  exact ⟨Int.ofNat_inj.mp (hnode'.symm.trans hnode), haddr'.symm.trans haddr⟩

/-- The last address of server 1, with a transport to each of two servers. -/
theorem addr_codec_last :
    ∃ (c : ConnectTrans) (code : BitVec 64), c = .dhmpClientInit 2 (fun _ => true) ∧
      code = c.dhmpTransferDhmpAddr 1 0xffffffffffff ∧ code = 0x1ffffffffffff ∧
      Word.dhmpTransferNormalAddr code = 0xffffffffffff ∧
      (Word.dhmpGetNodeIndexFromAddr code).toInt = 1 ∧
      c.dhmpGetTransFromAddr code = some (some 1) ∧
      ∀ m u, m < dhmpServerNodeNum → c.trans m = some u → ∀ b : BitVec 64, b.toNat < 2 ^ 48 →
        c.dhmpTransferDhmpAddr u b = code → m = 1 ∧ b = 0xffffffffffff := by
  obtain ⟨haddr, hnode, htrans, hinj⟩ := @addr_codec (.dhmpClientInit 2 fun _ => true) 1 1
    (by decide) (by decide) 0xffffffffffff (by decide)
  exact ⟨_, _, rfl, rfl, by decide, haddr, hnode, htrans, hinj⟩

end DhmpFs
