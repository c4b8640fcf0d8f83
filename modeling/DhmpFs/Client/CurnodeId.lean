import DhmpFs.HashMap.Basic

/-!
# The search for the identity of a server

`dhmp_set_curnode_id` asks the kernel for the network interfaces and looks for a configured
server whose address one of them has. The interfaces are scanned once for each server, for its
`nic_name`, with one pointer `ifr` that no scan sets back: after a hit it stays on the interface
found, and after a scan without one it has moved on by the number of interfaces.

## Main definitions

* `dhmpSetCurnodeId`: the search, with the indices it inspects.
* `FindsServer`: what the search is for.
* `Misses`: scans that find interfaces of no configured server.
-/

namespace DhmpFs

/-- `IFF_UP`. -/
abbrev iffUp : UInt16 := 0x1

/-- `IFF_LOOPBACK`. -/
abbrev iffLoopback : UInt16 := 0x8

/-- `BUFSIZ`, the size of the buffer for the interfaces. -/
abbrev bufsiz : Nat := 8192

/-- `sizeof(struct ifreq)`. -/
abbrev sizeofIfreq : Nat := 40

/-- The bytes of an IPv4 address, the first one first. -/
structure InAddr where
  b0 : UInt8
  b1 : UInt8
  b2 : UInt8
  b3 : UInt8
  deriving DecidableEq, Repr

/-- `%d` of a byte. -/
def decimal (b : UInt8) : Str := (Nat.toDigits 10 b.toNat).map fun c => UInt8.ofNat c.toNat

/-- `inet_ntoa`, where 46 is the dot. -/
def inetNtoa (a : InAddr) : Str :=
  decimal a.b0 ++ 46 :: decimal a.b1 ++ 46 :: decimal a.b2 ++ 46 :: decimal a.b3

/-- An interface with the flags that `SIOCGIFFLAGS` stores, which leave the address alone. -/
structure Ifreq where
  ifrName : Str
  sinAddr : InAddr
  ifrFlags : UInt16
  deriving DecidableEq, Repr

/-- `struct dhmp_net_info`. -/
structure DhmpNetInfo where
  nicName : Str
  addr : Str
  deriving DecidableEq, Repr

/-- The test of the inner loop. -/
def Ifreq.accepts (ifr : Ifreq) (nicName : Str) : Bool :=
  ifr.ifrFlags &&& iffLoopback == 0 && ifr.ifrFlags &&& iffUp != 0 && ifr.ifrName == nicName

/-- What a scan leaves behind: the pointer `ifr`, the address found (`none` is `i == dev_num`) and
the indices it has inspected. -/
structure Scan where
  ifr : Nat
  addr : Option Str
  inspected : List Nat

/-- The inner loop, with `n` rounds to go and `ifr` at index `p`. -/
def scanDevices (ifcReq : Nat → Ifreq) (nicName : Str) : Nat → Nat → Scan
  | 0, p => ⟨p, none, []⟩
  | n + 1, p =>
    if (ifcReq p).accepts nicName then ⟨p, some (inetNtoa (ifcReq p).sinAddr), [p]⟩
    else
      let r := scanDevices ifcReq nicName n (p + 1)
      { r with inspected := p :: r.inspected }

/-- The outcome of the search: `curnet_id`, where `none` is `exit(-1)`. -/
structure CurnodeSearch where
  curnetId : Option Nat
  inspected : List Nat

/-- The outer loop over the servers that are left. -/
def searchServers (ifcReq : Nat → Ifreq) (devNum : Nat) (netInfos : List DhmpNetInfo) :
    List DhmpNetInfo → Nat → CurnodeSearch
  | [], _ => ⟨none, []⟩
  | info :: rest, p =>
    let r := scanDevices ifcReq info.nicName devNum p
    match r.addr.bind fun addr => netInfos.findIdx? fun net => net.addr == addr with
    | some i => ⟨some i, r.inspected⟩
    | none =>
      let next := searchServers ifcReq devNum netInfos rest r.ifr
      { next with inspected := r.inspected ++ next.inspected }

/-- The interfaces that `SIOCGIFCONF` stores: as many as fit into the buffer. -/
def reported (interfaces : List Ifreq) : List Ifreq := interfaces.take (bufsiz / sizeofIfreq)

/-- `conf.ifc_req` as an array: the interfaces, and behind them whatever memory holds. -/
def ifcReq (behind : Nat → Ifreq) (ifs : List Ifreq) (p : Nat) : Ifreq := ifs[p]?.getD (behind p)

def dhmpSetCurnodeId (behind : Nat → Ifreq) (interfaces : List Ifreq)
    (netInfos : List DhmpNetInfo) : CurnodeSearch :=
  searchServers (ifcReq behind (reported interfaces)) (reported interfaces).length netInfos
    netInfos 0

/-! ## What the search is for -/

/-- Server `i` has the address of an up, non-loopback interface that some server names. -/
def Usable (interfaces : List Ifreq) (netInfos : List DhmpNetInfo) (i : Nat) : Prop :=
  ∃ net, netInfos[i]? = some net ∧ ∃ ifr ∈ interfaces, ∃ info ∈ netInfos,
    ifr.accepts info.nicName ∧ net.addr = inetNtoa ifr.sinAddr

/-- A search stays in the list of `devNum` interfaces, finds a usable server, and exits only when
there is none. -/
structure Finds (devNum : Nat) (usable : Nat → Prop) (r : CurnodeSearch) : Prop where
  inspected : ∀ p ∈ r.inspected, p < devNum
  found : ∀ i, r.curnetId = some i → usable i
  exits : r.curnetId = none → ∀ i, ¬ usable i

/-- What the search is for. -/
def FindsServer (interfaces : List Ifreq) (netInfos : List DhmpNetInfo) (r : CurnodeSearch) :
    Prop :=
  Finds (reported interfaces).length (Usable interfaces netInfos) r

/-! ## One scan -/

section Scan

variable {ifc : Nat → Ifreq} {nicName : Str} {n p j x : Nat}

/-- A scan inspects an index if it accepts no interface before it. -/
theorem mem_inspected :
    x ∈ (scanDevices ifc nicName n p).inspected ↔
      p ≤ x ∧ x < p + n ∧ ∀ i, p ≤ i → i < x → ¬ (ifc i).accepts nicName := by
  fun_induction scanDevices ifc nicName n p with
  | case1 p => simp; omega
  | case2 n p h =>
    simp only [List.mem_singleton]
    constructor
    · rintro rfl
      exact ⟨Nat.le_refl _, by omega, fun i _ _ => by omega⟩
    · rintro ⟨hp, -, hfirst⟩
      by_contra hne
      exact hfirst p (Nat.le_refl _) (by omega) h
  | case3 n p h r ih =>
    simp only [List.mem_cons, r, ih]
    constructor
    · rintro (rfl | ⟨hp, hx, hfirst⟩)
      · exact ⟨Nat.le_refl _, by omega, fun i _ _ => by omega⟩
      · refine ⟨by omega, by omega, fun i hi hix => ?_⟩
        rcases Nat.eq_or_lt_of_le hi with rfl | hi
        · exact h
        · exact hfirst i hi hix
    · rintro ⟨hp, hx, hfirst⟩
      by_cases hxp : x = p
      · exact .inl hxp
      · exact .inr ⟨by omega, by omega, fun i hi hix => hfirst i (by omega) hix⟩

theorem scanDevices_hit (hp : p ≤ j) (hj : j < p + n) (h : (ifc j).accepts nicName)
    (hfirst : ∀ i, p ≤ i → i < j → ¬ (ifc i).accepts nicName) :
    (scanDevices ifc nicName n p).ifr = j ∧
      (scanDevices ifc nicName n p).addr = some (inetNtoa (ifc j).sinAddr) := by
  fun_induction scanDevices ifc nicName n p with
  | case1 p => omega
  | case2 n p hacc =>
    have : p = j := by
      by_contra hne
      exact hfirst p (Nat.le_refl _) (by omega) hacc
    simp [this]
  | case3 n p hacc r ih =>
    have : p ≠ j := by
      rintro rfl
      exact hacc h
    exact ih (by omega) (by omega) fun i hi => hfirst i (by omega)

theorem scanDevices_miss (h : ∀ i, p ≤ i → i < p + n → ¬ (ifc i).accepts nicName) :
    (scanDevices ifc nicName n p).ifr = p + n ∧ (scanDevices ifc nicName n p).addr = none := by
  fun_induction scanDevices ifc nicName n p with
  | case1 p => simp
  | case2 n p hacc => exact absurd hacc (h p (Nat.le_refl _) (by omega))
  | case3 n p hacc r ih =>
    obtain ⟨hifr, haddr⟩ := ih fun i hi hin => h i (by omega) (by omega)
    exact ⟨by rw [hifr]; omega, haddr⟩

end Scan

/-! ## The scans of all servers -/

/-- From index `p` on, `ifr` at index `j` is the first interface accepted for `nicName`. -/
structure FirstFrom (ifs : List Ifreq) (nicName : Str) (p j : Nat) (ifr : Ifreq) : Prop where
  le : p ≤ j
  at_index : ifs[j]? = some ifr
  accepts : ifr.accepts nicName
  first : ∀ i, p ≤ i → i < j → ∀ ifr', ifs[i]? = some ifr' → ¬ ifr'.accepts nicName

/-- A server is configured with the address of the interface. -/
def Configured (netInfos : List DhmpNetInfo) (ifr : Ifreq) : Prop :=
  ∃ net ∈ netInfos, net.addr = inetNtoa ifr.sinAddr

/-- Each of the servers finds an interface, from where the one before it found its own, and none
of them is configured. The pointer moves from `p` to `q`. -/
inductive Misses (ifs : List Ifreq) (netInfos : List DhmpNetInfo) :
    Nat → List DhmpNetInfo → Nat → Prop where
  | nil (p : Nat) : Misses ifs netInfos p [] p
  | cons {p j q : Nat} {ifr : Ifreq} {info : DhmpNetInfo} {rest : List DhmpNetInfo}
      (hfirst : FirstFrom ifs info.nicName p j ifr) (hconf : ¬ Configured netInfos ifr)
      (h : Misses ifs netInfos j rest q) : Misses ifs netInfos p (info :: rest) q

/-- The scans of `rest` from index `p` on end well: they miss until one of them finds a configured
interface; or no server is usable, and they all miss, or all but the last at the first interface
while the last finds none at all. -/
def EndsWell (ifs : List Ifreq) (netInfos : List DhmpNetInfo) (noneUsable : Prop) (p : Nat)
    (rest : List DhmpNetInfo) : Prop :=
  (∃ before info after q j ifr, rest = before ++ info :: after ∧
    Misses ifs netInfos p before q ∧ FirstFrom ifs info.nicName q j ifr ∧
    Configured netInfos ifr) ∨
  noneUsable ∧ ((∃ q, Misses ifs netInfos p rest q) ∨
    ∃ before last, rest = before ++ [last] ∧ Misses ifs netInfos p before 0 ∧
      ∀ ifr ∈ ifs, ¬ ifr.accepts last.nicName)

section Servers

variable {ifs : List Ifreq} {netInfos rest : List DhmpNetInfo} {info : DhmpNetInfo}
  {noneUsable : Prop} {behind : Nat → Ifreq} {p q j k : Nat} {ifr ifr' : Ifreq}

theorem FirstFrom.unique {nicName : Str} (h : FirstFrom ifs nicName p j ifr)
    (h' : FirstFrom ifs nicName p k ifr') : j = k ∧ ifr = ifr' := by
  obtain rfl : j = k := by
    rcases Nat.lt_trichotomy j k with hlt | heq | hlt
    · exact absurd h.accepts (h'.first j h.le hlt ifr h.at_index)
    · exact heq
    · exact absurd h'.accepts (h.first k h'.le hlt ifr' h'.at_index)
  exact ⟨rfl, Option.some.inj (h.at_index.symm.trans h'.at_index)⟩

theorem FirstFrom.lt {nicName : Str} (h : FirstFrom ifs nicName p j ifr) : j < ifs.length :=
  (List.getElem?_eq_some_iff.mp h.at_index).1

theorem FirstFrom.mem {nicName : Str} (h : FirstFrom ifs nicName p j ifr) : ifr ∈ ifs :=
  List.mem_of_getElem? h.at_index

/-- Without a first interface there is none from `p` on. -/
theorem not_accepts_of_not_firstFrom {nicName : Str}
    (h : ∀ j ifr, ¬ FirstFrom ifs nicName p j ifr) (i : Nat) (hi : p ≤ i) :
    ∀ ifr, ifs[i]? = some ifr → ¬ ifr.accepts nicName := by
  induction i using Nat.strongRecOn with
  | ind i ih => exact fun ifr hifr hacc => h i ifr ⟨hi, hifr, hacc, fun i' hp hlt => ih i' hlt hp⟩

theorem ifcReq_lt (hp : p < ifs.length) : ifs[p]? = some (ifcReq behind ifs p) := by
  simp [ifcReq, hp]

/-! ### How the scans go on -/

theorem endsWell_nil : EndsWell ifs netInfos noneUsable p [] ↔ noneUsable := by
  constructor
  · rintro (⟨before, info, after, _, _, _, h, -⟩ | ⟨h, -⟩)
    · simp at h
    · exact h
  · exact fun h => .inr ⟨h, .inl ⟨p, .nil p⟩⟩

theorem endsWell_configured (h : FirstFrom ifs info.nicName p j ifr)
    (hconf : Configured netInfos ifr) : EndsWell ifs netInfos noneUsable p (info :: rest) :=
  .inl ⟨[], info, rest, p, j, ifr, rfl, .nil p, h, hconf⟩

theorem misses_cons (h : FirstFrom ifs info.nicName p j ifr) (hconf : ¬ Configured netInfos ifr) :
    Misses ifs netInfos p (info :: rest) q ↔ Misses ifs netInfos j rest q := by
  constructor
  · intro hm
    cases hm with
    | cons hfirst _ hm =>
      obtain ⟨rfl, -⟩ := h.unique hfirst
      exact hm
  · exact .cons h hconf

theorem endsWell_miss (h : FirstFrom ifs info.nicName p j ifr)
    (hconf : ¬ Configured netInfos ifr) :
    EndsWell ifs netInfos noneUsable p (info :: rest) ↔
      EndsWell ifs netInfos noneUsable j rest := by
  constructor
  · rintro (⟨before, info', after, q, k, ifr', hrest, hm, hfirst, hc⟩ |
      ⟨hn, ⟨q, hm⟩ | ⟨before, last, hrest, hm, hlast⟩⟩)
    · cases before with
      | nil =>
        obtain ⟨rfl, rfl⟩ := List.cons.inj hrest
        cases hm
        obtain ⟨-, rfl⟩ := h.unique hfirst
        exact absurd hc hconf
      | cons info₀ before =>
        obtain ⟨rfl, rfl⟩ := List.cons.inj hrest
        exact .inl ⟨before, info', after, q, k, ifr', rfl, (misses_cons h hconf).mp hm, hfirst, hc⟩
    · exact .inr ⟨hn, .inl ⟨q, (misses_cons h hconf).mp hm⟩⟩
    · cases before with
      | nil =>
        obtain ⟨rfl, rfl⟩ := List.cons.inj hrest
        exact absurd h.accepts (hlast ifr h.mem)
      | cons info₀ before =>
        obtain ⟨rfl, rfl⟩ := List.cons.inj hrest
        exact .inr ⟨hn, .inr ⟨before, last, rfl, (misses_cons h hconf).mp hm, hlast⟩⟩
  · rintro (⟨before, info', after, q, k, ifr', rfl, hm, hfirst, hc⟩ |
      ⟨hn, ⟨q, hm⟩ | ⟨before, last, rfl, hm, hlast⟩⟩)
    · exact .inl ⟨info :: before, info', after, q, k, ifr', rfl, .cons h hconf hm, hfirst, hc⟩
    · exact .inr ⟨hn, .inl ⟨q, .cons h hconf hm⟩⟩
    · exact .inr ⟨hn, .inr ⟨info :: before, last, rfl, .cons h hconf hm, hlast⟩⟩

/-- After a scan that finds nothing there must not be another one. -/
theorem endsWell_none (h : ∀ j ifr, ¬ FirstFrom ifs info.nicName p j ifr) :
    EndsWell ifs netInfos noneUsable p (info :: rest) ↔ noneUsable ∧ rest = [] ∧ p = 0 := by
  have hno : ∀ l q, ¬ Misses ifs netInfos p (info :: l) q := by
    intro l q hm
    cases hm with
    | cons hfirst _ _ => exact h _ _ hfirst
  constructor
  · rintro (⟨before, info', after, q, k, ifr', hrest, hm, hfirst, -⟩ |
      ⟨hn, ⟨q, hm⟩ | ⟨before, last, hrest, hm, hlast⟩⟩)
    · cases before with
      | nil =>
        obtain ⟨rfl, rfl⟩ := List.cons.inj hrest
        cases hm
        exact absurd hfirst (h _ _)
      | cons info₀ before =>
        obtain ⟨rfl, rfl⟩ := List.cons.inj hrest
        exact absurd hm (hno _ _)
    · exact absurd hm (hno _ _)
    · cases before with
      | nil =>
        obtain ⟨rfl, rfl⟩ := List.cons.inj hrest
        cases hm
        exact ⟨hn, rfl, rfl⟩
      | cons info₀ before =>
        obtain ⟨rfl, rfl⟩ := List.cons.inj hrest
        exact absurd hm (hno _ _)
  · rintro ⟨hn, rfl, rfl⟩
    refine .inr ⟨hn, .inr ⟨[], info, rfl, .nil 0, fun ifr hifr => ?_⟩⟩
    obtain ⟨i, hi⟩ := List.getElem?_of_mem hifr
    exact not_accepts_of_not_firstFrom h i (Nat.zero_le i) ifr hi

/-! ### One server -/

/-- A scan that meets an interface of the list stays in the list. -/
theorem FirstFrom.scan (behind : Nat → Ifreq) (h : FirstFrom ifs info.nicName p j ifr) :
    (scanDevices (ifcReq behind ifs) info.nicName ifs.length p).ifr = j ∧
      (scanDevices (ifcReq behind ifs) info.nicName ifs.length p).addr =
        some (inetNtoa ifr.sinAddr) ∧
      ∀ x ∈ (scanDevices (ifcReq behind ifs) info.nicName ifs.length p).inspected,
        x < ifs.length := by
  have hlt := h.lt
  have hj : ifcReq behind ifs j = ifr :=
    Option.some.inj ((ifcReq_lt hlt).symm.trans h.at_index)
  have hacc : (ifcReq behind ifs j).accepts info.nicName := by
    rw [hj]
    exact h.accepts
  have hle := h.le
  obtain ⟨hifr, haddr⟩ := scanDevices_hit (n := ifs.length) hle (by omega) hacc fun i hp hi =>
    h.first i hp hi _ (ifcReq_lt (by omega))
  refine ⟨hifr, by rw [haddr, hj], fun x hx => ?_⟩
  obtain ⟨hp, hx, hfirst⟩ := mem_inspected.mp hx
  by_contra hge
  exact hfirst j hle (by omega) hacc

/-- A scan that meets none leaves the list, unless it starts at its beginning. -/
theorem scan_none (h : ∀ j ifr, ¬ FirstFrom ifs info.nicName p j ifr) (hp : 0 < p)
    (hle : p ≤ ifs.length) :
    ifs.length ∈ (scanDevices (ifcReq behind ifs) info.nicName ifs.length p).inspected := by
  apply mem_inspected.mpr
  refine ⟨hle, by omega, fun i hi hlt => ?_⟩
  exact not_accepts_of_not_firstFrom h i hi _ (ifcReq_lt hlt)

theorem scan_none_zero (behind : Nat → Ifreq)
    (h : ∀ j ifr, ¬ FirstFrom ifs info.nicName 0 j ifr) :
    (scanDevices (ifcReq behind ifs) info.nicName ifs.length 0).ifr = ifs.length ∧
      (scanDevices (ifcReq behind ifs) info.nicName ifs.length 0).addr = none := by
  have hmiss : ∀ i, 0 ≤ i → i < 0 + ifs.length →
      ¬ (ifcReq behind ifs i).accepts info.nicName := fun i _ hi =>
    not_accepts_of_not_firstFrom h i (Nat.zero_le i) _ (ifcReq_lt (by omega))
  obtain ⟨hifr, haddr⟩ := scanDevices_miss hmiss
  exact ⟨by rw [hifr, Nat.zero_add], haddr⟩

/-- The indices a server's scan inspects are inspected by the search. -/
theorem inspected_of_scan {ifc : Nat → Ifreq} {n x : Nat}
    (h : x ∈ (scanDevices ifc info.nicName n p).inspected) :
    x ∈ (searchServers ifc n netInfos (info :: rest) p).inspected := by
  rw [searchServers]
  dsimp only
  split
  · exact h
  · exact List.mem_append_left _ h

/-! ### All servers -/

theorem findIdx_configured (h : Configured netInfos ifr) :
    ∃ i net, (netInfos.findIdx? fun net => net.addr == inetNtoa ifr.sinAddr) = some i ∧
      netInfos[i]? = some net ∧ net.addr = inetNtoa ifr.sinAddr := by
  obtain ⟨net, hnet, haddr⟩ := h
  cases hf : netInfos.findIdx? fun net => net.addr == inetNtoa ifr.sinAddr with
  | none => simpa [haddr] using List.findIdx?_eq_none_iff.mp hf net hnet
  | some i =>
    obtain ⟨hi, hp, -⟩ := List.findIdx?_eq_some_iff_getElem.mp hf
    exact ⟨i, netInfos[i], rfl, List.getElem?_eq_getElem hi, by simpa using hp⟩

theorem findIdx_not_configured (h : ¬ Configured netInfos ifr) :
    (netInfos.findIdx? fun net => net.addr == inetNtoa ifr.sinAddr) = none := by
  apply List.findIdx?_eq_none_iff.mpr
  intro net hnet
  have : net.addr ≠ inetNtoa ifr.sinAddr := fun haddr => h ⟨net, hnet, haddr⟩
  simpa using this

/-- From an index of the list on, the search is right if and only if its scans end well. -/
theorem searchServers_iff {usable : Nat → Prop}
    (husable : ∀ info ∈ rest, ∀ ifr ∈ ifs, ifr.accepts info.nicName →
      ∀ i net, netInfos[i]? = some net → net.addr = inetNtoa ifr.sinAddr → usable i)
    (hp : p < ifs.length) :
    Finds ifs.length usable
        (searchServers (ifcReq behind ifs) ifs.length netInfos rest p) ↔
      EndsWell ifs netInfos (∀ i, ¬ usable i) p rest := by
  induction rest generalizing p with
  | nil =>
    rw [endsWell_nil]
    exact ⟨fun h => h.exits rfl, fun h => ⟨by simp [searchServers], by simp [searchServers],
      fun _ => h⟩⟩
  | cons info rest ih =>
    by_cases hf : ∃ j ifr, FirstFrom ifs info.nicName p j ifr
    · obtain ⟨j, ifr, hf⟩ := hf
      obtain ⟨hifr, haddr, hins⟩ := hf.scan behind
      by_cases hconf : Configured netInfos ifr
      · -- the server is found
        obtain ⟨i, net, hidx, hnet, hna⟩ := findIdx_configured hconf
        refine iff_of_true ?_ (endsWell_configured hf hconf)
        rw [searchServers, haddr, Option.bind_some, hidx]
        refine ⟨hins, fun i' hi' => ?_, by simp⟩
        obtain rfl : i = i' := Option.some.inj hi'
        exact husable info (by simp) ifr hf.mem hf.accepts i net hnet hna
      · -- the next scan starts where this one has stopped
        rw [endsWell_miss hf hconf, ← ih (fun info' h => husable info' (by simp [h])) hf.lt,
          searchServers, haddr, Option.bind_some, findIdx_not_configured hconf, hifr]
        constructor
        · exact fun h => ⟨fun x hx => h.inspected x (List.mem_append_right _ hx), h.found, h.exits⟩
        · refine fun h => ⟨fun x hx => ?_, h.found, h.exits⟩
          rcases List.mem_append.mp hx with hx | hx
          · exact hins x hx
          · exact h.inspected x hx
    · push Not at hf
      rw [endsWell_none hf]
      rcases Nat.eq_zero_or_pos p with rfl | hpos
      · -- the pointer is now behind the list
        obtain ⟨hifr, haddr⟩ := scan_none_zero behind hf
        rw [searchServers, haddr, Option.bind_none, hifr]
        cases rest with
        | nil =>
          constructor
          · exact fun h => ⟨h.exits rfl, rfl, rfl⟩
          · refine fun h => ⟨fun x hx => ?_, by simp [searchServers], fun _ => h.1⟩
            obtain ⟨-, hx, -⟩ := mem_inspected.mp (by simpa [searchServers] using hx)
            omega
        | cons info' rest =>
          refine iff_of_false (fun h => ?_) (by simp)
          have hn : ifs.length ∈ (scanDevices (ifcReq behind ifs) info'.nicName ifs.length
              ifs.length).inspected :=
            mem_inspected.mpr ⟨Nat.le_refl _, by omega, fun i _ _ => by omega⟩
          exact absurd (h.inspected _ (List.mem_append_right _ (inspected_of_scan hn)))
            (Nat.lt_irrefl _)
      · refine iff_of_false (fun h => ?_) (by omega)
        exact absurd (h.inspected _ (inspected_of_scan (scan_none hf hpos (by omega))))
          (Nat.lt_irrefl _)

/-- Without interfaces nothing is inspected and nothing found. -/
theorem searchServers_nil {ifc : Nat → Ifreq} (rest : List DhmpNetInfo) (p : Nat) :
    searchServers ifc 0 netInfos rest p = ⟨none, []⟩ := by
  induction rest generalizing p with
  | nil => rfl
  | cons info rest ih => simp [searchServers, scanDevices, ih]

end Servers

/-- No interface is reported and no server is usable, or the scans end well. -/
def CurnodeCondition (interfaces : List Ifreq) (netInfos : List DhmpNetInfo) : Prop :=
  (reported interfaces = [] ∧ ∀ i, ¬ Usable interfaces netInfos i) ∨
    EndsWell (reported interfaces) netInfos (∀ i, ¬ Usable interfaces netInfos i) 0 netInfos

/-- The search is right exactly when every scan that does not find a configured interface still
finds one to stay on, up to the scan that ends it. -/
theorem dhmpSetCurnodeId_iff (behind : Nat → Ifreq) (interfaces : List Ifreq)
    (netInfos : List DhmpNetInfo) :
    FindsServer interfaces netInfos (dhmpSetCurnodeId behind interfaces netInfos) ↔
      CurnodeCondition interfaces netInfos := by
  rw [FindsServer, dhmpSetCurnodeId, CurnodeCondition]
  rcases Nat.eq_zero_or_pos (reported interfaces).length with hzero | hpos
  · have hnil := List.length_eq_zero_iff.mp hzero
    rw [hzero, hnil, searchServers_nil]
    constructor
    · exact fun h => .inl ⟨rfl, h.exits rfl⟩
    · rintro (⟨-, h⟩ | ⟨_, _, _, _, _, _, -, -, hfirst, -⟩ | ⟨h, -⟩)
      · exact ⟨by simp, by simp, fun _ => h⟩
      · simpa using hfirst.at_index
      · exact ⟨by simp, by simp, fun _ => h⟩
  · have hne : reported interfaces ≠ [] := List.length_pos_iff.mp hpos
    rw [searchServers_iff _ hpos]
    · simp [hne]
    · intro info hinfo ifr hifr hacc i net hnet haddr
      exact ⟨net, hnet, ifr, List.mem_of_mem_take hifr, info, hinfo, hacc, haddr⟩

/-- The only interface of a host, `"e0"` with address 10.0.0.1. -/
def secondHost : List Ifreq := [⟨[101, 48], ⟨10, 0, 0, 1⟩, iffUp⟩]

/-- A server on another interface, `"e1"`, and the one of that host. -/
def twoServers : List DhmpNetInfo :=
  [⟨[101, 49], inetNtoa ⟨10, 0, 0, 2⟩⟩, ⟨[101, 48], inetNtoa ⟨10, 0, 0, 1⟩⟩]

/-- The scan for the first server has gone past the interface of the second one, whose scan then
looks behind the list. -/
theorem dhmpSetCurnodeId_passes :
    Usable secondHost twoServers 1 ∧
      (dhmpSetCurnodeId (fun _ => ⟨[], ⟨0, 0, 0, 0⟩, 0⟩) secondHost twoServers).curnetId = none ∧
      1 ∈ (dhmpSetCurnodeId (fun _ => ⟨[], ⟨0, 0, 0, 0⟩, 0⟩) secondHost twoServers).inspected ∧
      ¬ FindsServer secondHost twoServers
        (dhmpSetCurnodeId (fun _ => ⟨[], ⟨0, 0, 0, 0⟩, 0⟩) secondHost twoServers) := by
  have hu : Usable secondHost twoServers 1 :=
    ⟨⟨[101, 48], inetNtoa ⟨10, 0, 0, 1⟩⟩, rfl, ⟨[101, 48], ⟨10, 0, 0, 1⟩, iffUp⟩,
      by simp [secondHost], ⟨[101, 48], inetNtoa ⟨10, 0, 0, 1⟩⟩, by simp [twoServers],
      by decide, rfl⟩
  have hnone : (dhmpSetCurnodeId (fun _ => ⟨[], ⟨0, 0, 0, 0⟩, 0⟩) secondHost
      twoServers).curnetId = none := by
    decide
  exact ⟨hu, hnone, by decide, fun h => h.exits hnone 1 hu⟩

end DhmpFs
