import DhmpFs.Fs.Lookup

/-!
# The buffers behind a path

`deal` and `search_d_hash` copy a path into arrays of `FILE_NAME_LEN` bytes without comparing its
length. Here every index they use is listed, for each operation that FUSE asks for with a path.
Components fit everywhere; what does not fit is a whole path in `dirname`.

## Main definitions

* `PathCall.accesses`: the indices an operation uses.
* `PathCall.splits`: the paths it hands to `deal`.
* `KernelPath`: the paths that the kernel passes.
-/

namespace DhmpFs

/-- The arrays of `FILE_NAME_LEN` bytes: of a caller of `deal`, of `search_d_hash`, and in an
inode. -/
inductive Buffer where
  | dirname
  | filename
  | name
  | inodeFilename
  deriving DecidableEq, Repr

/-- A byte of a buffer that is read or written. -/
structure ByteAccess where
  buffer : Buffer
  index : Int
  deriving DecidableEq, Repr

def ByteAccess.InBounds (a : ByteAccess) : Prop := 0 ≤ a.index ∧ a.index < fileNameLen

/-- A loop over the first `n` bytes of a buffer. -/
def touched (buffer : Buffer) (n : Nat) : List ByteAccess :=
  (List.range n).map fun i : Nat => ⟨buffer, (i : Int)⟩

/-- What `deal` touches: both copying loops, the end of `dirname`, the byte `filename[k-1]` that
is compared with a slash, and the end of `filename`. -/
def dealAccesses (path : Str) : List ByteAccess :=
  let m := lastSlash 0 0 path
  let filename := path.drop (m + 1)
  let k : Int := filename.length
  touched .dirname path.length ++ touched .filename filename.length ++
    [⟨.dirname, m + 1⟩, ⟨.filename, k - 1⟩,
      ⟨.filename, if filename.getLast? = some slash then k - 1 else k⟩]

/-- What the loop of `search_d_hash` touches: `name[j]` in every round, and the end of a
component that is complete. -/
def searchLoopAccesses (s : Fs) (first : Bool) (nowNode : InodeId) (name : Str) :
    Str → List ByteAccess
  | [] => []
  | ch :: rest =>
    ⟨.name, name.length⟩ ::
      if ch = slash ∨ rest = [] then
        if first then searchLoopAccesses s false nowNode name rest
        else
          let name := if ch = slash then name else name ++ [ch]
          ⟨.name, name.length⟩ ::
            match child s nowNode name with
            | some (some nextInode) => searchLoopAccesses s false nextInode [] rest
            | _ => []
      else searchLoopAccesses s false nowNode (name ++ [ch]) rest

/-- What `search_d_hash` touches, with its `memset`. -/
def searchAccesses (s : Fs) (path : Str) : List ByteAccess :=
  touched .name fileNameLen ++
    if path.length = 1 then [] else searchLoopAccesses s true rootId [] path

/-- `strcpy(now->filename, filename)`. -/
def strcpyAccesses (filename : Str) : List ByteAccess :=
  touched .inodeFilename (filename.length + 1)

/-- A path is split and its directory searched; `next` goes on with a directory that was found.
After an overrun of `deal` nothing is listed. -/
def splitAccesses (s : Fs) (path : Str) (next : InodeId → Str → List ByteAccess) :
    List ByteAccess :=
  dealAccesses path ++
    match deal path with
    | none => []
    | some (dirname, filename) =>
      searchAccesses s dirname ++
        match searchDHash s dirname with
        | some (some father) => next father filename
        | _ => []

/-- An operation FUSE asks for with a path. -/
inductive PathCall where
  | getattr (path : Str)
  | readdir (path : Str)
  | «open» (path : Str)
  | mknod (path : Str)
  | mkdir (path : Str)
  | unlink (path : Str)
  | rmdir (path : Str)
  | rename (src dst : Str)

namespace PathCall

def paths : PathCall → List Str
  | getattr path | readdir path | «open» path | mknod path | mkdir path | unlink path
  | rmdir path => [path]
  | rename src dst => [src, dst]

/-- The entry that `dhmp_fs_rename` finds for its first path. -/
def renameHead (s : Fs) (src : Str) : Option InodeId :=
  match deal src with
  | none => none
  | some (dirname, filename) =>
    match searchDHash s dirname with
    | some (some father) => (child s father filename).join
    | _ => none

def accesses (s : Fs) : PathCall → List ByteAccess
  | getattr path => if path.length = 1 then [] else searchAccesses s path
  | readdir path => if path.length = 1 then [] else searchAccesses s path
  | «open» path => searchAccesses s path
  | mknod path =>
    if path.length = 1 then []
    else splitAccesses s path fun father filename =>
      if child s father filename = some none then strcpyAccesses filename else []
  | mkdir path =>
    if path.length = 1 then []
    else splitAccesses s path fun father filename =>
      if (s.inodes father).isDirectories ∧ child s father filename = some none then
        strcpyAccesses filename
      else []
  | unlink path => if path.length = 1 then [] else splitAccesses s path fun _ _ => []
  | rmdir path => if path.length = 1 then [] else splitAccesses s path fun _ _ => []
  | rename src dst =>
    splitAccesses s src fun father filename =>
      match child s father filename with
      | some (some _) =>
        dealAccesses dst ++
          match deal dst with
          | none => []
          | some (_, toname) => strcpyAccesses toname
      | _ => []

/-- The paths an operation splits. `rename` splits its second path once it has found an entry for
the first one. -/
def splits (s : Fs) : PathCall → List Str
  | getattr _ | readdir _ | «open» _ => []
  | mknod path | mkdir path | unlink path | rmdir path => if path.length = 1 then [] else [path]
  | rename src dst => if (renameHead s src).isSome then [src, dst] else [src]

end PathCall

/-- A path the kernel passes: absolute, of at most 4095 bytes, with components of at most 255. -/
structure KernelPath (path : Str) : Prop where
  absolute : ∃ rest, path = slash :: rest
  length_le : path.length ≤ 4095
  component_le : ∀ c, c <:+: path → slash ∉ c → c.length ≤ 255

/-! ## `deal` -/

theorem forall_touched {buffer : Buffer} {n : Nat} :
    (∀ a ∈ touched buffer n, a.InBounds) ↔ n ≤ fileNameLen := by
  simp only [touched, List.forall_mem_map, List.mem_range, ByteAccess.InBounds]
  constructor
  · intro h
    by_contra hlt
    have := (h fileNameLen (by omega)).2
    omega
  · intro h i hi
    exact ⟨by omega, by omega⟩

/-- The slash `deal` cuts at is not the last byte. -/
theorem lastSlash_add_two_le (i j : Nat) (l : Str) :
    lastSlash i j l = j ∨ lastSlash i j l + 2 ≤ i + l.length := by
  induction l generalizing i j with
  | nil => exact .inl rfl
  | cons ch rest ih =>
    rw [lastSlash, List.length_cons]
    split
    · next h =>
      have hpos := List.length_pos_iff.mpr h.2
      rcases ih (i + 1) i with heq | hle
      · exact .inr (by omega)
      · exact .inr (by omega)
    · rcases ih (i + 1) j with heq | hle
      · exact .inl heq
      · exact .inr (by omega)

theorem lastSlash_zero_add_two_le {path : Str} (h : 2 ≤ path.length) :
    lastSlash 0 0 path + 2 ≤ path.length := by
  rcases lastSlash_add_two_le 0 0 path with heq | hle
  · omega
  · omega

/-- `deal` stays in its buffers for a path of two bytes up to `FILE_NAME_LEN`. -/
theorem dealAccesses_inBounds_iff {path : Str} (hne : path ≠ []) :
    (∀ a ∈ dealAccesses path, a.InBounds) ↔ 2 ≤ path.length ∧ path.length ≤ fileNameLen := by
  have hpos := List.length_pos_iff.mpr hne
  unfold dealAccesses
  simp only [List.forall_mem_append, forall_touched, List.length_drop]
  constructor
  · rintro ⟨⟨hdir, -⟩, hrest⟩
    refine ⟨?_, hdir⟩
    by_contra hone
    -- for a single byte `filename` is empty, and `filename[k-1]` is before its start
    have := (hrest ⟨.filename, ((path.length - (lastSlash 0 0 path + 1) : Nat) : Int) - 1⟩
      (by simp)).1
    dsimp only at this
    omega
  · rintro ⟨htwo, hle⟩
    have hcut := lastSlash_zero_add_two_le htwo
    refine ⟨⟨hle, by omega⟩, fun a ha => ?_⟩
    simp only [List.mem_cons, List.not_mem_nil, or_false] at ha
    rcases ha with rfl | rfl | rfl
    · exact ⟨by dsimp only; omega, by dsimp only; omega⟩
    · exact ⟨by dsimp only; omega, by dsimp only; omega⟩
    · dsimp only [ByteAccess.InBounds]
      split
      · exact ⟨by omega, by omega⟩
      · exact ⟨by omega, by omega⟩

/-- The model of `deal` gives up exactly where the code leaves its buffers. -/
theorem deal_isSome_iff {path : Str} (hne : path ≠ []) :
    (deal path).isSome ↔ ∀ a ∈ dealAccesses path, a.InBounds := by
  rw [dealAccesses_inBounds_iff hne, deal]
  split
  · simp only [Option.isSome_none, Bool.false_eq_true, false_iff]
    omega
  · simp only [Option.isSome_some, true_iff]
    omega

/-- Where `deal` stays in its buffers, the component it leaves is one byte shorter than the path
at least. -/
theorem deal_eq_some {path : Str} (htwo : 2 ≤ path.length) (hle : path.length ≤ fileNameLen) :
    ∃ dirname filename, deal path = some (dirname, filename) ∧ dirname <+: path ∧
      filename.length < path.length := by
  refine ⟨_, _, if_neg (by omega), List.take_prefix _ _, ?_⟩
  have := lastSlash_zero_add_two_le htwo
  split
  · rw [List.length_dropLast, List.length_drop]
    omega
  · rw [List.length_drop]
    omega

theorem strcpyAccesses_inBounds {filename : Str} (h : filename.length < fileNameLen) :
    ∀ a ∈ strcpyAccesses filename, a.InBounds :=
  forall_touched.mpr h

theorem strcpyIf_inBounds {filename : Str} {cond : Prop} [Decidable cond]
    (h : filename.length < fileNameLen) :
    ∀ a ∈ if cond then strcpyAccesses filename else [], a.InBounds := by
  split
  · exact strcpyAccesses_inBounds h
  · simp

/-! ## `search_d_hash` -/

/-- The index stays below the length of a component, whatever the hash maps answer. -/
theorem searchLoopAccesses_inBounds {s : Fs} {path : Str}
    (hpath : ∀ c, c <:+: path → slash ∉ c → c.length ≤ 255) (l : Str) (first : Bool)
    (nowNode : InodeId) (name : Str) (hfirst : first = true → name = []) (hname : slash ∉ name)
    (hl : name ++ l <:+: path) :
    ∀ a ∈ searchLoopAccesses s first nowNode name l, a.InBounds := by
  have hbound : ∀ c, c <:+: path → slash ∉ c →
      ByteAccess.InBounds ⟨.name, (c.length : Int)⟩ := by
    intro c hc hslash
    have := hpath c hc hslash
    exact ⟨by dsimp only; omega, by dsimp only [fileNameLen]; omega⟩
  induction l generalizing first nowNode name with
  | nil => simp [searchLoopAccesses]
  | cons ch rest ih =>
    have hpre : name <:+: path := (List.prefix_append name (ch :: rest)).isInfix.trans hl
    have hl' : (name ++ [ch]) ++ rest <:+: path := by simpa using hl
    have hrest : [] ++ rest <:+: path := (List.suffix_append (name ++ [ch]) rest).isInfix.trans hl'
    rw [searchLoopAccesses, List.forall_mem_cons]
    refine ⟨hbound name hpre hname, ?_⟩
    split
    · split
      · next hf =>
        rw [hfirst hf]
        exact ih false nowNode [] (by simp) (by simp) hrest
      · -- a component is complete
        have hfull : (if ch = slash then name else name ++ [ch]) <:+: path ∧
            slash ∉ (if ch = slash then name else name ++ [ch]) := by
          split
          · exact ⟨hpre, hname⟩
          · next hch =>
            exact ⟨(List.prefix_append (name ++ [ch]) rest).isInfix.trans hl', by
              simp [hname, Ne.symm hch]⟩
        rw [List.forall_mem_cons]
        refine ⟨hbound _ hfull.1 hfull.2, ?_⟩
        split
        · exact ih false _ [] (by simp) (by simp) hrest
        · simp
    · next hmid =>
      push Not at hmid
      exact ih false nowNode (name ++ [ch]) (by simp) (by simp [hname, Ne.symm hmid.1]) hl'

theorem searchAccesses_inBounds {s : Fs} {path : Str}
    (hpath : ∀ c, c <:+: path → slash ∉ c → c.length ≤ 255) :
    ∀ a ∈ searchAccesses s path, a.InBounds := by
  rw [searchAccesses, List.forall_mem_append]
  refine ⟨forall_touched.mpr (Nat.le_refl _), ?_⟩
  split
  · simp
  · exact searchLoopAccesses_inBounds hpath path true rootId [] (by simp) (by simp) (by simp)

/-! ## The operations -/

section operations

variable {s : Fs} {path src dst : Str} {next : InodeId → Str → List ByteAccess}

theorem KernelPath.ne_nil (h : KernelPath path) : path ≠ [] := by
  obtain ⟨rest, rfl⟩ := h.absolute
  simp

theorem length_lt_of_deal {dirname filename : Str} (h : deal path = some (dirname, filename)) :
    filename.length < fileNameLen := by
  have hle := length_le_of_deal h
  have htwo : 2 ≤ path.length := by
    by_contra hlt
    rw [deal, if_pos (.inr (by omega))] at h
    simp at h
  obtain ⟨_, _, hdeal, -, hlen⟩ := deal_eq_some htwo hle
  obtain ⟨-, rfl⟩ := Prod.mk.inj (Option.some.inj (hdeal.symm.trans h))
  omega

/-- A split stays in its buffers if and only if the path fits and what follows the split does. -/
theorem splitAccesses_inBounds (h : KernelPath path) :
    (∀ a ∈ splitAccesses s path next, a.InBounds) ↔
      (2 ≤ path.length ∧ path.length ≤ fileNameLen) ∧
        ∀ dirname filename father, deal path = some (dirname, filename) →
          searchDHash s dirname = some (some father) →
            ∀ a ∈ next father filename, a.InBounds := by
  rw [splitAccesses, List.forall_mem_append, dealAccesses_inBounds_iff h.ne_nil]
  refine and_congr_right fun ⟨htwo, hle⟩ => ?_
  obtain ⟨dirname, filename, hdeal, hpre, -⟩ := deal_eq_some htwo hle
  have hsearch : ∀ a ∈ searchAccesses s dirname, a.InBounds :=
    searchAccesses_inBounds fun c hc => h.component_le c (hc.trans hpre.isInfix)
  rw [hdeal, List.forall_mem_append]
  constructor
  · rintro ⟨-, hnext⟩ _ _ father hd hf
    obtain ⟨rfl, rfl⟩ := Prod.mk.inj (Option.some.inj hd)
    rw [hf] at hnext
    exact hnext
  · refine fun hnext => ⟨hsearch, ?_⟩
    split
    · next father hf => exact hnext _ _ father rfl hf
    · simp

/-- `mknod`, `mkdir`, `unlink` and `rmdir` leave the root alone and split every other path. -/
theorem splitUnlessRoot_inBounds (h : KernelPath path)
    (hnext : ∀ father filename, filename.length < fileNameLen →
      ∀ a ∈ next father filename, a.InBounds) :
    (∀ a ∈ if path.length = 1 then [] else splitAccesses s path next, a.InBounds) ↔
      ∀ p ∈ if path.length = 1 then [] else [path], 2 ≤ p.length ∧ p.length ≤ fileNameLen := by
  split
  · simp
  · rw [splitAccesses_inBounds h, List.forall_mem_singleton]
    exact and_iff_left fun _ _ father hdeal _ => hnext father _ (length_lt_of_deal hdeal)

/-- `getattr` and `readdir` search for every path but the root. -/
theorem searchUnlessRoot_inBounds (h : KernelPath path) :
    ∀ a ∈ if path.length = 1 then [] else searchAccesses s path, a.InBounds := by
  split
  · simp
  · exact searchAccesses_inBounds h.component_le

/-- An entry was found for the first path of `rename`. -/
theorem renameHead_isSome :
    (PathCall.renameHead s src).isSome ↔ ∃ dirname filename father i,
      deal src = some (dirname, filename) ∧ searchDHash s dirname = some (some father) ∧
        child s father filename = some (some i) := by
  rw [PathCall.renameHead]
  rcases hdeal : deal src with _ | ⟨dirname, filename⟩
  · simp
  · rcases hf : searchDHash s dirname with _ | _ | father
    · simp [hf]
    · simp [hf]
    · rcases hc : child s father filename with _ | _ | i <;> simp [hf, hc]

theorem renameTarget_inBounds (h : KernelPath dst) :
    (∀ a ∈ dealAccesses dst ++
      match deal dst with
      | none => []
      | some (_, toname) => strcpyAccesses toname, a.InBounds) ↔
      2 ≤ dst.length ∧ dst.length ≤ fileNameLen := by
  rw [List.forall_mem_append, dealAccesses_inBounds_iff h.ne_nil]
  refine and_iff_left ?_
  split
  · simp
  · next hdeal => exact strcpyAccesses_inBounds (length_lt_of_deal hdeal)

theorem rename_inBounds (hsrc : KernelPath src) (hdst : KernelPath dst) :
    (∀ a ∈ (PathCall.rename src dst).accesses s, a.InBounds) ↔
      ∀ path ∈ (PathCall.rename src dst).splits s, 2 ≤ path.length ∧ path.length ≤ fileNameLen := by
  have hsplits : (∀ path ∈ (PathCall.rename src dst).splits s,
      2 ≤ path.length ∧ path.length ≤ fileNameLen) ↔
      (2 ≤ src.length ∧ src.length ≤ fileNameLen) ∧
        ((PathCall.renameHead s src).isSome → 2 ≤ dst.length ∧ dst.length ≤ fileNameLen) := by
    rw [PathCall.splits]
    split <;> simp [*]
  rw [hsplits, PathCall.accesses, splitAccesses_inBounds hsrc]
  refine and_congr_right fun _ => ?_
  rw [renameHead_isSome]
  constructor
  · rintro hnext ⟨dirname, filename, father, i, hdeal, hf, hc⟩
    have := hnext dirname filename father hdeal hf
    rw [hc] at this
    exact (renameTarget_inBounds hdst).mp this
  · intro hfound dirname filename father hdeal hf
    split
    · next i hc =>
      exact (renameTarget_inBounds hdst).mpr (hfound ⟨dirname, filename, father, i, hdeal, hf, hc⟩)
    · simp

/-- A piece without a slash lies in one component. -/
theorem length_le_of_infix_absolute {n : Nat} {p : List Str} (hp : ∀ c ∈ p, c.length ≤ n)
    {a d : Str} (ha : a.length ≤ n) (hd : slash ∉ d) (h : d <:+: a ++ absolute p) :
    d.length ≤ n := by
  induction p generalizing a with
  | nil =>
    rw [absolute_nil, List.append_nil] at h
    exact Nat.le_trans h.length_le ha
  | cons c p ih =>
    have hrest : d <:+: c ++ absolute p → d.length ≤ n :=
      ih (fun x hx => hp x (by simp [hx])) (hp c (by simp))
    -- a prefix of what begins with a slash is empty
    have hnil : ∀ l, slash ∉ l → l <+: slash :: (c ++ absolute p) → l = [] := by
      intro l hl hpre
      cases l with
      | nil => rfl
      | cons x l => exact absurd (List.cons_prefix_cons.mp hpre).1 fun heq => hl (by simp [heq])
    rw [absolute_cons] at h
    rcases List.infix_append_iff.mp h with h | h | ⟨l₁, l₂, rfl, h₁, h₂⟩
    · exact Nat.le_trans h.length_le ha
    · rcases List.infix_cons_iff.mp h with h | h
      · simp [hnil d hd h]
      · exact hrest h
    · have hl₂ := hnil l₂ (fun hmem => hd (by simp [hmem])) h₂
      rw [hl₂, List.append_nil]
      exact Nat.le_trans h₁.length_le ha

/-- Components within the limit make a path that the kernel passes. -/
theorem kernelPath_absolute {p : List Str} (hne : p ≠ []) (hp : ∀ c ∈ p, c.length ≤ 255)
    (hlen : (absolute p).length ≤ 4095) : KernelPath (absolute p) where
  absolute := by
    cases p with
    | nil => exact absurd rfl hne
    | cons c p => exact ⟨_, absolute_cons c p⟩
  length_le := hlen
  component_le d hd hslash := by
    apply length_le_of_infix_absolute hp (a := []) (by simp) hslash
    simpa using hd

/-- An operation stays in the path buffers if and only if each path it splits has two bytes at
least and `FILE_NAME_LEN` at most. -/
theorem path_buffers_iff (s : Fs) (call : PathCall) (h : ∀ path ∈ call.paths, KernelPath path) :
    (∀ a ∈ call.accesses s, a.InBounds) ↔
      ∀ path ∈ call.splits s, 2 ≤ path.length ∧ path.length ≤ fileNameLen := by
  cases call with
  | getattr path =>
    have hp := h path (by simp [PathCall.paths])
    exact iff_of_true (searchUnlessRoot_inBounds hp) (by simp [PathCall.splits])
  | readdir path =>
    have hp := h path (by simp [PathCall.paths])
    exact iff_of_true (searchUnlessRoot_inBounds hp) (by simp [PathCall.splits])
  | «open» path =>
    have hp := h path (by simp [PathCall.paths])
    exact iff_of_true (searchAccesses_inBounds hp.component_le) (by simp [PathCall.splits])
  | mknod path =>
    apply splitUnlessRoot_inBounds (h path (by simp [PathCall.paths]))
    exact fun father filename hlen => strcpyIf_inBounds hlen
  | mkdir path =>
    apply splitUnlessRoot_inBounds (h path (by simp [PathCall.paths]))
    exact fun father filename hlen => strcpyIf_inBounds hlen
  | unlink path =>
    exact splitUnlessRoot_inBounds (h path (by simp [PathCall.paths])) fun _ _ _ => by simp
  | rmdir path =>
    exact splitUnlessRoot_inBounds (h path (by simp [PathCall.paths])) fun _ _ _ => by simp
  | rename src dst =>
    exact rename_inBounds (h src (by simp [PathCall.paths])) (h dst (by simp [PathCall.paths]))

theorem path_buffers_mkdir :
    (PathCall.mkdir (absolute [[97]])).splits (dhmpInit fun _ _ => 0) = [absolute [[97]]] ∧
      ∀ a ∈ (PathCall.mkdir (absolute [[97]])).accesses (dhmpInit fun _ _ => 0), a.InBounds := by
  refine ⟨rfl, (path_buffers_iff _ _ fun path hpath => ?_).mpr ?_⟩
  · obtain rfl : path = absolute [[97]] := by simpa [PathCall.paths] using hpath
    exact kernelPath_absolute (by simp) (by simp) (by simp)
  · simp [PathCall.splits, fileNameLen]

/-- Two components of 255 bytes and one of one byte: 514 bytes with their slashes. -/
def longPath : Str := absolute [List.replicate 255 97, List.replicate 255 97, [97]]

/-- `mkdir` of it writes past the end of `dirname`. -/
theorem longPath_overruns :
    KernelPath longPath ∧ ¬ ByteAccess.InBounds ⟨.dirname, 512⟩ ∧
      ⟨.dirname, 512⟩ ∈ (PathCall.mkdir longPath).accesses (dhmpInit fun _ _ => 0) := by
  have hlen : longPath.length = 514 := by simp [longPath, -List.reduceReplicate]
  have hpath : KernelPath longPath :=
    kernelPath_absolute (List.cons_ne_nil _ _) (by simp [-List.reduceReplicate])
      (Nat.le_trans (Nat.le_of_eq hlen) (by decide))
  refine ⟨hpath, by simp [ByteAccess.InBounds], ?_⟩
  have htouched : (⟨.dirname, 512⟩ : ByteAccess) ∈ touched .dirname longPath.length :=
    List.mem_map.mpr ⟨512, List.mem_range.mpr (by omega), rfl⟩
  rw [PathCall.accesses, if_neg (by omega), splitAccesses, dealAccesses]
  apply List.mem_append_left
  apply List.mem_append_left
  exact List.mem_append_left _ htouched

end operations

end DhmpFs
