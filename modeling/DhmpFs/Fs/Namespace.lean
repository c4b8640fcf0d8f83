import DhmpFs.Fs.Lookup
import DhmpFs.Library.NameTree

/-!
# The namespace

The directory operations on canonical paths refine a finite tree of names, as long as the paths
fit the buffers of `FILE_NAME_LEN` bytes and the counters of the father fit an `int`.

## Main definitions

* `NsOp`: creations and deletions, with their meaning on a `NameTree`.
* `Legal`: the paths the kernel passes.
* `NsOp.Fits`: the condition under which the operations agree with the tree.
* `Refines`: what can be observed of the file system is the tree.
-/

namespace DhmpFs

open Library

/-- A creation or a deletion of the node `c` below the path `p`. -/
inductive NsOp where
  | mknod (p : List Str) (c : Str)
  | mkdir (p : List Str) (c : Str)
  | delete (p : List Str) (c : Str)

namespace NsOp

def dir : NsOp → List Str
  | mknod p _ | mkdir p _ | delete p _ => p

def name : NsOp → Str
  | mknod _ c | mkdir _ c | delete _ c => c

def path (op : NsOp) : Str := pathOf (op.dir ++ [op.name])

def run (s : Fs) (op : NsOp) : Option (Fs × Int) :=
  match op with
  | mknod _ _ => dhmpMknod s op.path
  | mkdir _ _ => dhmpCreateDirectory s op.path
  | delete _ _ => dhmpDelete s op.path

/-- The operation on the tree of names, and whether it succeeds. -/
def spec (t : NameTree Str) : NsOp → NameTree Str × Bool
  | mknod p c => t.create p c false
  | mkdir p c => t.create p c true
  | delete p c => t.delete p c

end NsOp

/-- The result of an operation that succeeded or not. -/
def result (success : Bool) : Int := if success then 1 else -1

/-- The components are those of a canonical path, and every existing proper prefix is a
directory. -/
structure Legal (t : NameTree Str) (p : List Str) : Prop where
  canonical : ∀ c ∈ p, Canonical c
  dirs : ∀ q, q <+: p → q ≠ p → t.kind q ≠ none → t.kind q = some true

theorem legal_iff {t : NameTree Str} {p : List Str} :
    Legal t p ↔ (∀ c ∈ p, Canonical c) ∧
      ∀ q ∈ p.inits, q ≠ p → t.kind q ≠ none → t.kind q = some true := by
  simp only [List.mem_inits]
  exact ⟨fun h => ⟨h.canonical, h.dirs⟩, fun h => ⟨h.1, h.2⟩⟩

instance (t : NameTree Str) (p : List Str) : Decidable (Legal t p) :=
  decidable_of_iff _ legal_iff.symm

/-- The path fits the buffers, and the father can count and store one son more where a son is
created. -/
def NsOp.Fits (s : Fs) (op : NsOp) : Prop :=
  op.path.length ≤ fileNameLen ∧
    match op with
    | mknod _ c | mkdir _ c => ∀ father d, Resolves s op.path father c d →
        d.get s.names c = none →
          (s.inodes father).sonNums < intMax ∧ d.size + 1 < HashMap.maxEntries
    | delete _ _ => True

/-- The file system and the tree after an operation that returns. -/
def NsStep (st : Fs × NameTree Str) (op : NsOp) (st' : Fs × NameTree Str) : Prop :=
  Legal st.2 (op.dir ++ [op.name]) ∧ (∃ res, op.run st.1 = some (st'.1, res)) ∧
    st'.2 = (op.spec st.2).1

/-- The state after an operation that returns. -/
def NsOp.next (st : Fs × NameTree Str) (op : NsOp) : Fs × NameTree Str :=
  (((op.run st.1).map Prod.fst).getD st.1, (op.spec st.2).1)

theorem NsStep.next {st : Fs × NameTree Str} {op : NsOp}
    (legal : Legal st.2 (op.dir ++ [op.name])) (returns : (op.run st.1).isSome = true) :
    NsStep st op (op.next st) := by
  obtain ⟨⟨s', res⟩, hr⟩ := Option.isSome_iff_exists.mp returns
  exact ⟨legal, ⟨res, by simp [NsOp.next, hr]⟩, rfl⟩

/-- Lookups and directory listings of the file system agree with the tree. -/
structure Refines (s : Fs) (t : NameTree Str) : Prop where
  lookup : ∀ p, Legal t p → FitsName p → ∃ r, searchDHash s (pathOf p) = some r ∧
    r.map (fun i => (s.inodes i).isDirectories) = t.kind p
  readDir : ∀ p, Legal t p → FitsName p → t.kind p = some true →
    ∃ l, dhmpReadDir s (pathOf p) = some l ∧ (l.map Prod.fst).Nodup ∧
      ∀ c k, (c, k) ∈ l ↔ t.kind (p ++ [c]) = some k

/-! ## The simulation -/

/-- The paths that lead to an inode of the tree are those of the tree of names. -/
structure Sim (s : Fs) (kids : InodeId → List InodeId) (t : NameTree Str) : Prop where
  owned : Owned s
  tree : Tree s kids
  exact : Exact s kids
  kind : ∀ p k, t.kind p = some k ↔
    ∃ i, PathTo kids s.names rootId p i ∧ (s.inodes i).isDirectories = k

namespace Sim

variable {s : Fs} {kids : InodeId → List InodeId} {t : NameTree Str} {p : List Str} {c : Str}
  {i : InodeId}

theorem dhmpInit (bank : Nat → Nat → UInt8) :
    Sim (dhmpInit bank) (fun _ => []) (.empty Str) := by
  refine ⟨owned_dhmpInit bank, tree_dhmpInit bank, exact_dhmpInit bank, fun p k => ?_⟩
  have hroot : ((DhmpFs.dhmpInit bank).inodes rootId).isDirectories = true := rfl
  cases p using List.reverseRecOn with
  | nil => simp [NameTree.empty, hroot]
  | append_singleton p c => simp [NameTree.empty, PathTo.snoc_iff]

theorem kind_eq (h : Sim s kids t) (hi : PathTo kids s.names rootId p i) :
    t.kind p = some (s.inodes i).isDirectories :=
  (h.kind p _).mpr ⟨i, hi, rfl⟩

theorem kind_eq_none (h : Sim s kids t) :
    t.kind p = none ↔ ∀ i, ¬ PathTo kids s.names rootId p i := by
  rw [Option.eq_none_iff_forall_ne_some]
  simp only [ne_eq, h.kind]
  grind

/-- The lookup of a legal path. -/
theorem walk (h : Sim s kids t) (hl : Legal t p) :
    ∃ r, DhmpFs.walk s rootId p = some r ∧
      (∀ i, r = some i ↔ PathTo kids s.names rootId p i) ∧
      r.map (fun i => (s.inodes i).isDirectories) = t.kind p := by
  obtain ⟨r, hr, hi⟩ := walk_spec h.tree h.exact fun q hq hne d hd => by
    have hk := h.kind_eq hd
    have := hl.dirs q hq hne (by simp [hk])
    simpa [hk] using this
  refine ⟨r, hr, hi, ?_⟩
  cases r with
  | none => exact (h.kind_eq_none.mpr fun i hp => by simpa using (hi i).mpr hp).symm
  | some i => exact (h.kind_eq ((hi i).mp rfl)).symm

end Sim

/-! ## Reading a directory -/

/-- The loop lists every inode of the chain. -/
theorem readSons_spec {s : Fs} {l : List InodeId} {p : Option InodeId} (hc : Chain s.bro p l)
    {rounds : Nat} (hr : l.length ≤ rounds) (list : List (Str × Bool)) :
    ∃ list', readSons rounds s list p = some list' ∧
      list'.Perm (list ++ l.map fun i => ((s.inodes i).filename, (s.inodes i).isDirectories)) := by
  induction l generalizing p rounds list with
  | nil =>
    obtain rfl := Chain.nil_iff.mp hc
    exact ⟨list, by cases rounds <;> rfl, by simp⟩
  | cons i l ih =>
    obtain ⟨rfl, hc⟩ := hc
    cases rounds with
    | zero => simp at hr
    | succ rounds =>
      obtain ⟨list', heq, hp⟩ := ih hc (by simpa using hr) _
      refine ⟨list', heq, hp.trans ?_⟩
      cases list with
      | nil => exact .refl _
      | cons head tp =>
        refine List.Perm.cons _ ?_
        simp only [List.map_cons]
        exact List.perm_middle.symm

namespace Tree

variable {s : Fs} {kids : InodeId → List InodeId} {path : Str} {i : InodeId}

/-- Listing the directory a path leads to. -/
theorem dhmpReadDir (h : Tree s kids) (hsearch : searchDHash s path = some (some i))
    (hdir : (s.inodes i).isDirectories = true) :
    ∃ l, DhmpFs.dhmpReadDir s path = some l ∧
      l.Perm ((kids i).map fun j => (s.names j, (s.inodes j).isDirectories)) := by
  obtain ⟨l, hread, hp⟩ := readSons_spec (h.forest.chain i) (h.sons_length_le i) []
  refine ⟨l, ?_, by simpa [Fs.names] using hp⟩
  unfold DhmpFs.dhmpReadDir
  by_cases hlen : path.length = 1
  · obtain rfl : rootId = i := by simpa [searchDHash, hlen] using hsearch
    simpa [hlen, Fs.son] using hread
  · simpa [hlen, hsearch, hdir, Fs.son] using hread

end Tree

namespace Sim

variable {s : Fs} {kids : InodeId → List InodeId} {t : NameTree Str} {p : List Str} {c : Str}
  {i : InodeId}

/-- Listing a directory at the end of a path. -/
theorem dhmpReadDir (h : Sim s kids t) (hl : Legal t p) (hfit : FitsName p)
    (hi : PathTo kids s.names rootId p i) (hdir : (s.inodes i).isDirectories = true) :
    ∃ l, DhmpFs.dhmpReadDir s (pathOf p) = some l ∧
      l.Perm ((kids i).map fun j => (s.names j, (s.inodes j).isDirectories)) := by
  obtain ⟨r, hr, hwalk, -⟩ := h.walk hl
  obtain rfl := (hwalk i).mpr hi
  exact h.tree.dhmpReadDir ((searchDHash_pathOf hl.canonical hfit).trans hr) hdir

/-- What can be observed is the tree. -/
theorem refines (h : Sim s kids t) : Refines s t := by
  constructor
  · intro p hl hfit
    obtain ⟨r, hr, -, hk⟩ := h.walk hl
    exact ⟨r, by rw [searchDHash_pathOf hl.canonical hfit, hr], hk⟩
  · intro p hl hfit hk
    obtain ⟨i, hi, hdir⟩ := (h.kind p true).mp hk
    obtain ⟨l, hread, hp⟩ := h.dhmpReadDir hl hfit hi hdir
    refine ⟨l, hread, ?_, fun c k => ?_⟩
    · have hnames := hp.map Prod.fst
      rw [List.map_map] at hnames
      exact hnames.nodup_iff.mpr (h.exact.names_nodup h.tree i)
    · have hunique := h.exact.names_nodup h.tree
      simp only [hp.mem_iff, List.mem_map, Prod.mk.injEq, h.kind, PathTo.snoc_iff]
      constructor
      · rintro ⟨j, hj, hname, hk⟩
        exact ⟨j, ⟨i, hi, hj, hname⟩, hk⟩
      · rintro ⟨j, ⟨d, hd, hj, hname⟩, hk⟩
        obtain rfl := hi.node_unique hunique hd
        exact ⟨j, hj, hname, hk⟩

/-! ## The steps -/

theorem in_tree (hi : PathTo kids s.names rootId p i) : Tree.In kids i := by
  cases hi with
  | root => exact .inl rfl
  | son _ hk => exact .inr ⟨_, hk⟩

theorem path_unique (h : Sim s kids t) {q : List Str} (hp : PathTo kids s.names rootId p i)
    (hq : PathTo kids s.names rootId q i) : p = q :=
  hp.path_unique h.tree.forest.father h.tree.root_kids hq

/-- What a directory finds under a name is what the path extended by the name leads to. -/
theorem get_eq_some (h : Sim s kids t) {father : InodeId} {d : HashMap InodeId InodeId}
    (hp : PathTo kids s.names rootId p father) (hd : (s.inodes father).dHash = some d) :
    d.get s.names c = some i ↔ PathTo kids s.names rootId (p ++ [c]) i := by
  rw [h.exact.get_eq_some h.tree hd, PathTo.snoc_iff]
  constructor
  · rintro ⟨hk, hname⟩
    exact ⟨father, hp, hk, hname⟩
  · rintro ⟨e, he, hk, hname⟩
    obtain rfl := hp.node_unique (h.exact.names_nodup h.tree) he
    exact ⟨hk, hname⟩

theorem get_eq_none (h : Sim s kids t) {father : InodeId} {d : HashMap InodeId InodeId}
    (hp : PathTo kids s.names rootId p father) (hd : (s.inodes father).dHash = some d) :
    d.get s.names c = none ↔ t.kind (p ++ [c]) = none := by
  rw [h.kind_eq_none, Option.eq_none_iff_forall_ne_some]
  simp only [ne_eq, h.get_eq_some hp hd]

theorem created (h : Sim s kids t) {s1 : Fs} {father now : InodeId}
    {d d' : HashMap InodeId InodeId} {isDir : Bool} (hp : Picked s s1 now)
    (hpath : PathTo kids s.names rootId p father) (hd : (s.inodes father).dHash = some d)
    (free : d.get s.names c = none)
    (hput : d.put (Function.update s.names now c) now (some now) = some d') :
    Sim (DhmpFs.created s1 father now isDir c d')
      (Function.update kids father (now :: kids father)) (t.create p c isDir).1 ∧
      (t.create p c isDir).2 = true := by
  have hdir : (s.inodes father).isDirectories = true := (h.tree.dHash_iff father).mp (by simp [hd])
  have hne : father ≠ now := by
    rintro rfl
    simp [(h.tree.spare _ hp.spare).1] at hdir
  have hnew : ∀ {q}, ¬ PathTo kids s.names rootId q now := fun hq =>
    h.tree.not_spare (in_tree hq) hp.spare
  have hfree := (h.get_eq_none hpath hd).mp free
  obtain ⟨hok, hkind⟩ :=
    NameTree.create_of_free isDir (hdir ▸ h.kind_eq hpath) hfree
  refine ⟨⟨owned_created h.owned hp isDir, tree_created h.tree hp hd hput,
    exact_created h.exact h.tree hp hd free hput, fun q k => ?_⟩, hok⟩
  have hpaths : ∀ i, PathTo (Function.update kids father (now :: kids father))
      (DhmpFs.created s1 father now isDir c d').names rootId q i ↔
      PathTo kids s.names rootId q i ∨ i = now ∧ q = p ++ [c] := by
    intro i
    rw [created_names c d' hp isDir hne, PathTo.insert_iff (fun e => h.tree.spare_kids hp.spare e)
      (h.tree.kids_spare hp.spare) (h.tree.spare_ne_root hp.spare) hne.symm]
    refine or_congr_right (and_congr_right fun _ => ?_)
    constructor
    · rintro ⟨q', rfl, hq⟩
      rw [h.path_unique hq hpath]
    · rintro rfl
      exact ⟨p, rfl, hpath⟩
  have hkinds : ∀ i, i ≠ now → ((DhmpFs.created s1 father now isDir c d').inodes i).isDirectories =
      (s.inodes i).isDirectories := by
    intro i hi
    by_cases hf : i = father
    · rw [hf, created_father c d' hp isDir hne]
    · rw [created_other c d' hp isDir hi hf]
  have hnow : ((DhmpFs.created s1 father now isDir c d').inodes now).isDirectories = isDir := by
    rw [created_now c d' hp isDir hne]
  rw [hkind]
  simp only [hpaths]
  by_cases hq : q = p ++ [c]
  · subst hq
    have hnone := h.kind_eq_none.mp hfree
    simp [hnone, hnow]
  · rw [Function.update_of_ne hq, h.kind]
    refine exists_congr fun i => ?_
    simp only [hq, and_false, or_false]
    refine and_congr_right fun hi => ?_
    rw [hkinds i]
    rintro rfl
    exact hnew hi

theorem deleted (h : Sim s kids t) {s' : Fs} {father toDel : InodeId} {l : List InodeId}
    {d : HashMap InodeId InodeId} (hpath : PathTo kids s.names rootId p father)
    (hd : (s.inodes father).dHash = some d) (found : d.get s.names c = some toDel)
    (w : Deleted s kids father toDel c l s') :
    Sim s' (remaining kids father toDel l) (t.delete p c).1 ∧ (t.delete p c).2 = true := by
  have hdelPath := (h.get_eq_some hpath hd).mp found
  obtain ⟨hdel, hname⟩ := (h.exact.get_eq_some h.tree hd).mp found
  obtain ⟨hok, hkind⟩ := NameTree.delete_of_some (t := t) (p := p) (c := c)
    (by simp [h.kind_eq hdelPath])
  refine ⟨⟨w.owned, tree_deleted h.tree hdel hname w, exact_deleted h.exact h.tree hdel hname w,
    fun q k => ?_⟩, hok⟩
  have hroot : rootId ∉ l := by
    intro hr
    obtain ⟨d, hk⟩ := w.in_kids hdel hr
    exact h.tree.root_kids d hk
  have hclosed : ∀ d ∈ l, ∀ i ∈ kids d, i ∈ l := by
    intro d hd i hi
    rw [w.mem_iff] at hd ⊢
    rcases hd with rfl | hb
    · exact .inr (.single hi)
    · exact .inr (hb.tail hi)
  have hkinds : ∀ i, i ∉ l → (s'.inodes i).isDirectories = (s.inodes i).isDirectories := by
    intro i hi
    by_cases hf : i = father
    · subst hf
      obtain ⟨_, _, _, _, _, heq⟩ := w.inodes_father
      rw [heq]
    · rw [w.inodes_ne i hi hf]
  -- the recycled inodes are the ones below the path
  have hbelow : ∀ i, PathTo kids s.names rootId q i → (i ∈ l ↔ p ++ [c] <+: q) := by
    intro i hi
    rw [w.mem_iff, PathTo.prefix_iff (h.exact.names_nodup h.tree) h.tree.forest.father
      h.tree.root_kids hdelPath hi]
  rw [hkind]
  simp only [PathTo.remove_iff (fun d i => mem_remaining h.tree hdel w) (fun i hi => w.names hi)
    hclosed hroot]
  by_cases hq : p ++ [c] <+: q
  · simp only [hq, if_true, reduceCtorEq, false_iff]
    rintro ⟨i, ⟨hi, hil⟩, -⟩
    exact hil ((hbelow i hi).mpr hq)
  · rw [if_neg hq, h.kind]
    refine exists_congr fun i => ?_
    constructor
    · rintro ⟨hi, hk⟩
      have hil : i ∉ l := fun hil => hq ((hbelow i hi).mp hil)
      exact ⟨⟨hi, hil⟩, (hkinds i hil).trans hk⟩
    · rintro ⟨⟨hi, hil⟩, hk⟩
      exact ⟨hi, (hkinds i hil).symm.trans hk⟩

end Sim

theorem Legal.father {t : NameTree Str} {p : List Str} {c : Str} (hl : Legal t (p ++ [c])) :
    Legal t p ∧ (t.kind p ≠ none → t.kind p = some true) := by
  refine ⟨⟨fun x hx => hl.canonical x (by simp [hx]), fun q hq hne => ?_⟩,
    hl.dirs p (List.prefix_append _ _) (by simp)⟩
  refine hl.dirs q (hq.trans (List.prefix_append _ _)) ?_
  rintro rfl
  have := hq.length_le
  simp at this

theorem length_lt_absolute {p : List Str} {c : Str} (hc : c ∈ p) :
    c.length < (absolute p).length := by
  induction p with
  | nil => simp at hc
  | cons a p ih =>
    rcases List.mem_cons.mp hc with rfl | hc
    · simp only [absolute_cons, List.length_cons, List.length_append]
      omega
    · have := ih hc
      simp only [absolute_cons, List.length_cons, List.length_append]
      omega

namespace Sim

variable {s : Fs} {kids : InodeId → List InodeId} {t : NameTree Str} {op : NsOp}

/-- Cutting the path and looking the father up. -/
theorem father (h : Sim s kids t) (op : NsOp) (hl : Legal t (op.dir ++ [op.name]))
    (hlen : op.path.length ≤ fileNameLen) :
    ∃ dirname r, op.path.length ≠ 1 ∧ deal op.path = some (dirname, op.name) ∧
      searchDHash s dirname = some r ∧
      ∀ i, r = some i ↔ PathTo kids s.names rootId op.dir i := by
  have hc : Canonical op.name := hl.canonical _ (by simp)
  have hfit : FitsName op.dir := by
    intro c hc
    have := length_lt_absolute hc
    rw [NsOp.path, pathOf_snoc, List.length_append] at hlen
    omega
  obtain ⟨hl', -⟩ := hl.father
  obtain ⟨r, hr, hi, -⟩ := h.walk hl'
  exact ⟨_, r, by simp [NsOp.path, length_pathOf_eq_one hl.canonical], deal_pathOf hc hlen,
    (searchDHash_dirname hl'.canonical hfit).trans hr, hi⟩

/-- The father of a legal path is a directory. -/
theorem father_dHash (h : Sim s kids t) (op : NsOp) (hl : Legal t (op.dir ++ [op.name]))
    {father : InodeId} (hp : PathTo kids s.names rootId op.dir father) :
    t.kind op.dir = some true ∧ (s.inodes father).isDirectories = true ∧
      ∃ d, (s.inodes father).dHash = some d := by
  have hk := h.kind_eq hp
  have hdir := hl.father.2 (by simp [hk])
  rw [hk, Option.some.injEq] at hdir
  exact ⟨by rw [hk, hdir], hdir,
    Option.ne_none_iff_exists'.mp ((h.tree.dHash_iff father).mpr hdir)⟩

/-- The common end of the two creations. -/
theorem newNode (h : Sim s kids t) (isDir : Bool) {p : List Str} {c : Str} {father : InodeId}
    {d : HashMap InodeId InodeId} (hp : PathTo kids s.names rootId p father)
    (hd : (s.inodes father).dHash = some d) (free : d.get s.names c = none)
    (hnums : (s.inodes father).sonNums < intMax) (hsize : d.size + 1 < HashMap.maxEntries) :
    ∃ s' kids', (if isDir then newDirectory s father c else newFile s father c) = some s' ∧
      Sim s' kids' (t.create p c isDir).1 ∧ (t.create p c isDir).2 = true := by
  have hpick := getFreeInode_spec h.tree
  have hold : ∀ j ∈ kids father,
      Function.update s.names (getFreeInode s).2 c j = s.names j := by
    intro j hj
    refine Function.update_of_ne ?_ _ _
    rintro rfl
    exact h.tree.spare_kids hpick.spare father hj
  have hv := ((h.tree.hash father d hd).congr hold).valid
  obtain ⟨d', hput, -⟩ := HashMap.put_isSome hv (getFreeInode s).2 (some (getFreeInode s).2) hsize
  refine ⟨_, _, ?_, h.created hpick hp hd free hput⟩
  rw [newNode_eq h.tree isDir hd, if_neg (by omega), hput, Option.map_some]

theorem dhmpMknod {p : List Str} {c : Str} (h : Sim s kids t) (hl : Legal t (p ++ [c]))
    (hfit : (NsOp.mknod p c).Fits s) :
    ∃ s' kids', DhmpFs.dhmpMknod s (NsOp.mknod p c).path =
        some (s', result (t.create p c false).2) ∧ Sim s' kids' (t.create p c false).1 := by
  obtain ⟨hlen, hroom⟩ := hfit
  obtain ⟨dirname, r, hlen', hdeal, hsearch, hi⟩ := h.father (.mknod p c) hl hlen
  simp only [NsOp.dir, NsOp.name] at hdeal hi
  unfold DhmpFs.dhmpMknod
  simp only [hlen', if_false, hdeal, hsearch, Option.bind_eq_bind, Option.bind_some]
  cases r with
  | none =>
    have hk := h.kind_eq_none.mpr fun i hp => by simpa using (hi i).mpr hp
    rw [NameTree.create_of_not fun hfree => by simp [hk] at hfree]
    exact ⟨s, kids, rfl, h⟩
  | some father =>
    have hp := (hi father).mp rfl
    obtain ⟨-, -, d, hd⟩ := h.father_dHash (.mknod p c) hl hp
    simp only [hd, Option.bind_some]
    cases hg : d.get s.names c with
    | some i =>
      have hk := (h.get_eq_none (c := c) hp hd).not.mp (by simp [hg])
      rw [NameTree.create_of_not fun hfree => hk hfree.2]
      exact ⟨s, kids, rfl, h⟩
    | none =>
      obtain ⟨hnums, hsize⟩ := hroom father d ⟨dirname, hdeal, hsearch, hd⟩ hg
      obtain ⟨s', kids', hnew, hsim, hok⟩ := h.newNode false hp hd hg hnums hsize
      rw [if_neg (by decide)] at hnew
      exact ⟨s', kids', by simp [hnew, hok, result], hsim⟩

theorem dhmpCreateDirectory {p : List Str} {c : Str} (h : Sim s kids t) (hl : Legal t (p ++ [c]))
    (hfit : (NsOp.mkdir p c).Fits s) :
    ∃ s' kids', DhmpFs.dhmpCreateDirectory s (NsOp.mkdir p c).path =
        some (s', result (t.create p c true).2) ∧ Sim s' kids' (t.create p c true).1 := by
  obtain ⟨hlen, hroom⟩ := hfit
  obtain ⟨dirname, r, hlen', hdeal, hsearch, hi⟩ := h.father (.mkdir p c) hl hlen
  simp only [NsOp.dir, NsOp.name] at hdeal hi
  unfold DhmpFs.dhmpCreateDirectory
  simp only [hlen', if_false, hdeal, hsearch, Option.bind_eq_bind, Option.bind_some]
  cases r with
  | none =>
    have hk := h.kind_eq_none.mpr fun i hp => by simpa using (hi i).mpr hp
    rw [NameTree.create_of_not fun hfree => by simp [hk] at hfree]
    exact ⟨s, kids, rfl, h⟩
  | some father =>
    have hp := (hi father).mp rfl
    obtain ⟨-, hdir, d, hd⟩ := h.father_dHash (.mkdir p c) hl hp
    simp only [hdir, hd, Option.bind_some, Bool.true_eq_false, if_false]
    cases hg : d.get s.names c with
    | some i =>
      have hk := (h.get_eq_none (c := c) hp hd).not.mp (by simp [hg])
      rw [NameTree.create_of_not fun hfree => hk hfree.2]
      exact ⟨s, kids, rfl, h⟩
    | none =>
      obtain ⟨hnums, hsize⟩ := hroom father d ⟨dirname, hdeal, hsearch, hd⟩ hg
      obtain ⟨s', kids', hnew, hsim, hok⟩ := h.newNode true hp hd hg hnums hsize
      rw [if_pos rfl] at hnew
      exact ⟨s', kids', by simp [hnew, hok, result], hsim⟩

theorem dhmpDelete {p : List Str} {c : Str} (h : Sim s kids t) (hl : Legal t (p ++ [c]))
    (hlen : (NsOp.delete p c).path.length ≤ fileNameLen) :
    ∃ s' kids', DhmpFs.dhmpDelete s (NsOp.delete p c).path =
        some (s', result (t.delete p c).2) ∧ Sim s' kids' (t.delete p c).1 := by
  obtain ⟨dirname, r, hlen', hdeal, hsearch, hi⟩ := h.father (.delete p c) hl hlen
  simp only [NsOp.dir, NsOp.name] at hdeal hi
  unfold DhmpFs.dhmpDelete dhmpDelFromInode
  simp only [hlen', if_false, hdeal, hsearch, Option.bind_eq_bind, Option.bind_some]
  cases r with
  | none =>
    have hk : t.kind (p ++ [c]) = none := by
      rw [h.kind_eq_none]
      intro i hp
      obtain ⟨d, hd, -⟩ := PathTo.snoc_iff.mp hp
      simpa using (hi d).mpr hd
    rw [NameTree.delete_of_none hk]
    exact ⟨s, kids, rfl, h⟩
  | some father =>
    have hp := (hi father).mp rfl
    obtain ⟨-, hdir, d, hd⟩ := h.father_dHash (.delete p c) hl hp
    simp only [hdir, hd, Option.bind_some, Bool.true_eq_false, if_false]
    cases hg : d.get s.names c with
    | none =>
      rw [NameTree.delete_of_none ((h.get_eq_none hp hd).mp hg)]
      exact ⟨s, kids, rfl, h⟩
    | some toDel =>
      obtain ⟨s', l, hs, w⟩ := removeSon_spec h.tree h.owned hd hg
      obtain ⟨hsim, hok⟩ := h.deleted hp hd hg w
      exact ⟨s', _, by simp [hs, hok, result], hsim⟩

/-- A legal operation that fits returns what the tree says. -/
theorem step (h : Sim s kids t) (hl : Legal t (op.dir ++ [op.name])) (hfit : op.Fits s) :
    ∃ s' kids', op.run s = some (s', result (op.spec t).2) ∧ Sim s' kids' (op.spec t).1 := by
  cases op with
  | mknod p c => exact h.dhmpMknod hl hfit
  | mkdir p c => exact h.dhmpCreateDirectory hl hfit
  | delete p c => exact h.dhmpDelete hl hfit.1

end Sim

/-! ## Runs -/

/-- The states of runs whose operations fit. -/
theorem sim_run {bank : Nat → Nat → UInt8} {ops : List NsOp} {s : Fs} {t : NameTree Str}
    (h : Run (guarded (fun st op => op.Fits st.1) NsStep) (dhmpInit bank, .empty Str) ops (s, t)) :
    ∃ kids, Sim s kids t := by
  refine h.invariant (fun st => ∃ kids, Sim st.1 kids st.2) ?_ ⟨_, .dhmpInit bank⟩
  rintro ⟨s, t⟩ op ⟨s', t'⟩ ⟨kids, hsim⟩ ⟨hfit, hl, ⟨res, hrun⟩, ht⟩
  obtain ⟨s'', kids', hrun', hsim'⟩ := hsim.step hl hfit
  obtain ⟨rfl, -⟩ := Prod.mk.inj (Option.some.inj (hrun.symm.trans hrun'))
  exact ⟨kids', ht ▸ hsim'⟩

/-- In every run whose operations fit, the file system refines the tree of names, and the next
operation that fits returns what it returns on the tree and keeps the refinement. -/
theorem namespace_run {bank : Nat → Nat → UInt8} {ops : List NsOp} {s : Fs} {t : NameTree Str}
    (h : Run (guarded (fun st op => op.Fits st.1) NsStep) (dhmpInit bank, .empty Str) ops (s, t)) :
    Refines s t ∧ ∀ op : NsOp, Legal t (op.dir ++ [op.name]) → op.Fits s →
      ∃ s', op.run s = some (s', result (op.spec t).2) ∧ Refines s' (op.spec t).1 := by
  obtain ⟨kids, hsim⟩ := sim_run h
  refine ⟨hsim.refines, fun op hl hfit => ?_⟩
  obtain ⟨s', kids', hrun, hsim'⟩ := hsim.step hl hfit
  exact ⟨s', hrun, hsim'.refines⟩

/-- A file is created in a new directory. -/
theorem namespace_run_mknod :
    Refines ([NsOp.mkdir [] [97], .mknod [[97]] [98]].foldl NsOp.next
      (dhmpInit fun _ _ => 0, .empty Str)).1 ([NsOp.mkdir [] [97], .mknod [[97]] [98]].foldl
      NsOp.next (dhmpInit fun _ _ => 0, .empty Str)).2 := by
  have fitsDir : (NsOp.mkdir [] [97]).Fits (dhmpInit fun _ _ => 0) := by
    refine ⟨by decide, fun father d name _ => ?_⟩
    obtain ⟨-, hf, hd⟩ := (resolves_iff rfl rfl).mp name
    obtain rfl : rootId = father := Option.some.inj hf
    obtain rfl := Option.some.inj hd
    exact ⟨by decide, by decide⟩
  have fitsFile : (NsOp.mknod [[97]] [98]).Fits
      ((NsOp.mkdir [] [97]).next (dhmpInit fun _ _ => 0, .empty Str)).1 := by
    refine ⟨by decide, fun father d name _ => ?_⟩
    obtain ⟨-, hf, hd⟩ := (resolves_iff rfl rfl).mp name
    obtain rfl : 1 = father := Option.some.inj hf
    obtain rfl := Option.some.inj hd
    exact ⟨by decide, by decide⟩
  have run : Run (guarded (fun st op => op.Fits st.1) NsStep)
      (dhmpInit fun _ _ => 0, .empty Str) [.mkdir [] [97], .mknod [[97]] [98]] _ :=
    .cons ⟨fitsDir, .next (by decide) rfl⟩ (.single ⟨fitsFile, .next (by decide) rfl⟩)
  exact (namespace_run run).1

/-- A longer path overruns the buffers of `deal`, whatever the operation. -/
theorem NsOp.run_of_long (s : Fs) {op : NsOp} (hlen : fileNameLen < op.path.length) :
    op.run s = none := by
  have hdeal : deal op.path = none := if_pos (.inl hlen)
  have hone : op.path.length ≠ 1 := Nat.ne_of_gt (Nat.lt_trans (by decide) hlen)
  cases op <;>
    simp [run, dhmpMknod, dhmpCreateDirectory, dhmpDelete, hdeal, hone]

/-- Three nested directories with names of 250 bytes: the path of the third overruns the
buffers of `deal`. -/
theorem not_namespace_nested :
    ¬ ∀ (bank : Nat → Nat → UInt8) (ops : List NsOp) (s : Fs) (t : NameTree Str),
      Run NsStep (dhmpInit bank, .empty Str) ops (s, t) →
        Refines s t ∧ ∀ op : NsOp, Legal t (op.dir ++ [op.name]) →
          ∃ s', op.run s = some (s', result (op.spec t).2) ∧ Refines s' (op.spec t).1 := by
  intro h
  have run : Run NsStep (dhmpInit fun _ _ => 0, .empty Str)
      [.mkdir [] (List.replicate 250 97), .mkdir [List.replicate 250 97] (List.replicate 250 98)]
      _ := .cons (.next (by decide +kernel) (by decide +kernel))
        (.single (.next (by decide +kernel) (by decide +kernel)))
  obtain ⟨s', hs, -⟩ := (h _ _ _ _ run).2
    (.mkdir [List.replicate 250 97, List.replicate 250 98] (List.replicate 250 99))
    (by decide +kernel)
  exact absurd (hs.symm.trans (NsOp.run_of_long _ (by decide +kernel))) (Option.some_ne_none _)

end DhmpFs
