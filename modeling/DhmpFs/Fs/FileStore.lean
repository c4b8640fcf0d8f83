import DhmpFs.Fs.Namespace
import DhmpFs.Fs.StatSize
import DhmpFs.Fs.Handles
import DhmpFs.Fs.Sparse

/-!
# The file system as a store of files

The operations on canonical paths refine a finite tree of names whose files carry bytes: a file is
opened, written and read at its path, and creations and deletions elsewhere do not touch it. Bytes
that were never written are left open; a read ends where a chunk has no more data.

## Main definitions

* `FileStore`: the tree, and the bytes of its files.
* `StoreOp`: the operations, with their meaning on a `FileStore`.
* `StoreOp.Fits`: the condition under which the file system agrees.
* `StoreRefines`: what can be observed of the file system is the store.
-/

namespace DhmpFs

open Library

/-! ## The store -/

/-- A tree of names, and the bytes at the paths of its files. -/
structure FileStore where
  tree : NameTree Str
  content : List Str → Content

/-- Only the root. -/
def FileStore.empty : FileStore := ⟨.empty Str, fun _ _ => none⟩

/-- A creation or deletion, or a file is opened at its path and written. -/
inductive StoreOp where
  | name (op : NsOp)
  | write (p : List Str) (buf : List UInt8) (offset : Nat)

/-- The bytes after a creation or deletion: a new file has none. -/
def NsOp.content (op : NsOp) (st : FileStore) : List Str → Content :=
  match op with
  | .mknod p c =>
    if (st.tree.create p c false).2 then Function.update st.content (p ++ [c]) fun _ => none
    else st.content
  | _ => st.content

namespace StoreOp

/-- `dhmp_fs_open` and `dhmp_fs_write` through the handle it gives. -/
def run (s : Fs) : StoreOp → Option (Fs × Int)
  | name op => op.run s
  | write p buf offset =>
    match dhmpFsOpen s (pathOf p) with
    | none => none
    | some none => some (s, -1)
    | some (some fh) => dhmpFsWrite s fh buf offset

/-- The operation on the store, and its result. -/
def spec (st : FileStore) : StoreOp → FileStore × Int
  | name op => (⟨(op.spec st.tree).1, op.content st⟩, result (op.spec st.tree).2)
  | write p buf offset =>
    if st.tree.kind p = some false then
      ({ st with content := Function.update st.content p (patch (st.content p) offset buf) },
        toInt buf.length)
    else (st, -1)

/-- The path of the operation is one the kernel passes. -/
def Legal (st : FileStore) : StoreOp → Prop
  | name op => DhmpFs.Legal st.tree (op.dir ++ [op.name])
  | write p _ _ => DhmpFs.Legal st.tree p

instance (st : FileStore) (op : StoreOp) : Decidable (op.Legal st) :=
  match op with
  | name op => inferInstanceAs (Decidable (DhmpFs.Legal st.tree (op.dir ++ [op.name])))
  | write p _ _ => inferInstanceAs (Decidable (DhmpFs.Legal st.tree p))

/-- The names fit the buffers, and there is room: in the father for a creation, in the largest
file and in the pool for a write. -/
def Fits (s : Fs) : StoreOp → Prop
  | name op => op.Fits s
  | write p buf offset => FitsName p ∧
      ∀ fh, dhmpFsOpen s (pathOf p) = some (some fh) → (s.inodes fh).isDirectories = false →
        ¬ Unmappable s fh offset buf.length

end StoreOp

/-- The file system and the store after an operation that returns. -/
def StoreStep (x : Fs × FileStore) (op : StoreOp) (y : Fs × FileStore) : Prop :=
  op.Legal x.2 ∧ (∃ res, op.run x.1 = some (y.1, res)) ∧ y.2 = (op.spec x.2).1

/-- The state after an operation that returns. -/
def StoreOp.next (x : Fs × FileStore) (op : StoreOp) : Fs × FileStore :=
  (((op.run x.1).map Prod.fst).getD x.1, (op.spec x.2).1)

theorem StoreStep.next {x : Fs × FileStore} {op : StoreOp} (legal : op.Legal x.2)
    (returns : (op.run x.1).isSome = true) : StoreStep x op (op.next x) := by
  obtain ⟨⟨s', res⟩, hr⟩ := Option.isSome_iff_exists.mp returns
  exact ⟨legal, ⟨res, by simp [StoreOp.next, hr]⟩, rfl⟩

/-- The bytes of a read of `k` bytes at `o`: those written, up to the first position without
data. -/
structure ReadsWritten (a : Content) (o k : Nat) (bytes : List UInt8) : Prop where
  le : bytes.length ≤ k
  inData : ∀ i < bytes.length, InData a (o + i)
  written : ∀ i < bytes.length, ∀ v, a (o + i) = some v → bytes[i]? = some v
  stop : bytes.length < k → ¬ InData a (o + bytes.length)

/-- An offset that is not behind the data of its chunk. -/
def NotBehind (a : Content) (o : Nat) : Prop :=
  chunkEnd a (o / chunkSize) = 0 ∨ o % chunkSize ≤ chunkEnd a (o / chunkSize)

/-- Lookups and listings agree with the tree, `stat` and `read` with the bytes of the files. -/
structure StoreRefines (s : Fs) (st : FileStore) : Prop where
  names : Refines s st.tree
  stat : ∀ p, Legal st.tree p → FitsName p → st.tree.kind p = some false → ∀ attr m,
    (∀ q, st.content p q ≠ none → q < m * chunkSize) →
      dhmpFsGetattr s (pathOf p) attr =
        some (0, some ⟨regMode, toInt (∑ j ∈ Finset.range m, chunkEnd (st.content p) j), 1, 0, 0, 0⟩)
  read : ∀ p, Legal st.tree p → FitsName p → st.tree.kind p = some false → ∀ o k,
    NotBehind (st.content p) o → ∃ fh bytes, dhmpFsOpen s (pathOf p) = some (some fh) ∧
      dhmpFsRead s fh k o = some (bytes, toInt bytes.length) ∧
      ReadsWritten (st.content p) o k bytes

/-! ## The simulation -/

/-- The file system simulates the tree, and every file carries its bytes. -/
structure StoreSim (s : Fs) (kids : InodeId → List InodeId) (st : FileStore) : Prop where
  sim : Sim s kids st.tree
  holds : ∀ p i, PathTo kids s.names rootId p i → (s.inodes i).isDirectories = false →
    Holds s i (st.content p)
  lt : ∀ p q, st.content p q ≠ none → q < sizeThirdDirectEnd

/-- Files that keep their index over an operation on names keep their bytes. -/
theorem Holds.names {s s' : Fs} {i : InodeId} {a : Content} (h : Holds s i a) (o : Owned s)
    (o' : Owned s') (hkeep : KeepsContexts s s') (hbank : s'.bank = s.bank)
    (hindex : (s'.inodes i).cntId = (s.inodes i).cntId) : Holds s' i a := by
  have hcontext : ∀ slot c, (s.inodes i).cntId.get slot = some c →
      s'.contextAddr c = s.contextAddr c :=
    fun slot c hget => (hkeep.get o o' (hindex ▸ hget)).2
  refine ⟨hindex ▸ h.slots, hindex ▸ h.hole, fun j c hget => ?_, fun j c hget k hk b hb => ?_⟩
  · rw [hindex] at hget
    rw [hcontext _ c hget]
    exact h.size j c hget
  · rw [hindex] at hget
    rw [chunkByte, hbank]
    exact h.byte j c hget k hk b hb

namespace NsOp

/-- The operation as FUSE asks for it. -/
def toFsOp : NsOp → FsOp
  | mknod p c => .mknod (mknod p c).path
  | mkdir p c => .mkdir (mkdir p c).path
  | delete p c => .unlink (delete p c).path

variable {s s' : Fs} {op : NsOp} {res : Int}

theorem onNames (op : NsOp) : op.toFsOp.OnNames := by
  cases op <;> trivial

theorem fsStep (hr : op.run s = some (s', res)) : FsStep s op.toFsOp s' := by
  cases op with
  | mknod p c =>
    have hr : dhmpMknod s (mknod p c).path = some (s', res) := hr
    exact ⟨trivial, _, congrArg (Option.map _) hr⟩
  | mkdir p c =>
    have hr : dhmpCreateDirectory s (mkdir p c).path = some (s', res) := hr
    exact ⟨trivial, _, congrArg (Option.map _) hr⟩
  | delete p c =>
    have hr : dhmpDelete s (delete p c).path = some (s', res) := hr
    exact ⟨trivial, _, congrArg (Option.map _) hr⟩

end NsOp

/-- The chains of a state determine its tree. -/
theorem Tree.kids_unique {s : Fs} {kids kids' : InodeId → List InodeId} (h : Tree s kids)
    (h' : Tree s kids') : kids' = kids :=
  funext fun d => (h'.forest.chain d).unique (h.forest.chain d)

namespace Sim

variable {s s' : Fs} {kids kids' : InodeId → List InodeId} {t : NameTree Str} {op : NsOp}
  {p : List Str} {i father : InodeId} {d : HashMap InodeId InodeId}

/-- The father and the name that a legal path resolves to. -/
theorem resolves (h : Sim s kids t) (hl : Legal t (op.dir ++ [op.name]))
    (hlen : op.path.length ≤ fileNameLen) {c : Str} (name : Resolves s op.path father c d) :
    c = op.name ∧ PathTo kids s.names rootId op.dir father := by
  obtain ⟨dirname, r, -, hdeal, hsearch, hpath⟩ := h.father op hl hlen
  obtain ⟨rfl, hr, -⟩ := (resolves_iff hdeal hsearch).mp name
  exact ⟨rfl, (hpath father).mp hr⟩

/-- What is at the end of a path after an operation: what was there, with its data, or a new node
without data at the path of the operation. -/
structure Stays (s s' : Fs) (kids : InodeId → List InodeId) (p : List Str) (i : InodeId) : Prop where
  path : PathTo kids s.names rootId p i
  index : (s'.inodes i).cntId = (s.inodes i).cntId
  isDirectories : (s'.inodes i).isDirectories = (s.inodes i).isDirectories

theorem created_stays (h : Sim s kids t) {s1 : Fs} {now : InodeId} {c : Str}
    {d' : HashMap InodeId InodeId} {isDir : Bool} (hp : Picked s s1 now)
    (hpath : PathTo kids s.names rootId op.dir father) (hd : (s.inodes father).dHash = some d)
    (free : d.get s.names c = none)
    (hi : PathTo (Function.update kids father (now :: kids father))
      (DhmpFs.created s1 father now isDir c d').names rootId p i) :
    Stays s (DhmpFs.created s1 father now isDir c d') kids p i ∨
      p = op.dir ++ [c] ∧ t.kind p = none ∧
        ((DhmpFs.created s1 father now isDir c d').inodes i).context = [] := by
  have hdir : (s.inodes father).isDirectories = true := (h.tree.dHash_iff father).mp (by simp [hd])
  have hne := hp.father_ne h.tree hdir
  rw [created_names c d' hp isDir hne, PathTo.insert_iff (fun e => h.tree.spare_kids hp.spare e)
    (h.tree.kids_spare hp.spare) (h.tree.spare_ne_root hp.spare) hne.symm] at hi
  rcases hi with hold | ⟨rfl, q, rfl, hq⟩
  · left
    have hnow : i ≠ now := by
      rintro rfl
      exact h.tree.not_spare (in_tree hold) hp.spare
    by_cases hf : i = father
    · subst hf
      exact ⟨hold, by rw [created_father c d' hp isDir hne], by
        rw [created_father c d' hp isDir hne]⟩
    · have hsame := created_other c d' hp isDir hnow hf
      exact ⟨hold, congrArg Inode.cntId hsame, congrArg Inode.isDirectories hsame⟩
  · right
    obtain rfl := h.path_unique hq hpath
    refine ⟨rfl, (h.get_eq_none hpath hd).mp free, ?_⟩
    rw [created_now c d' hp isDir hne]
    exact hp.context

theorem deleted_stays (h : Sim s kids t) {toDel : InodeId} {c : Str} {l : List InodeId}
    (hdel : toDel ∈ kids father) (w : Deleted s kids father toDel c l s')
    (hi : PathTo (remaining kids father toDel l) s'.names rootId p i) : Stays s s' kids p i := by
  have hroot : rootId ∉ l := by
    intro hr
    obtain ⟨e, hk⟩ := w.in_kids hdel hr
    exact h.tree.root_kids e hk
  have hclosed : ∀ e ∈ l, ∀ j ∈ kids e, j ∈ l := by
    intro e he j hj
    rw [w.mem_iff] at he ⊢
    rcases he with rfl | hb
    · exact .inr (.single hj)
    · exact .inr (hb.tail hj)
  obtain ⟨hold, hil⟩ := (PathTo.remove_iff (fun e j => mem_remaining h.tree hdel w)
    (fun j hj => w.names hj) hclosed hroot).mp hi
  refine ⟨hold, ?_, w.isDirectories hil⟩
  by_cases hf : i = father
  · subst hf
    obtain ⟨_, _, _, _, _, heq⟩ := w.inodes_father
    rw [heq]
  · rw [w.inodes_ne i hil hf]

/-- The paths after an operation that returns. -/
theorem path_cases (h : Sim s kids t) (hl : Legal t (op.dir ++ [op.name]))
    (hlen : op.path.length ≤ fileNameLen) {res : Int} (hr : op.run s = some (s', res))
    (h' : Tree s' kids') (hi : PathTo kids' s'.names rootId p i) :
    Stays s s' kids p i ∨
      p = op.dir ++ [op.name] ∧ t.kind p = none ∧ (s'.inodes i).context = [] := by
  have heff := (NsOp.fsStep hr).effect h.tree h.owned
  generalize hop : op.toFsOp = fop at heff
  cases heff with
  | fail =>
    obtain rfl := h.tree.kids_unique h'
    exact .inl ⟨hi, rfl, rfl⟩
  | @create path father now c d d' s1 isDir name free spare put =>
    have hpath : path = op.path := by
      cases op <;> cases isDir <;> simp_all [NsOp.toFsOp]
    subst hpath
    obtain ⟨rfl, hfather⟩ := h.resolves hl hlen name
    obtain ⟨-, -, -, hd⟩ := name
    have hp := getFreeInode_spec h.tree
    rw [spare] at hp
    obtain rfl := (tree_created h.tree hp hd put).kids_unique h'
    exact h.created_stays hp hfather hd free hi
  | delete _ name found deleted =>
    obtain ⟨-, -, -, hd⟩ := name
    obtain ⟨hdel, hname⟩ := (h.tree.hash _ _ hd).get found
    obtain rfl := (tree_deleted h.tree hdel hname deleted).kids_unique h'
    exact .inl (h.deleted_stays hdel deleted hi)
  | rename => cases op <;> simp [NsOp.toFsOp] at hop
  | data => cases op <;> simp [NsOp.toFsOp] at hop

end Sim

namespace StoreSim

variable {s s' : Fs} {kids : InodeId → List InodeId} {st : FileStore} {p : List Str}
  {i : InodeId} {buf : List UInt8} {offset : Nat}

theorem dhmpInit (bank : Nat → Nat → UInt8) :
    StoreSim (dhmpInit bank) (fun _ => []) .empty where
  sim := .dhmpInit bank
  holds p i hi hfile := by
    cases hi with
    | root => exact absurd hfile (by simp [(tree_dhmpInit bank).root_dir])
    | son _ hk => simp at hk
  lt _ _ h := absurd rfl h

/-- Where something was before a creation, the bytes stay; where nothing was, there are none. -/
theorem content_name (op : NsOp) (st : FileStore) :
    (∀ p, st.tree.kind p ≠ none → op.content st p = st.content p) ∧
      ((op.spec st.tree).1.kind (op.dir ++ [op.name]) = some false →
        st.tree.kind (op.dir ++ [op.name]) = none →
          op.content st (op.dir ++ [op.name]) = fun _ => none) := by
  cases op with
  | mknod q c =>
    by_cases hfree : st.tree.kind q = some true ∧ st.tree.kind (q ++ [c]) = none
    · obtain ⟨hok, -⟩ := NameTree.create_of_free false hfree.1 hfree.2
      simp only [NsOp.content, hok, if_true]
      refine ⟨fun p hp => Function.update_of_ne ?_ _ _, fun _ _ => Function.update_self ..⟩
      rintro rfl
      exact hp hfree.2
    · simp only [NsOp.content, NsOp.spec, NameTree.create_of_not hfree]
      exact ⟨fun _ _ => rfl, fun hk hnone => absurd (hnone.symm.trans hk) (by simp)⟩
  | mkdir q c =>
    refine ⟨fun _ _ => rfl, fun hk hnone => ?_⟩
    simp only [NsOp.spec, NsOp.dir, NsOp.name] at hk hnone
    by_cases hfree : st.tree.kind q = some true ∧ st.tree.kind (q ++ [c]) = none
    · obtain ⟨-, hkind⟩ := NameTree.create_of_free true hfree.1 hfree.2
      simp [hkind] at hk
    · simp [NameTree.create_of_not hfree, hnone] at hk
  | delete q c =>
    refine ⟨fun _ _ => rfl, fun hk hnone => ?_⟩
    simp only [NsOp.spec, NsOp.dir, NsOp.name] at hk hnone
    simp [NameTree.delete_of_none hnone, hnone] at hk

/-- A creation or deletion. -/
theorem name (h : StoreSim s kids st) {op : NsOp} (hl : Legal st.tree (op.dir ++ [op.name]))
    (hfit : op.Fits s) : ∃ s' kids', op.run s = some (s', result (op.spec st.tree).2) ∧
      StoreSim s' kids' ⟨(op.spec st.tree).1, op.content st⟩ := by
  obtain ⟨s', kids', hrun, hsim⟩ := h.sim.step hl hfit
  have hstep := NsOp.fsStep hrun
  obtain ⟨hold, hnew⟩ := content_name op st
  refine ⟨s', kids', hrun, hsim, fun p i hi hfile => ?_, fun p q hq => ?_⟩
  · rcases h.sim.path_cases hl hfit.1 hrun hsim.tree hi with hstays | ⟨rfl, hnone, hempty⟩
    · have hkind := h.sim.kind_eq hstays.path
      dsimp only
      rw [hold p (by simp [hkind])]
      apply (h.holds p i hstays.path (hstays.isDirectories ▸ hfile)).names h.sim.owned hsim.owned
      · exact hstep.keepsContexts ⟨h.sim.owned, kids, h.sim.tree⟩ op.onNames
      · obtain ⟨-, res, hres⟩ := hstep
        exact FsOp.run_bank op.onNames hres
      · exact hstays.index
    · dsimp only
      rw [hnew (hfile ▸ hsim.kind_eq hi) hnone]
      exact .empty hsim.owned hempty
  · refine h.lt p q fun hnone => hq ?_
    cases op with
    | mknod r c =>
      simp only [NsOp.content]
      split
      · by_cases hp : p = r ++ [c]
        · rw [hp, Function.update_self]
        · rw [Function.update_of_ne hp, hnone]
      · exact hnone
    | mkdir => exact hnone
    | delete => exact hnone

/-- Opening a legal path. -/
theorem dhmpFsOpen (h : StoreSim s kids st) (hl : Legal st.tree p) (hfit : FitsName p) :
    ∃ r, DhmpFs.dhmpFsOpen s (pathOf p) = some r ∧
      (∀ i, r = some i ↔ PathTo kids s.names rootId p i) ∧
      r.map (fun i => (s.inodes i).isDirectories) = st.tree.kind p := by
  obtain ⟨r, hr, hi, hk⟩ := h.sim.walk hl
  exact ⟨r, (searchDHash_pathOf hl.canonical hfit).trans hr, hi, hk⟩

/-- A write to a file leaves the tree alone. -/
theorem data (h : Sim s kids st.tree) (hi : PathTo kids s.names rootId p i) {res : Int}
    (hw : dhmpFsWrite s i buf offset = some (s', res)) :
    Sim s' kids st.tree ∧ s'.names = s.names ∧
      ∀ j, (s'.inodes j).isDirectories = (s.inodes j).isDirectories := by
  obtain ⟨o, hd⟩ := dhmpFsWrite_spec h.owned hw
  have htree := tree_data h.tree (h.tree.inTree_iff.mpr (Sim.in_tree hi)) hd
  obtain ⟨hne, ⟨size, index, context, heq⟩, -, -⟩ := hd
  have hfields : ∀ j, (s'.inodes j).dHash = (s.inodes j).dHash ∧ s'.names j = s.names j ∧
      (s'.inodes j).isDirectories = (s.inodes j).isDirectories := by
    intro j
    by_cases hj : j = i
    · simp [Fs.names, hj, heq]
    · simp [Fs.names, hne j hj]
  have hnames : s'.names = s.names := funext fun j => (hfields j).2.1
  refine ⟨⟨o, htree, fun d m hm => ?_, fun q k => ?_⟩, hnames, fun j => (hfields j).2.2⟩
  · rw [(hfields d).1] at hm
    exact h.exact d m hm
  · rw [h.kind, hnames]
    simp only [(hfields _).2.2]

/-- A write to the file at a path. -/
theorem write (h : StoreSim s kids st) (hl : Legal st.tree p)
    (hfit : (StoreOp.write p buf offset).Fits s) :
    ∃ s', (StoreOp.write p buf offset).run s =
        some (s', ((StoreOp.write p buf offset).spec st).2) ∧
      StoreSim s' kids ((StoreOp.write p buf offset).spec st).1 := by
  obtain ⟨hname, hroom⟩ := hfit
  obtain ⟨r, hopen, hi, hk⟩ := h.dhmpFsOpen hl hname
  simp only [StoreOp.run, StoreOp.spec, hopen]
  cases r with
  | none =>
    rw [if_neg (by simp [← hk])]
    exact ⟨s, rfl, h⟩
  | some i =>
    have hpath := (hi i).mp rfl
    cases hdir : (s.inodes i).isDirectories with
    | true =>
      rw [if_neg (by simp [← hk, hdir])]
      exact ⟨s, by simp [dhmpFsWrite, hdir], h⟩
    | false =>
      rw [if_pos (by simp [← hk, hdir])]
      dsimp only
      have hmap := hroom i hopen hdir
      have hsome : dhmpFsWrite s i buf offset ≠ none := by
        intro hn
        exact hmap ((dhmpFsWrite_eq_none_iff h.sim.owned).mp hn).2
      obtain ⟨⟨s', res⟩, hw⟩ := Option.ne_none_iff_exists'.mp hsome
      have hres : writeLoop buf.length s i buf offset = some s' ∧ toInt buf.length = res := by
        simpa [dhmpFsWrite, hdir] using hw
      obtain ⟨-, rfl⟩ := hres
      obtain ⟨hsim, hnames, hdirs⟩ := data h.sim hpath hw
      refine ⟨s', hw, hsim, fun q j hj hfile => ?_, fun q k hq => ?_⟩
      · rw [hnames] at hj
        have hold := (h.holds q j hj (hdirs j ▸ hfile)).write h.sim.owned hdir hw
        by_cases hji : j = i
        · obtain rfl := hji
          obtain rfl := h.sim.path_unique hj hpath
          simpa using hold
        · have hqp : q ≠ p := by
            rintro rfl
            exact hji (hj.node_unique (h.sim.exact.names_nodup h.sim.tree) hpath)
          simpa [Function.update_of_ne hqp, hji] using hold
      · by_cases hqp : q = p
        · subst hqp
          simp only [Function.update_self, patch] at hq
          split at hq
          · next hin =>
            by_contra hlt
            exact hmap (.inl ⟨by omega, by omega⟩)
          · exact h.lt q k hq
        · simp only [Function.update_of_ne hqp] at hq
          exact h.lt q k hq

/-- What can be observed is the store. -/
theorem refines (h : StoreSim s kids st) : StoreRefines s st := by
  have hfile : ∀ p, Legal st.tree p → FitsName p → st.tree.kind p = some false →
      ∃ i, DhmpFs.dhmpFsOpen s (pathOf p) = some (some i) ∧ (s.inodes i).isDirectories = false ∧
        Holds s i (st.content p) := by
    intro p hl hfit hk
    obtain ⟨r, hopen, hi, hr⟩ := h.dhmpFsOpen hl hfit
    rw [hk, Option.map_eq_some_iff] at hr
    obtain ⟨i, rfl, hdir⟩ := hr
    exact ⟨i, hopen, hdir, h.holds p i ((hi i).mp rfl) hdir⟩
  refine ⟨h.sim.refines, fun p hl hfit hk attr m hm => ?_, fun p hl hfit hk o k hbehind => ?_⟩
  · obtain ⟨i, hopen, hdir, hholds⟩ := hfile p hl hfit hk
    have hlen : (pathOf p).length ≠ 1 := by
      rw [Ne, length_pathOf_eq_one hl.canonical]
      rintro rfl
      simp [st.tree.root] at hk
    have hsearch : searchDHash s (pathOf p) = some (some i) := hopen
    rw [← hholds.inode_size h.sim.owned hm]
    simp [dhmpFsGetattr, dhmpGetAttr, hlen, hsearch, hdir]
  · obtain ⟨i, hopen, hdir, hholds⟩ := hfile p hl hfit hk
    -- whatever the chunks held before, they hold it where nothing was written
    have kept : Kept { s with bitmap := fun _ => false } s i (st.content p) :=
      ⟨fun _ _ => ⟨rfl, fun _ _ => rfl⟩, fun _ _ _ => ⟨rfl, fun _ _ _ => rfl⟩⟩
    obtain ⟨bytes, hread, hreads⟩ := hholds.read_content h.sim.owned kept hdir (h.lt p) k hbehind
    refine ⟨i, bytes, hopen, hread, hreads.le, hreads.inData, fun j hj v hv => ?_, hreads.stop⟩
    rw [hreads.byte j hj, hv, Option.getD_some]

/-- A legal operation that fits returns what it returns on the store. -/
theorem step (h : StoreSim s kids st) {op : StoreOp} (hl : op.Legal st) (hfit : op.Fits s) :
    ∃ s' kids', op.run s = some (s', (op.spec st).2) ∧ StoreSim s' kids' (op.spec st).1 := by
  cases op with
  | name op => exact h.name hl hfit
  | write p buf offset =>
    obtain ⟨s', hrun, hsim⟩ := h.write hl hfit
    exact ⟨s', kids, hrun, hsim⟩

end StoreSim

/-! ## Runs -/

/-- In every run whose operations fit, the file system refines the store of files, and the next
operation that fits returns what it returns on the store and keeps the refinement. -/
theorem fileStore_run {bank : Banks} {ops : List StoreOp} {s : Fs} {st : FileStore}
    (run : Run (guarded (fun x op => op.Fits x.1) StoreStep) (dhmpInit bank, .empty) ops (s, st)) :
    StoreRefines s st ∧ ∀ op : StoreOp, op.Legal st → op.Fits s →
      ∃ s', op.run s = some (s', (op.spec st).2) ∧ StoreRefines s' (op.spec st).1 := by
  have inv : ∃ kids, StoreSim s kids st := by
    apply run.invariant (fun x => ∃ kids, StoreSim x.1 kids x.2) _ ⟨_, .dhmpInit bank⟩
    rintro ⟨t, u⟩ op ⟨t', u'⟩ ⟨kids, hsim⟩ ⟨hfit, hl, ⟨res, hrun⟩, hspec⟩
    obtain ⟨t'', kids', hrun', hsim'⟩ := hsim.step hl hfit
    obtain ⟨rfl, -⟩ := Prod.mk.inj (Option.some.inj (hrun.symm.trans hrun'))
    exact ⟨kids', hspec ▸ hsim'⟩
  obtain ⟨kids, hsim⟩ := inv
  refine ⟨hsim.refines, fun op hl hfit => ?_⟩
  obtain ⟨s', kids', hrun, hsim'⟩ := hsim.step hl hfit
  exact ⟨s', hrun, hsim'.refines⟩

/-- A new file is written. -/
theorem fileStore_run_write :
    StoreRefines ([StoreOp.name (.mknod [] [97]), .write [[97]] [7, 6] 1].foldl StoreOp.next
      (dhmpInit fun _ _ => 0, .empty)).1 ([StoreOp.name (.mknod [] [97]),
        .write [[97]] [7, 6] 1].foldl StoreOp.next (dhmpInit fun _ _ => 0, .empty)).2 := by
  have start : Run FsStep (dhmpInit fun _ _ => 0) [.mknod [47, 97]]
      ((StoreOp.name (.mknod [] [97])).next (dhmpInit fun _ _ => 0, .empty)).1 :=
    .single (.next trivial rfl)
  have fitsFile : (StoreOp.name (.mknod [] [97])).Fits (dhmpInit fun _ _ => 0) := by
    refine ⟨by decide, fun father d name _ => ?_⟩
    obtain ⟨-, hf, hd⟩ := (resolves_iff rfl rfl).mp name
    obtain rfl : rootId = father := Option.some.inj hf
    obtain rfl := Option.some.inj hd
    exact ⟨by decide, by decide⟩
  have fitsWrite : (StoreOp.write [[97]] [7, 6] 1).Fits
      ((StoreOp.name (.mknod [] [97])).next (dhmpInit fun _ _ => 0, .empty)).1 := by
    refine ⟨by simp [FitsName], fun fh hopen _ hun => ?_⟩
    obtain rfl : 1 = fh := Option.some.inj (Option.some.inj hopen)
    have hnone : dhmpFsWrite ((StoreOp.name (.mknod [] [97])).next
        (dhmpInit fun _ _ => 0, .empty)).1 1 [7, 6] 1 = none :=
      (dhmpFsWrite_eq_none_iff (fsInv_run start).1).mpr ⟨rfl, hun⟩
    exact absurd hnone (Option.some_ne_none _)
  have run : Run (guarded (fun x op => op.Fits x.1) StoreStep) (dhmpInit fun _ _ => 0, .empty)
      [.name (.mknod [] [97]), .write [[97]] [7, 6] 1] _ :=
    .cons ⟨fitsFile, .next (by decide) rfl⟩ (.single ⟨fitsWrite, .next (by decide) rfl⟩)
  exact (fileStore_run run).1

end DhmpFs
