import DhmpFs.Fs.Owned
import DhmpFs.Library.Run

/-!
# `dhmp_fs_write`, step by step

A call as a thread. A step is an unlocked test, a critical section of `file_lock` or what lies
between two of these. A section is one step, so the lock is free in every state. A call that
dereferences `NULL`, because of a full pool or past the largest file, has no next step.

## Main definitions

* `WriterPc`, `Writer`: where a call stands, and its local variables.
* `Writer.step`: the next step.
-/

namespace DhmpFs

open Library

/-! ## The steps of a call -/

/-- The places of `dhmp_fs_write` and `level3_local_index` between their steps. -/
inductive WriterPc where
  | enter
  | loop
  | testBlock (slot : Slot) (chunkOffset : Nat)
  | lockBlock (slot : Slot) (chunkOffset : Nat)
  | testSlot (slot : Slot) (chunkOffset : Nat)
  | lockSlot (slot : Slot) (chunkOffset : Nat)
  | found (slot : Slot) (chunkOffset : Nat)
  | place (cnt : Chunk) (chunkOffset : Nat)
  | lockFull (cnt : Chunk)
  | testSize (cnt : Chunk) (endOffset : Nat)
  | lockSize (cnt : Chunk) (endOffset : Nat)
  | returned (res : Int)

/-- The level of the index a slot belongs to. -/
def Slot.level : Slot → Nat
  | .direct _ => 0
  | .single _ => 1
  | .double _ _ => 2
  | .triple _ _ _ => 3

/-- What others can tell from a step: an indirect block was made, a slot received a context, or
`level3_local_index` returned the context of a chunk of the file. -/
inductive WriterNote where
  | silent
  | built (level : Nat)
  | stored (slot : Slot) (cnt : Chunk)
  | obtained (chunk : Nat) (cnt : Chunk)
  deriving DecidableEq, Repr

/-- A call of `dhmp_fs_write`: the `size` it was given, the part of the buffer not written yet
and its offset in the file. -/
structure Writer where
  size : Nat
  rest : List UInt8
  offset : Nat
  pc : WriterPc

namespace Writer

def call (buf : List UInt8) (offset : Nat) : Writer := ⟨buf.length, buf, offset, .enter⟩

/-- The next step of a call on the file `head`. The tests of the block of a slot always succeed
for a direct slot, which lies in the inode. -/
def step (head : InodeId) (s : Fs) (w : Writer) : Option (Fs × Writer × WriterNote) :=
  match w.pc with
  | .enter =>
    let pc := if (s.inodes head).isDirectories then .returned (-1) else .loop
    some (s, { w with pc := pc }, .silent)
  | .loop =>
    if w.rest = [] then some (s, { w with pc := .returned (toInt w.size) }, .silent)
    else (locate w.offset).map fun (slot, o) => (s, { w with pc := .testBlock slot o }, .silent)
  | .testBlock slot o =>
    let pc := if (s.inodes head).cntId.HasBlock slot then .testSlot slot o else .lockBlock slot o
    some (s, { w with pc := pc }, .silent)
  | .lockBlock slot o =>
    if (s.inodes head).cntId.HasBlock slot then
      some (s, { w with pc := .testSlot slot o }, .silent)
    else
      some (s.modify head fun n => { n with cntId := n.cntId.initBlock slot },
        { w with pc := .testSlot slot o }, .built slot.level)
  | .testSlot slot o =>
    let pc := if ((s.inodes head).cntId.get slot).isSome then .found slot o else .lockSlot slot o
    some (s, { w with pc := pc }, .silent)
  | .lockSlot slot o =>
    if ((s.inodes head).cntId.get slot).isSome then
      some (s, { w with pc := .found slot o }, .silent)
    else
      match getFreeContext s with
      | (_, none) => none
      | (s, some c) =>
        some (linkContext s head slot c, { w with pc := .found slot o }, .stored slot c)
  | .found slot o =>
    ((s.inodes head).cntId.get slot).map fun c =>
      (s, { w with pc := .place c o }, .obtained (w.offset / chunkSize) c)
  | .place c o =>
    let now := subU64 chunkSize o
    if now ≤ w.rest.length then
      -- fill the chunk
      some (s.writeToCache (bankId c) (w.rest.take now) (bankOffset c + o),
        { w with rest := w.rest.drop now, offset := addU64 w.offset now, pc := .lockFull c },
        .silent)
    else
      some (s.writeToCache (bankId c) w.rest (bankOffset c + o),
        { w with rest := [], pc := .testSize c (w.rest.length + o) }, .silent)
  | .lockFull c => some (growChunk s head c chunkSize, { w with pc := .loop }, .silent)
  | .testSize c e =>
    let pc := if (s.contextAddr c).size < e then .lockSize c e else .loop
    some (s, { w with pc := pc }, .silent)
  | .lockSize c e =>
    let s := if (s.contextAddr c).size < e then growChunk s head c e else s
    some (s, { w with pc := .loop }, .silent)
  | .returned _ => none

end Writer

/-! ## Blocks and slots -/

namespace FileIndex

variable {f : FileIndex} {slot : Slot}

theorem hasBlock_set (slot' : Slot) (c : Option Chunk) :
    (f.set slot' c).HasBlock slot ↔ f.HasBlock slot := by
  cases slot' <;> cases slot <;> simp [set, HasBlock]

/-- Making a block changes the slots of its level only. -/
theorem hasBlock_initBlock (slot' : Slot) :
    (f.initBlock slot').HasBlock slot ↔ f.HasBlock slot ∨ slot.level = slot'.level := by
  cases slot' <;> cases slot <;> simp [initBlock, HasBlock, Slot.level]

/-- The block is made empty, as it was. -/
theorem get_initBlock {slot' : Slot} (h : ¬ f.HasBlock slot') :
    (f.initBlock slot').get slot = f.get slot := by
  cases slot' <;> cases slot <;> simp_all [initBlock, HasBlock, get]

theorem Complete.initBlock (h : f.Complete) (slot : Slot) : (f.initBlock slot).Complete := by
  obtain ⟨h1, h2⟩ := h
  cases slot <;> simp_all [FileIndex.initBlock, Complete]

theorem hasBlock_iff_of_level {slot' : Slot} (h : slot.level = slot'.level) :
    f.HasBlock slot ↔ f.HasBlock slot' := by
  cases slot <;> cases slot' <;> simp_all [HasBlock, Slot.level]

end FileIndex

/-- A lookup in a slot whose block exists makes no block. -/
theorem slotContext_hasBlock {s s' : Fs} {head : InodeId} {slot slot' : Slot} {onlyRead : Bool}
    {cnt : Option Chunk}
    (h : slotContext s head slot' onlyRead = some (s', cnt)) :
    (s'.inodes head).cntId.HasBlock slot ↔ (s.inodes head).cntId.HasBlock slot := by
  unfold slotContext at h
  split at h
  · obtain ⟨rfl, -⟩ : s = s' ∧ _ := by simpa using h
    rfl
  split at h
  · obtain ⟨rfl, -⟩ : s = s' ∧ _ := by simpa using h
    rfl
  split at h
  · simp at h
  next s1 c hfree =>
    obtain ⟨rfl, -⟩ : linkContext s1 head slot' c = s' ∧ _ := by simpa using h
    rw [(getFreeContext_some hfree).eq]
    simp [linkContext, FileIndex.hasBlock_set]

theorem locate_lt {offset o : Nat} {slot : Slot} (h : locate offset = some (slot, o)) :
    slot = slotOf (offset / chunkSize) ∧ o < chunkSize := by
  by_cases hend : sizeThirdDirectEnd ≤ offset
  · simp [locate_end hend] at h
  · rw [locate_eq (Nat.not_le.mp hend)] at h
    obtain ⟨rfl, rfl⟩ : _ = slot ∧ _ = o := by simpa using h
    exact ⟨rfl, Nat.mod_lt _ chunkSize_pos⟩

/-! ## A call that runs alone -/

/-- A step of a call that runs alone. -/
def WriterStep (head : InodeId) (p : Fs × Writer) (note : WriterNote) (q : Fs × Writer) : Prop :=
  p.2.step head p.1 = some (q.1, q.2, note)

namespace Writer

variable {head : InodeId} {s s' : Fs} {rest : List UInt8} {slot : Slot} {c : Chunk}

/-- The steps from the test of a slot are those of the sequential lookup. -/
theorem run_slot (size : Nat) (rest : List UInt8) (offset o : Nat)
    (hb : (s.inodes head).cntId.HasBlock slot)
    (h : slotContext s head slot false = some (s', some c)) :
    ∃ notes, Run (WriterStep head) (s, ⟨size, rest, offset, .testSlot slot o⟩) notes
      (s', ⟨size, rest, offset, .place c o⟩) := by
  have loc := slotContext_some hb h
  have found : WriterStep head (s', ⟨size, rest, offset, .found slot o⟩)
      (.obtained (offset / chunkSize) c) (s', ⟨size, rest, offset, .place c o⟩) := by
    simp [WriterStep, step, loc.get]
  cases hget : (s.inodes head).cntId.get slot with
  | some d =>
    obtain ⟨rfl, rfl⟩ : s = s' ∧ d = c := by simpa [slotContext, hget] using h
    have test : WriterStep head (s, ⟨size, rest, offset, .testSlot slot o⟩) .silent
        (s, ⟨size, rest, offset, .found slot o⟩) := by
      simp [WriterStep, step, hget]
    exact ⟨_, .cons test (.single found)⟩
  | none =>
    have test : WriterStep head (s, ⟨size, rest, offset, .testSlot slot o⟩) .silent
        (s, ⟨size, rest, offset, .lockSlot slot o⟩) := by
      simp [WriterStep, step, hget]
    have lock : WriterStep head (s, ⟨size, rest, offset, .lockSlot slot o⟩) (.stored slot c)
        (s', ⟨size, rest, offset, .found slot o⟩) := by
      rcases hfree : getFreeContext s with ⟨s1, _ | d⟩
      · simp [slotContext, hget, hfree] at h
      · obtain ⟨rfl, rfl⟩ : linkContext s1 head slot d = s' ∧ d = c := by
          simpa [slotContext, hget, hfree] using h
        simp [WriterStep, step, hget, hfree]
    exact ⟨_, .cons test (.cons lock (.single found))⟩

theorem run_lookup (size : Nat) (rest : List UInt8) (offset o : Nat)
    (h : lookup s head false slot = some (s', some c)) :
    ∃ notes, Run (WriterStep head) (s, ⟨size, rest, offset, .testBlock slot o⟩) notes
      (s', ⟨size, rest, offset, .place c o⟩) := by
  by_cases hb : (s.inodes head).cntId.HasBlock slot
  · have test : WriterStep head (s, ⟨size, rest, offset, .testBlock slot o⟩) .silent
        (s, ⟨size, rest, offset, .testSlot slot o⟩) := by
      simp [WriterStep, step, hb]
    rw [lookup, if_pos hb] at h
    obtain ⟨notes, run⟩ := run_slot size rest offset o hb h
    exact ⟨_, .cons test run⟩
  · have test : WriterStep head (s, ⟨size, rest, offset, .testBlock slot o⟩) .silent
        (s, ⟨size, rest, offset, .lockBlock slot o⟩) := by
      simp [WriterStep, step, hb]
    have lock : WriterStep head (s, ⟨size, rest, offset, .lockBlock slot o⟩) (.built slot.level)
        (s.modify head fun n => { n with cntId := n.cntId.initBlock slot },
          ⟨size, rest, offset, .testSlot slot o⟩) := by
      simp [WriterStep, step, hb]
    rw [lookup, if_neg hb, if_neg Bool.false_ne_true] at h
    obtain ⟨notes, run⟩ := run_slot size rest offset o
      (by simp [FileIndex.hasBlock_initBlock]) h
    exact ⟨_, .cons test (.cons lock run)⟩

/-- The steps of a round that ends within its chunk. -/
theorem run_part (s : Fs) (size offset : Nat) (c : Chunk) {o : Nat}
    (hpart : ¬ subU64 chunkSize o ≤ rest.length) :
    ∃ notes, Run (WriterStep head) (s, ⟨size, rest, offset, .place c o⟩) notes
      (if (s.contextAddr c).size < rest.length + o then
          growChunk (s.writeToCache (bankId c) rest (bankOffset c + o)) head c (rest.length + o)
        else s.writeToCache (bankId c) rest (bankOffset c + o), ⟨size, [], offset, .loop⟩) := by
  have place : WriterStep head (s, ⟨size, rest, offset, .place c o⟩) .silent
      (s.writeToCache (bankId c) rest (bankOffset c + o),
        ⟨size, [], offset, .testSize c (rest.length + o)⟩) := by
    simp only [WriterStep, step, if_neg hpart]
  by_cases hgrow : (s.contextAddr c).size < rest.length + o
  · have test : WriterStep head (s.writeToCache (bankId c) rest (bankOffset c + o),
          ⟨size, [], offset, .testSize c (rest.length + o)⟩) .silent
        (s.writeToCache (bankId c) rest (bankOffset c + o),
          ⟨size, [], offset, .lockSize c (rest.length + o)⟩) := by
      simp [WriterStep, step, hgrow]
    have lock : WriterStep head (s.writeToCache (bankId c) rest (bankOffset c + o),
          ⟨size, [], offset, .lockSize c (rest.length + o)⟩) .silent
        (growChunk (s.writeToCache (bankId c) rest (bankOffset c + o)) head c (rest.length + o),
          ⟨size, [], offset, .loop⟩) := by
      simp [WriterStep, step, hgrow]
    rw [if_pos hgrow]
    exact ⟨_, .cons place (.cons test (.single lock))⟩
  · have test : WriterStep head (s.writeToCache (bankId c) rest (bankOffset c + o),
          ⟨size, [], offset, .testSize c (rest.length + o)⟩) .silent
        (s.writeToCache (bankId c) rest (bankOffset c + o), ⟨size, [], offset, .loop⟩) := by
      simp [WriterStep, step, hgrow]
    rw [if_neg hgrow]
    exact ⟨_, .cons place (.single test)⟩

/-- The steps from the head of the loop are those of the sequential loop. -/
theorem run_loop {rounds : Nat} (size : Nat) {offset : Nat} (hr : rest.length ≤ rounds)
    (h : writeLoop rounds s head rest offset = some s') :
    ∃ notes rest' offset', Run (WriterStep head) (s, ⟨size, rest, offset, .loop⟩) notes
      (s', ⟨size, rest', offset', .returned (toInt size)⟩) := by
  have stop (s : Fs) (offset : Nat) : WriterStep head (s, ⟨size, [], offset, .loop⟩) .silent
      (s, ⟨size, [], offset, .returned (toInt size)⟩) := by
    simp [WriterStep, step]
  have lock (s : Fs) (rest : List UInt8) (offset : Nat) (c : Chunk) :
      WriterStep head (s, ⟨size, rest, offset, .lockFull c⟩) .silent
        (growChunk s head c chunkSize, ⟨size, rest, offset, .loop⟩) := rfl
  induction rounds generalizing s rest offset with
  | zero =>
    obtain rfl : rest = [] := by simpa using hr
    obtain rfl : s = s' := by simpa [writeLoop] using h
    exact ⟨_, _, _, .single (stop s offset)⟩
  | succ rounds ih =>
    by_cases hne : rest = []
    · obtain rfl : s = s' := by simpa [writeLoop, hne] using h
      subst hne
      exact ⟨_, _, _, .single (stop s offset)⟩
    rw [writeLoop, if_neg hne, level3LocalIndex_locate] at h
    rcases hl : locate offset with _ | ⟨slot, o⟩
    · simp [hl] at h
    rcases hk : lookup s head false slot with _ | ⟨s1, _ | c⟩
    · simp [hl, hk] at h
    · simp [hl, hk] at h
    have begin : WriterStep head (s, ⟨size, rest, offset, .loop⟩) .silent
        (s, ⟨size, rest, offset, .testBlock slot o⟩) := by
      simp [WriterStep, step, hne, hl]
    obtain ⟨notes, find⟩ := run_lookup size rest offset o hk
    have run := Run.cons begin find
    simp only [hl, hk, Option.map_some, Bool.false_eq_true, false_and, if_false] at h
    split at h
    · next hfull =>
      have hlt := (locate_lt hl).2
      have hsub : subU64 chunkSize o = chunkSize - o := subU64_eq (by decide) (Nat.le_of_lt hlt)
      have hlen := List.length_drop (i := subU64 chunkSize o) (l := rest)
      have place : WriterStep head (s1, ⟨size, rest, offset, .place c o⟩) .silent
          (s1.writeToCache (bankId c) (rest.take (subU64 chunkSize o)) (bankOffset c + o),
            ⟨size, rest.drop (subU64 chunkSize o), addU64 offset (subU64 chunkSize o),
              .lockFull c⟩) := by
        simp only [WriterStep, step, if_pos hfull]
      obtain ⟨notes', rest', offset', more⟩ := ih (by omega) h
      exact ⟨_, rest', offset', (run.snoc place).trans (.cons (lock _ _ _ _) more)⟩
    · next hpart =>
      obtain ⟨notes', part⟩ := run_part s1 size offset c hpart
      rw [← apply_ite some] at h
      obtain rfl := Option.some.inj h
      exact ⟨_, _, _, (run.trans part).snoc (stop _ offset)⟩

/-- The steps of a call, one after the other, are `dhmp_fs_write`. -/
theorem run_call {buf : List UInt8} {offset : Nat} {res : Int}
    (h : dhmpFsWrite s head buf offset = some (s', res)) :
    ∃ notes w, Run (WriterStep head) (s, .call buf offset) notes (s', w) ∧
      w.pc = .returned res := by
  cases hdir : (s.inodes head).isDirectories with
  | true =>
    obtain ⟨rfl, rfl⟩ : s = s' ∧ -1 = res := by simpa [dhmpFsWrite, hdir] using h
    have enter : WriterStep head (s, .call buf offset) .silent
        (s, ⟨buf.length, buf, offset, .returned (-1)⟩) := by
      simp [WriterStep, call, step, hdir]
    exact ⟨_, _, .single enter, rfl⟩
  | false =>
    rw [dhmpFsWrite, hdir, if_neg Bool.false_ne_true] at h
    obtain ⟨t, hloop, he⟩ := Option.map_eq_some_iff.mp h
    obtain ⟨rfl, rfl⟩ := Prod.mk.inj he
    have enter : WriterStep head (s, .call buf offset) .silent
        (s, ⟨buf.length, buf, offset, .loop⟩) := by
      simp [WriterStep, call, step, hdir]
    obtain ⟨notes, rest, o, run⟩ := run_loop buf.length (Nat.le_refl _) hloop
    exact ⟨_, _, .cons enter run, rfl⟩

end Writer

end DhmpFs
