import DhmpFs.Fs.Reachable
import DhmpFs.Fs.WriterSteps

/-!
# Writers that share a file

Any number of `dhmp_fs_write` calls on one inode, interleaved step by step.

## Main definitions

* `WritersStep`: the next step of any one of the calls.
* `WritersSafe`: what holds of the file, and of all that has happened to it, at any time.
* `WriterEffect`: what a step can do to the file system.
* `WriterPc.Fact`: what a call knows at each of its places.
-/

namespace DhmpFs

open Library

/-! ## The calls -/

/-- The file system and the calls. -/
structure Writers where
  fs : Fs
  writers : Nat → Writer

/-- The call `a.1` on the file `head` takes a step that is noted as `a.2`. -/
inductive WritersStep (head : InodeId) : Writers → Nat × WriterNote → Writers → Prop where
  | step {s : Writers} {k : Nat} {note : WriterNote} {fs : Fs} {w : Writer}
      (h : (s.writers k).step head s.fs = some (fs, w, note)) :
      WritersStep head s (k, note) ⟨fs, Function.update s.writers k w⟩

/-- The calls before their first steps. -/
def startWriters (s : Fs) (calls : Nat → List UInt8 × Nat) : Writers :=
  ⟨s, fun k => .call (calls k).1 (calls k).2⟩

/-- Run the calls in the order `ks`, one step each time. -/
def Writers.exec (head : InodeId) (s : Writers) :
    List Nat → Option (List (Nat × WriterNote) × Writers)
  | [] => some ([], s)
  | k :: ks =>
    match (s.writers k).step head s.fs with
    | none => none
    | some (fs, w, note) =>
      (Writers.exec head ⟨fs, Function.update s.writers k w⟩ ks).map fun (log, t) =>
        ((k, note) :: log, t)

theorem Writers.exec_run {head : InodeId} {s t : Writers} {ks : List Nat}
    {log : List (Nat × WriterNote)} (h : s.exec head ks = some (log, t)) :
    Run (WritersStep head) s log t := by
  induction ks generalizing s log with
  | nil =>
    obtain ⟨rfl, rfl⟩ : [] = log ∧ s = t := by simpa [exec] using h
    exact .refl s
  | cons k ks ih =>
    rw [exec] at h
    split at h
    · simp at h
    · next hstep =>
      obtain ⟨⟨log', t'⟩, hrest, he⟩ := Option.map_eq_some_iff.mp h
      obtain ⟨rfl, rfl⟩ := Prod.mk.inj he
      exact .cons (.step hstep) (ih hrest)

/-- A context was stored in the slot. -/
def Stores (slot : Slot) : Nat × WriterNote → Bool
  | (_, .stored slot' _) => slot' = slot
  | _ => false

/-- The indirect block of a level was made. -/
def Builds (level : Nat) : Nat × WriterNote → Bool
  | (_, .built level') => level' = level
  | _ => false

/-- After the steps `log` of calls on `head`, which began in `s₀`. -/
structure WritersSafe (s₀ : Fs) (head : InodeId) (log : List (Nat × WriterNote)) (s : Fs) :
    Prop where
  /-- A slot receives at most one context, and none when it has one. -/
  stored_once : ∀ slot, log.countP (Stores slot) ≤ 1 ∧
    ((s₀.inodes head).cntId.get slot ≠ none → log.countP (Stores slot) = 0)
  /-- The calls that write to a chunk of the file obtain the context in its slot. -/
  obtained : ∀ k j c, (k, .obtained j c) ∈ log → (s.inodes head).cntId.get (slotOf j) = some c
  /-- A chunk in use is in the slot and the list of an inode, of `head` if the calls took it. -/
  referenced : ∀ c, s.bitmap c = true → ∃ i slot, (s.inodes i).cntId.get slot = some c ∧
    c ∈ (s.inodes i).context ∧ (s₀.bitmap c = false → i = head)
  /-- The third indirect block is made at most once, and not when there is one. -/
  root_once : log.countP (Builds 3) ≤ 1 ∧
    ((s₀.inodes head).cntId.in3addr ≠ none → log.countP (Builds 3) = 0)
  /-- The size of the file is the sum of the sizes of its contexts. -/
  size : (s.inodes head).size = (sizes s (s.inodes head).context).sum

/-! ## What a step does -/

/-- The ways in which a step of a call on `head` changes the file system. -/
inductive WriterEffect (head : InodeId) (s : Fs) : WriterNote → Fs → Prop where
  | read : WriterEffect head s .silent s
  | obtained {j : Nat} {c : Chunk} (get : (s.inodes head).cntId.get (slotOf j) = some c) :
      WriterEffect head s (.obtained j c) s
  | built {slot : Slot} (missing : ¬ (s.inodes head).cntId.HasBlock slot) :
      WriterEffect head s (.built slot.level)
        (s.modify head fun n => { n with cntId := n.cntId.initBlock slot })
  | stored {slot : Slot} {c : Chunk} {s' : Fs} (block : (s.inodes head).cntId.HasBlock slot)
      (empty : (s.inodes head).cntId.get slot = none)
      (alloc : slotContext s head slot false = some (s', some c)) :
      WriterEffect head s (.stored slot c) s'
  | placed (b : Nat) (bytes : List UInt8) (o : Nat) :
      WriterEffect head s .silent (s.writeToCache b bytes o)
  | grown {slot : Slot} {c : Chunk} {newSize : Nat}
      (get : (s.inodes head).cntId.get slot = some c) (le : (s.contextAddr c).size ≤ newSize)
      (max : newSize ≤ chunkSize) : WriterEffect head s .silent (growChunk s head c newSize)

namespace WriterEffect

variable {head : InodeId} {s s' : Fs} {note : WriterNote} {slot : Slot} {c : Chunk}

theorem owned (o : Owned s) (h : WriterEffect head s note s') : Owned s' := by
  cases h with
  | read => exact o
  | obtained => exact o
  | @built slot missing =>
    refine o.congr (fun i => ?_) rfl rfl rfl
    by_cases hi : i = head
    · subst hi
      simp only [Fs.modify_inodes_self, and_true]
      exact ⟨(o.complete i).initBlock slot, fun _ => FileIndex.get_initBlock missing⟩
    · rw [Fs.modify_inodes_ne s hi]
      exact ⟨o.complete i, fun _ => rfl, rfl, rfl⟩
  | stored block _ alloc => exact (slotContext_some block alloc).owned o
  | placed b bytes p => exact o.writeToCache b bytes p
  | grown get le max => exact o.growChunk get le max

/-- A slot is filled by the step that stores a context in it, and by no other. -/
theorem stores (h : WriterEffect head s note s') (k : Nat) (slot : Slot) :
    (Stores slot (k, note)).toNat + ((s.inodes head).cntId.get slot).isSome.toNat =
      ((s'.inodes head).cntId.get slot).isSome.toNat := by
  cases h with
  | read => simp [Stores]
  | obtained => simp [Stores]
  | built missing => simp [Stores, FileIndex.get_initBlock missing]
  | @stored slot' c _ block empty alloc =>
    have loc := slotContext_some block alloc
    by_cases hs : slot = slot'
    · subst hs
      simp [Stores, empty, loc.get]
    · simp [Stores, loc.get_ne hs, Ne.symm hs]
  | placed => simp [Stores]
  | grown => simp [Stores, growChunk_index]

/-- The block of a slot is made by the step that is noted so, and by no other. -/
theorem builds (h : WriterEffect head s note s') (k : Nat) (slot : Slot) :
    (Builds slot.level (k, note)).toNat + (decide ((s.inodes head).cntId.HasBlock slot)).toNat =
      (decide ((s'.inodes head).cntId.HasBlock slot)).toNat := by
  cases h with
  | read => simp [Builds]
  | obtained => simp [Builds]
  | @built slot' missing =>
    by_cases hl : slot.level = slot'.level
    · have hno := (FileIndex.hasBlock_iff_of_level hl).not.mpr missing
      simp [Builds, hl, hno, FileIndex.hasBlock_initBlock]
    · simp [Builds, hl, Ne.symm hl, FileIndex.hasBlock_initBlock]
  | stored _ _ alloc => simp [Builds, slotContext_hasBlock alloc]
  | placed => exact Nat.zero_add _
  | grown => simp [Builds, growChunk_index]

theorem get_of_get (h : WriterEffect head s note s')
    (hget : (s.inodes head).cntId.get slot = some c) :
    (s'.inodes head).cntId.get slot = some c := by
  cases h with
  | read => exact hget
  | obtained => exact hget
  | built missing => simpa [FileIndex.get_initBlock missing] using hget
  | stored block _ alloc => exact (slotContext_some block alloc).get_of_get hget
  | placed => exact hget
  | grown => simpa [growChunk_index] using hget

theorem hasBlock (h : WriterEffect head s note s') (hb : (s.inodes head).cntId.HasBlock slot) :
    (s'.inodes head).cntId.HasBlock slot := by
  have := h.builds 0 slot
  by_contra hno
  simp [hb, hno] at this

/-- The chunks that a step takes go to the file. -/
theorem bitmap (h : WriterEffect head s note s') (hc : s'.bitmap c = true) :
    s.bitmap c = true ∨ ∃ slot, (s'.inodes head).cntId.get slot = some c := by
  cases h with
  | @stored slot d _ block _ alloc =>
    have loc := slotContext_some block alloc
    by_cases hd : c = d
    · exact .inr ⟨slot, hd ▸ loc.get⟩
    · left
      cases loc with
      | hit => exact hc
      | alloc a => simpa [a.eq, hd] using hc
  | _ => exact .inl hc

end WriterEffect

/-! ## What a call knows -/

/-- What holds of the file at each place of a call, whatever the others do. -/
def WriterPc.Fact (s : Fs) (head : InodeId) (offset : Nat) : WriterPc → Prop
  | .testBlock slot o => locate offset = some (slot, o)
  | .lockBlock slot o => locate offset = some (slot, o)
  | .testSlot slot o => locate offset = some (slot, o) ∧ (s.inodes head).cntId.HasBlock slot
  | .lockSlot slot o => locate offset = some (slot, o) ∧ (s.inodes head).cntId.HasBlock slot
  | .found slot o =>
    locate offset = some (slot, o) ∧ ∃ c, (s.inodes head).cntId.get slot = some c
  | .place c o => o < chunkSize ∧ ∃ slot, (s.inodes head).cntId.get slot = some c
  | .lockFull c => ∃ slot, (s.inodes head).cntId.get slot = some c
  | .testSize c e => e ≤ chunkSize ∧ ∃ slot, (s.inodes head).cntId.get slot = some c
  | .lockSize c e => e ≤ chunkSize ∧ ∃ slot, (s.inodes head).cntId.get slot = some c
  | _ => True

/-- The steps of the others leave these facts alone: no slot is emptied, no block removed. -/
theorem WriterPc.Fact.mono {s s' : Fs} {head : InodeId} {offset : Nat} {pc : WriterPc}
    (h : pc.Fact s head offset)
    (get : ∀ slot c, (s.inodes head).cntId.get slot = some c →
      (s'.inodes head).cntId.get slot = some c)
    (block : ∀ slot, (s.inodes head).cntId.HasBlock slot →
      (s'.inodes head).cntId.HasBlock slot) : pc.Fact s' head offset := by
  cases pc with
  | testSlot slot o => exact ⟨h.1, block slot h.2⟩
  | lockSlot slot o => exact ⟨h.1, block slot h.2⟩
  | found slot o => exact ⟨h.1, h.2.imp (get slot)⟩
  | place c o => exact ⟨h.1, h.2.imp fun slot => get slot c⟩
  | lockFull c => exact Exists.imp (fun slot => get slot c) h
  | testSize c e => exact ⟨h.1, h.2.imp fun slot => get slot c⟩
  | lockSize c e => exact ⟨h.1, h.2.imp fun slot => get slot c⟩
  | _ => exact h

/-- A step of a call has one of the effects, and the call knows what it needs for its next. -/
theorem Writer.step_spec {head : InodeId} {s s' : Fs} {w w' : Writer} {note : WriterNote}
    (o : Owned s) (hf : w.pc.Fact s head w.offset) (h : w.step head s = some (s', w', note)) :
    WriterEffect head s note s' ∧ w'.pc.Fact s' head w'.offset := by
  obtain ⟨size, rest, offset, pc⟩ := w
  cases pc with
  | enter =>
    simp only [step, Option.some.injEq, Prod.mk.injEq] at h
    obtain ⟨rfl, rfl, rfl⟩ := h
    refine ⟨.read, ?_⟩
    dsimp only
    split <;> trivial
  | loop =>
    simp only [step] at h
    split at h
    · obtain ⟨rfl, rfl, rfl⟩ : _ ∧ _ ∧ _ := by simpa using h
      exact ⟨.read, trivial⟩
    · obtain ⟨⟨slot, p⟩, hl, he⟩ := Option.map_eq_some_iff.mp h
      obtain ⟨rfl, rfl, rfl⟩ : _ ∧ _ ∧ _ := by simpa using he
      exact ⟨.read, hl⟩
  | testBlock slot p =>
    simp only [step, Option.some.injEq, Prod.mk.injEq] at h
    obtain ⟨rfl, rfl, rfl⟩ := h
    refine ⟨.read, ?_⟩
    dsimp only
    split
    · next hb => exact ⟨hf, hb⟩
    · exact hf
  | lockBlock slot p =>
    simp only [step] at h
    -- another call may have made the block since the test
    split at h
    · next hb =>
      obtain ⟨rfl, rfl, rfl⟩ : _ ∧ _ ∧ _ := by simpa using h
      exact ⟨.read, hf, hb⟩
    · next hb =>
      obtain ⟨rfl, rfl, rfl⟩ : _ ∧ _ ∧ _ := by simpa using h
      refine ⟨.built hb, hf, ?_⟩
      rw [Fs.modify_inodes_self, FileIndex.hasBlock_initBlock]
      exact .inr rfl
  | testSlot slot p =>
    simp only [step, Option.some.injEq, Prod.mk.injEq] at h
    obtain ⟨rfl, rfl, rfl⟩ := h
    refine ⟨.read, ?_⟩
    dsimp only
    split
    · next hs => exact ⟨hf.1, Option.isSome_iff_exists.mp hs⟩
    · exact hf
  | lockSlot slot p =>
    simp only [step] at h
    -- another call may have filled the slot since the test
    split at h
    · next hs =>
      obtain ⟨rfl, rfl, rfl⟩ : _ ∧ _ ∧ _ := by simpa using h
      exact ⟨.read, hf.1, Option.isSome_iff_exists.mp hs⟩
    · next hs =>
      have hempty : (s.inodes head).cntId.get slot = none := by simpa using hs
      split at h
      · simp at h
      · next s1 c hfree =>
        obtain ⟨rfl, rfl, rfl⟩ : _ ∧ _ ∧ _ := by simpa using h
        have halloc : slotContext s head slot false =
            some (linkContext s1 head slot c, some c) := by
          simp [slotContext, hempty, hfree]
        exact ⟨.stored hf.2 hempty halloc, hf.1, c, (slotContext_some hf.2 halloc).get⟩
  | found slot p =>
    simp only [step] at h
    obtain ⟨c, hc, he⟩ := Option.map_eq_some_iff.mp h
    obtain ⟨rfl, rfl, rfl⟩ : _ ∧ _ ∧ _ := by simpa using he
    obtain ⟨hslot, hlt⟩ := locate_lt hf.1
    exact ⟨.obtained (hslot ▸ hc), hlt, slot, hc⟩
  | place c p =>
    obtain ⟨hlt, hslot⟩ := hf
    have hsub : subU64 chunkSize p = chunkSize - p := subU64_eq (by decide) (Nat.le_of_lt hlt)
    simp only [step, hsub] at h
    split at h
    · obtain ⟨rfl, rfl, rfl⟩ : _ ∧ _ ∧ _ := by simpa using h
      exact ⟨.placed _ _ _, hslot⟩
    · next hpart =>
      obtain ⟨rfl, rfl, rfl⟩ : _ ∧ _ ∧ _ := by simpa using h
      exact ⟨.placed _ _ _, by omega, hslot⟩
  | lockFull c =>
    simp only [step, Option.some.injEq, Prod.mk.injEq] at h
    obtain ⟨rfl, rfl, rfl⟩ := h
    obtain ⟨slot, hslot⟩ := hf
    exact ⟨.grown hslot (o.size_le c) (Nat.le_refl _), trivial⟩
  | testSize c e =>
    simp only [step, Option.some.injEq, Prod.mk.injEq] at h
    obtain ⟨rfl, rfl, rfl⟩ := h
    refine ⟨.read, ?_⟩
    dsimp only
    split
    · exact hf
    · trivial
  | lockSize c e =>
    simp only [step, Option.some.injEq, Prod.mk.injEq] at h
    obtain ⟨rfl, rfl, rfl⟩ := h
    obtain ⟨hle, slot, hslot⟩ := hf
    -- another call may have grown the chunk since the test
    split
    · next hgrow => exact ⟨.grown hslot (Nat.le_of_lt hgrow) hle, trivial⟩
    · exact ⟨.read, trivial⟩
  | returned res => simp [step] at h

/-! ## Runs of the calls -/

/-- The invariant of the runs that begin in `s₀`. -/
structure WritersInv (s₀ : Fs) (head : InodeId) (log : List (Nat × WriterNote)) (s : Writers) :
    Prop where
  owned : Owned s.fs
  facts : ∀ k, (s.writers k).pc.Fact s.fs head (s.writers k).offset
  stored : ∀ slot, log.countP (Stores slot) + ((s₀.inodes head).cntId.get slot).isSome.toNat =
    ((s.fs.inodes head).cntId.get slot).isSome.toNat
  built : ∀ slot, log.countP (Builds slot.level) +
    (decide ((s₀.inodes head).cntId.HasBlock slot)).toNat =
      (decide ((s.fs.inodes head).cntId.HasBlock slot)).toNat
  obtained : ∀ k j c, (k, .obtained j c) ∈ log →
    (s.fs.inodes head).cntId.get (slotOf j) = some c
  taken : ∀ c, s.fs.bitmap c = true →
    s₀.bitmap c = true ∨ ∃ slot, (s.fs.inodes head).cntId.get slot = some c

namespace WritersInv

variable {s₀ : Fs} {head : InodeId} {log : List (Nat × WriterNote)} {s s' : Writers}

theorem start (o : Owned s₀) (calls : Nat → List UInt8 × Nat) :
    WritersInv s₀ head [] (startWriters s₀ calls) where
  owned := o
  facts _ := trivial
  stored _ := Nat.zero_add _
  built _ := Nat.zero_add _
  obtained _ _ _ h := absurd h List.not_mem_nil
  taken _ hc := .inl hc

theorem countP_snoc (p : Nat × WriterNote → Bool) (a : Nat × WriterNote) :
    (log ++ [a]).countP p = log.countP p + (p a).toNat := by
  cases h : p a <;> simp [h]

theorem step {a : Nat × WriterNote} (h : WritersInv s₀ head log s)
    (hs : WritersStep head s a s') : WritersInv s₀ head (log ++ [a]) s' := by
  cases hs with
  | @step k note fs w hw =>
    obtain ⟨effect, fact⟩ := Writer.step_spec h.owned (h.facts k) hw
    constructor
    case owned => exact effect.owned h.owned
    case facts =>
      intro k'
      by_cases hk : k' = k
      · subst hk
        simpa using fact
      · simpa [hk] using (h.facts k').mono (fun _ _ => effect.get_of_get) fun _ => effect.hasBlock
    case stored =>
      intro slot
      rw [countP_snoc, ← effect.stores k slot, ← h.stored slot]
      omega
    case built =>
      intro slot
      rw [countP_snoc, ← effect.builds k slot, ← h.built slot]
      omega
    case obtained =>
      intro k' j c hmem
      rcases List.mem_append.mp hmem with hold | hnew
      · exact effect.get_of_get (h.obtained k' j c hold)
      · obtain ⟨-, rfl⟩ : k' = k ∧ WriterNote.obtained j c = note := by simpa using hnew
        cases effect with
        | obtained get => exact get
    case taken =>
      intro c hc
      rcases effect.bitmap hc with hold | hnew
      · exact (h.taken c hold).imp_right fun ⟨slot, hslot⟩ => ⟨slot, effect.get_of_get hslot⟩
      · exact .inr hnew

theorem run {s : Writers} (o : Owned s₀) {calls : Nat → List UInt8 × Nat}
    (run : Run (WritersStep head) (startWriters s₀ calls) log s) : WritersInv s₀ head log s :=
  run.history (WritersInv s₀ head) (start o calls) fun _ _ _ _ h hs => h.step hs

theorem safe (h : WritersInv s₀ head log s) : WritersSafe s₀ head log s.fs where
  stored_once slot := by
    have hcount := h.stored slot
    have hle := Bool.toNat_le ((s.fs.inodes head).cntId.get slot).isSome
    refine ⟨by omega, fun hsome => ?_⟩
    rw [Option.isSome_iff_ne_none.mpr hsome, Bool.toNat_true] at hcount
    omega
  obtained := h.obtained
  referenced c hc := by
    obtain ⟨⟨i, slot⟩, hw⟩ := Option.ne_none_iff_exists'.mp ((h.owned.bitmap_iff c).mp hc)
    have hslot := (h.owned.which_iff i slot c).mpr hw
    refine ⟨i, slot, hslot, h.owned.mem_of_get hslot, fun hfree => ?_⟩
    rcases h.taken c hc with hold | ⟨slot', hslot'⟩
    · simp [hfree] at hold
    · exact (h.owned.eq_of_get hslot hslot').1
  root_once := by
    have hcount := h.built (.triple 0 0 0)
    have hle := Bool.toNat_le (decide ((s.fs.inodes head).cntId.HasBlock (.triple 0 0 0)))
    simp only [Slot.level] at hcount
    refine ⟨by omega, fun hsome => ?_⟩
    have hblock : (s₀.inodes head).cntId.HasBlock (.triple 0 0 0) :=
      Option.isSome_iff_ne_none.mpr hsome
    rw [decide_eq_true hblock, Bool.toNat_true] at hcount
    omega
  size := h.owned.size_eq head

end WritersInv

/-- Calls of `dhmp_fs_write` on one file of a reachable state, in any interleaving, share its
index and its size. -/
theorem writers_run {bank : Nat → Nat → UInt8} {ops : List FsOp} {s₀ : Fs}
    (start : Run FsStep (dhmpInit bank) ops s₀) {head : InodeId} {calls : Nat → List UInt8 × Nat}
    {log : List (Nat × WriterNote)} {s : Writers}
    (run : Run (WritersStep head) (startWriters s₀ calls) log s) :
    WritersSafe s₀ head log s.fs :=
  (WritersInv.run (fsInv_run start).1 run).safe

/-- Two calls find the third indirect block missing and race for it, and for its first slot. -/
theorem writers_run_race :
    ∃ log s, (startWriters (FsOp.next (dhmpInit fun _ _ => 0) (.mknod [47, 97])) fun _ =>
        ([7], sizeSecondDirectEnd)).exec 1
          [0, 1, 0, 1, 0, 1, 0, 1, 0, 1, 1, 0, 0, 1, 0, 1, 0, 1, 1, 0, 0, 1] = some (log, s) ∧
      WritersSafe (FsOp.next (dhmpInit fun _ _ => 0) (.mknod [47, 97])) 1 log s.fs := by
  have hexec : ((startWriters (FsOp.next (dhmpInit fun _ _ => 0) (.mknod [47, 97])) fun _ =>
      ([7], sizeSecondDirectEnd)).exec 1
        [0, 1, 0, 1, 0, 1, 0, 1, 0, 1, 1, 0, 0, 1, 0, 1, 0, 1, 1, 0, 0, 1]).isSome := by
    decide +kernel
  obtain ⟨⟨log, s⟩, h⟩ := Option.isSome_iff_exists.mp hexec
  have start : Run FsStep (dhmpInit fun _ _ => 0) [.mknod [47, 97]] _ := .single (.next trivial rfl)
  exact ⟨log, s, h, writers_run start (Writers.exec_run h)⟩

/-! ## A call that no other interrupts -/

/-- The steps of one call are steps of the calls. -/
theorem Writers.run_one {head : InodeId} {s : Writers} {k : Nat} {notes : List WriterNote}
    {q : Fs × Writer} (h : Run (WriterStep head) (s.fs, s.writers k) notes q) :
    Run (WritersStep head) s (notes.map (Prod.mk k))
      ⟨q.1, Function.update s.writers k q.2⟩ := by
  induction h with
  | refl => simpa using Run.refl s
  | @snoc t u notes note _ hstep ih =>
    have hlast : WritersStep head ⟨t.1, Function.update s.writers k t.2⟩ (k, note)
        ⟨u.1, Function.update (Function.update s.writers k t.2) k u.2⟩ := by
      apply WritersStep.step
      simpa [WriterStep] using hstep
    rw [Function.update_idem] at hlast
    simpa using ih.snoc hlast

/-- A call that no other interrupts does what `dhmp_fs_write` does. -/
theorem writers_run_alone {head : InodeId} {s : Writers} {k : Nat} {buf : List UInt8}
    {offset : Nat} {s' : Fs} {res : Int} (hk : s.writers k = .call buf offset)
    (h : dhmpFsWrite s.fs head buf offset = some (s', res)) :
    ∃ (notes : List WriterNote) (w : Writer), Run (WritersStep head) s (notes.map (Prod.mk k))
      ⟨s', Function.update s.writers k w⟩ ∧ w.pc = .returned res := by
  obtain ⟨notes, w, run, hw⟩ := Writer.run_call h
  exact ⟨notes, w, Writers.run_one (hk ▸ run), hw⟩

end DhmpFs
