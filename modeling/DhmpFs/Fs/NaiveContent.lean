import DhmpFs.Fs.Content
import DhmpFs.Fs.Naive

/-!
# The bytes of a file in a list of chunks

`Carries` relates a file of the naive file system to a content: every chunk but the last is full,
and the last ends where the file does. A write keeps it, and sets the size of the chunk it ends in
to its own end, unless that chunk is full.

## Main definitions

* `CutsBack`, `sizeAfter`: where the file ends after a write.
* `Carries`: a file carries a content, up to its size.
-/

namespace DhmpFs.Naive

/-! ## The size after a write -/

/-- The write ends before the end of the file, inside the chunk that holds it. -/
def CutsBack (size offset length : Nat) : Prop :=
  0 < length ∧ offset + length < size ∧ (offset + length) / chunkSize = size / chunkSize ∧
    (offset + length) % chunkSize ≠ 0

instance (size offset length : Nat) : Decidable (CutsBack size offset length) :=
  inferInstanceAs (Decidable (_ ∧ _))

/-- The size of a file of `size` bytes after a write. -/
def sizeAfter (size offset length : Nat) : Nat :=
  if CutsBack size offset length then offset + length else max size (offset + length)

section

variable {size cnt offset length : Nat}

theorem sizeAfter_zero (h : offset ≤ size) : sizeAfter size offset 0 = size := by
  rw [sizeAfter, if_neg fun hc => Nat.lt_irrefl 0 hc.1]
  exact Nat.max_eq_left h

/-- A write that fills a chunk, and what follows it. -/
theorem sizeAfter_fill (size cnt : Nat) (hoff : offset < chunkSize)
    (hfill : chunkSize - offset ≤ length) :
    sizeAfter (max size ((cnt + 1) * chunkSize)) ((cnt + 1) * chunkSize)
        (length - (chunkSize - offset)) =
      sizeAfter size (cnt * chunkSize + offset) length := by
  obtain ⟨l, rfl⟩ := Nat.exists_eq_add_of_le hfill
  have hend : cnt * chunkSize + offset + (chunkSize - offset + l) =
      (cnt + 1) * chunkSize + l := by
    rw [Nat.succ_mul]
    omega
  rw [Nat.add_sub_cancel_left, sizeAfter, sizeAfter, hend, Nat.max_assoc,
    Nat.max_eq_right (Nat.le_add_right _ l)]
  -- nothing is cut back at the end of a chunk, nor where the file ends before the next one
  have hiff : CutsBack (max size ((cnt + 1) * chunkSize)) ((cnt + 1) * chunkSize) l ↔
      CutsBack size (cnt * chunkSize + offset) (chunkSize - offset + l) := by
    unfold CutsBack
    rw [hend]
    simp only [chunkSize] at *
    omega
  simp only [hiff]

/-- A write that ends inside its chunk. -/
theorem sizeAfter_inside (hle : cnt * chunkSize + offset ≤ size) (hpos : 0 < length)
    (hfit : offset + length < chunkSize) :
    sizeAfter size (cnt * chunkSize + offset) length =
      if (cnt + 1) * chunkSize ≤ size then size else cnt * chunkSize + (length + offset) := by
  unfold sizeAfter CutsBack
  simp only [chunkSize] at *
  grind

end

/-! ## Contents -/

/-- The byte at an offset of a chunk. -/
def chunkByte (n : State) (c k : Nat) : UInt8 := n.bank (bankId c) (bankOffset c + k)

theorem bankId_eq (c : Nat) : c / (chunkNum / bankNum) = bankId c := by
  simp only [bankId, chunkNum, bankNum, totolSize, chunkSize, bankSize]
  omega

theorem bankOffset_eq (c k : Nat) :
    k + c % (chunkNum / bankNum) * chunkSize = bankOffset c + k := by
  simp only [bankOffset, chunkNum, bankNum, totolSize, chunkSize, bankSize]
  omega

theorem chunkByte_writeToBank {n : State} {c d offset k : Nat} {bytes : List UInt8}
    (hk : k < chunkSize) (hfit : offset + bytes.length ≤ chunkSize) :
    chunkByte (writeToBank n c bytes offset) d k =
      if d = c ∧ offset ≤ k ∧ k < offset + bytes.length then bytes.getD (k - offset) 0
      else chunkByte n d k := by
  have hbank : (writeToBank n c bytes offset).bank =
      ((dhmpInit n.bank).writeToCache (bankId c) bytes (bankOffset c + offset)).bank := by
    simp only [writeToBank, bankId_eq, bankOffset_eq]
    rfl
  unfold chunkByte
  rw [hbank]
  exact DhmpFs.chunkByte_writeToCache hk hfit

theorem readFromBank_eq (n : State) (c size offset : Nat) :
    readFromBank n c size offset = (List.range size).map fun k => chunkByte n c (offset + k) := by
  simp only [readFromBank, bankId_eq, bankOffset_eq, chunkByte, Nat.add_assoc]

/-- The file `f` has `size` bytes, and its chunks carry the content `a`. Every chunk but the last
is full. -/
structure Carries (n : State) (f : InodeId) (a : Content) (size : Nat) : Prop where
  regular : (n.inodes f).isDirectories = false
  inodeSize : (n.inodes f).size = size
  used : ∀ {j : Nat} {x : Context}, (n.inodes f).context[j]? = some x →
    n.bitmap x.chunkIndex = true
  apart : ∀ {i j : Nat} {x y : Context}, (n.inodes f).context[i]? = some x →
    (n.inodes f).context[j]? = some y → x.chunkIndex = y.chunkIndex → i = j
  chunk : ∀ {j : Nat} {x : Context}, (n.inodes f).context[j]? = some x →
    x.size = min chunkSize (size - j * chunkSize)
  covers : size ≤ (n.inodes f).context.length * chunkSize
  tight : ((n.inodes f).context.length - 1) * chunkSize ≤ size
  below : ∀ p, a p ≠ none → p < (n.inodes f).context.length * chunkSize
  byte : ∀ {j : Nat} {x : Context}, (n.inodes f).context[j]? = some x → ∀ k < chunkSize, ∀ b,
    a (j * chunkSize + k) = some b → chunkByte n x.chunkIndex k = b

section

variable {n n' : State} {f : InodeId} {a : Content} {size : Nat}

theorem firstFree_spec (bitmap : Nat → Bool) (left i : Nat) :
    i ≤ firstFree bitmap left i ∧ firstFree bitmap left i ≤ i + left ∧
      (firstFree bitmap left i < i + left → bitmap (firstFree bitmap left i) = false) ∧
      ∀ j, i ≤ j → j < firstFree bitmap left i → bitmap j = true := by
  induction left generalizing i with
  | zero =>
    exact ⟨Nat.le_refl i, Nat.le_refl i, fun h => absurd h (Nat.lt_irrefl i),
      fun j hij hj => absurd hij (Nat.not_le.mpr hj)⟩
  | succ left ih =>
    rw [firstFree]
    by_cases hi : bitmap i = true
    · rw [if_pos hi]
      obtain ⟨hge, hle, hfree, hused⟩ := ih (i + 1)
      refine ⟨by omega, by omega, fun h => hfree (by omega), fun j hij hj => ?_⟩
      rcases Nat.eq_or_lt_of_le hij with rfl | hij
      · exact hi
      · exact hused j hij hj
    · rw [if_neg hi]
      exact ⟨Nat.le_refl i, Nat.le_add_right i _, fun _ => by simpa using hi,
        fun j hij hj => absurd hij (Nat.not_le.mpr hj)⟩

theorem getFreeChunk_some {i : Nat} (h : getFreeChunk n = some (n', i)) :
    i < chunkNum ∧ n.bitmap i = false ∧
      n' = { n with bitmap := Function.update n.bitmap i true } := by
  obtain ⟨-, hle, hfree, -⟩ := firstFree_spec n.bitmap chunkNum 0
  simp only [getFreeChunk] at h
  split at h
  · simp at h
  · next hne =>
    simp only [Option.some.injEq, Prod.mk.injEq] at h
    obtain ⟨rfl, rfl⟩ := h
    exact ⟨by omega, hfree (by omega), rfl⟩

theorem append_some (h : append n f = some n') :
    ∃ i < chunkNum, n.bitmap i = false ∧
      n' = State.modify { n with bitmap := Function.update n.bitmap i true } f fun x =>
        { x with context := x.context ++ [⟨i, 0⟩] } := by
  obtain ⟨⟨n1, i⟩, hget, rfl⟩ := Option.map_eq_some_iff.mp h
  obtain ⟨hlt, hfree, rfl⟩ := getFreeChunk_some hget
  exact ⟨i, hlt, hfree, rfl⟩

theorem append_length (h : append n f = some n') :
    (n'.inodes f).context.length = (n.inodes f).context.length + 1 := by
  obtain ⟨i, -, -, rfl⟩ := append_some h
  simp

theorem getElem?_snoc {α : Type*} {l : List α} {x y : α} {j : Nat} :
    (l ++ [x])[j]? = some y ↔ l[j]? = some y ∨ j = l.length ∧ y = x := by
  rcases Nat.lt_trichotomy j l.length with hlt | rfl | hgt
  · rw [List.getElem?_append_left hlt]
    simp [Nat.ne_of_lt hlt]
  · simp [eq_comm]
  · have hnone : l[j]? = none := List.getElem?_eq_none (Nat.le_of_lt hgt)
    have hnone' : (l ++ [x])[j]? = none := List.getElem?_eq_none (by simp; omega)
    simp [hnone, hnone', Nat.ne_of_gt hgt]

/-- A full list gets a chunk without data. -/
theorem Carries.append (h : Carries n f a size)
    (hfull : (n.inodes f).context.length * chunkSize ≤ size) (happ : append n f = some n') :
    Carries n' f a size := by
  obtain ⟨i, -, hfree, rfl⟩ := append_some happ
  have hsize := Nat.le_antisymm h.covers hfull
  have hother : ∀ {j : Nat} {x : Context}, (n.inodes f).context[j]? = some x →
      x.chunkIndex ≠ i := by
    rintro j x hx rfl
    simp [h.used hx] at hfree
  constructor
  case regular => simpa using h.regular
  case inodeSize => simpa using h.inodeSize
  case used =>
    intro j x hx
    simp only [State.modify_inodes_self, State.modify_bitmap, getElem?_snoc] at hx ⊢
    rcases hx with hx | ⟨-, rfl⟩
    · rw [Function.update_of_ne (hother hx)]
      exact h.used hx
    · exact Function.update_self ..
  case apart =>
    intro j k x y hx hy hxy
    simp only [State.modify_inodes_self, getElem?_snoc] at hx hy
    rcases hx with hx | ⟨rfl, rfl⟩ <;> rcases hy with hy | ⟨rfl, rfl⟩
    · exact h.apart hx hy hxy
    · exact absurd hxy (hother hx)
    · exact absurd hxy.symm (hother hy)
    · rfl
  case chunk =>
    intro j x hx
    simp only [State.modify_inodes_self, getElem?_snoc] at hx
    rcases hx with hx | ⟨rfl, rfl⟩
    · exact h.chunk hx
    · simp [hsize]
  case covers =>
    simp only [State.modify_inodes_self, List.length_append, List.length_singleton]
    exact h.covers.trans (Nat.mul_le_mul_right _ (Nat.le_succ _))
  case tight =>
    simpa using hfull
  case below =>
    intro p hp
    simp only [State.modify_inodes_self, List.length_append, List.length_singleton]
    exact (h.below p hp).trans_le (Nat.mul_le_mul_right _ (Nat.le_succ _))
  case byte =>
    intro j x hx k hk b hb
    simp only [State.modify_inodes_self, getElem?_snoc] at hx
    rcases hx with hx | ⟨rfl, rfl⟩
    · exact h.byte hx k hk b hb
    · have hbelow := h.below ((n.inodes f).context.length * chunkSize + k) (by rw [hb]; simp)
      exact absurd hbelow (Nat.not_lt.mpr (Nat.le_add_right ..))

/-- Bytes are placed in a chunk. -/
theorem Carries.writeToBank (h : Carries n f a size) {cnt offset : Nat} {x : Context}
    (hx : (n.inodes f).context[cnt]? = some x) {bytes : List UInt8}
    (hfit : offset + bytes.length ≤ chunkSize) (hoff : offset < chunkSize) :
    Carries (writeToBank n x.chunkIndex bytes offset) f
      (patch a (cnt * chunkSize + offset) bytes) size := by
  have hdiv : (cnt * chunkSize + offset) / chunkSize = cnt := by
    simp only [chunkSize] at *
    omega
  have hmod : (cnt * chunkSize + offset) % chunkSize = offset := by
    simp only [chunkSize] at *
    omega
  have hpatch : ∀ {j k : Nat}, k < chunkSize →
      patch a (cnt * chunkSize + offset) bytes (j * chunkSize + k) =
        if j = cnt ∧ offset ≤ k ∧ k < offset + bytes.length then bytes[k - offset]?
        else a (j * chunkSize + k) := by
    intro j k hk
    rw [patch_chunk a (by rwa [hmod]) hk, hdiv, hmod]
  refine ⟨h.regular, h.inodeSize, h.used, h.apart, h.chunk, h.covers, h.tight, fun p hp => ?_,
    fun {j y} hy k hk b hb => ?_⟩
  · have hlt : cnt < (n.inodes f).context.length := (List.getElem?_eq_some_iff.mp hx).1
    have hend := Nat.mul_le_mul_right chunkSize hlt
    rw [Nat.succ_mul] at hend
    unfold patch at hp
    split at hp
    · exact Nat.lt_of_lt_of_le (by omega) hend
    · exact h.below p hp
  · rw [chunkByte_writeToBank hk hfit]
    rw [hpatch hk] at hb
    by_cases hin : j = cnt ∧ offset ≤ k ∧ k < offset + bytes.length
    · obtain ⟨rfl, hlo, hhi⟩ := hin
      obtain rfl : y = x := Option.some.inj (hy.symm.trans hx)
      rw [if_pos ⟨rfl, hlo, hhi⟩] at hb ⊢
      rw [List.getD_eq_getElem?_getD, hb, Option.getD_some]
    · rw [if_neg hin] at hb
      rw [if_neg (fun hc => hin ⟨h.apart hy hx hc.1, hc.2⟩)]
      exact h.byte hy k hk b hb

/-- The chunks after a change of size. -/
theorem getElem?_resized {l : List Context} {cnt j newSize : Nat} {x y : Context}
    (hx : l[cnt]? = some x) (h : (l.set cnt { x with size := newSize })[j]? = some y) :
    ∃ z, l[j]? = some z ∧ y = { z with size := if j = cnt then newSize else z.size } := by
  rw [List.getElem?_set] at h
  by_cases hj : cnt = j
  · subst hj
    rw [if_pos rfl, if_pos (List.getElem?_eq_some_iff.mp hx).1] at h
    exact ⟨x, hx, by rw [if_pos rfl, ← Option.some.inj h]⟩
  · rw [if_neg hj] at h
    exact ⟨y, h, by rw [if_neg (Ne.symm hj)]⟩

/-- The size of a chunk changes. A chunk that is full stays full; the others are the last. -/
theorem Carries.resize (h : Carries n f a size) (hmax : size < 2 ^ 63) {cnt newSize : Nat}
    {x : Context} (hx : (n.inodes f).context[cnt]? = some x) (hnew : newSize ≤ chunkSize)
    (hfull : x.size = chunkSize → newSize = chunkSize) :
    Carries (resize n f cnt x newSize) f a
      (if x.size = chunkSize then size else cnt * chunkSize + newSize) := by
  have hlt : cnt < (n.inodes f).context.length := (List.getElem?_eq_some_iff.mp hx).1
  have hxs := h.chunk hx
  have htight := h.tight
  have hcovers := h.covers
  have hsub : subU64 size x.size = size - x.size := subU64_eq (by omega) (by omega)
  have hadd : addU64 (size - x.size) newSize = size - x.size + newSize :=
    addU64_eq (by simp only [chunkSize] at *; omega)
  constructor
  case regular => simpa using h.regular
  case inodeSize =>
    simp only [resize_inodes, h.inodeSize, hsub, hadd]
    simp only [chunkSize] at *
    split <;> omega
  case used =>
    intro j y hy
    simp only [resize_inodes] at hy ⊢
    obtain ⟨z, hz, rfl⟩ := getElem?_resized hx hy
    exact (h.used hz :)
  case apart =>
    intro i j y y' hy hy' heq
    simp only [resize_inodes] at hy hy'
    obtain ⟨z, hz, rfl⟩ := getElem?_resized hx hy
    obtain ⟨z', hz', rfl⟩ := getElem?_resized hx hy'
    exact h.apart hz hz' heq
  case chunk =>
    intro j y hy
    simp only [resize_inodes] at hy
    obtain ⟨z, hz, rfl⟩ := getElem?_resized hx hy
    have hj : j < (n.inodes f).context.length := (List.getElem?_eq_some_iff.mp hz).1
    have hzs := h.chunk hz
    simp only [chunkSize] at *
    split <;> split <;> omega
  case covers =>
    simp only [resize_inodes, List.length_set]
    have hend := Nat.mul_le_mul_right chunkSize hlt
    rw [Nat.succ_mul] at hend
    split
    · exact hcovers
    · exact (Nat.add_le_add_left hnew _).trans hend
  case tight =>
    simp only [resize_inodes, List.length_set]
    simp only [chunkSize] at *
    split <;> omega
  case below =>
    intro p hp
    simp only [resize_inodes, List.length_set]
    exact h.below p hp
  case byte =>
    intro j y hy k hk b hb
    simp only [resize_inodes] at hy
    obtain ⟨z, hz, rfl⟩ := getElem?_resized hx hy
    exact h.byte hz k hk b hb

/-- A chunk is full exactly when the file reaches its end. -/
theorem Carries.full_iff (h : Carries n f a size) {cnt : Nat} {x : Context}
    (hx : (n.inodes f).context[cnt]? = some x) :
    x.size = chunkSize ↔ (cnt + 1) * chunkSize ≤ size := by
  rw [h.chunk hx]
  simp only [chunkSize]
  omega

/-- Bytes are placed up to the end of a chunk. -/
theorem Carries.fill (h : Carries n f a size) (hmax : size < 2 ^ 63) {cnt offset : Nat}
    {x : Context} (hx : (n.inodes f).context[cnt]? = some x) {bytes : List UInt8}
    (hfit : offset + bytes.length = chunkSize) (hoff : offset < chunkSize)
    (hn : Naive.resize (Naive.writeToBank n x.chunkIndex bytes offset) f cnt x chunkSize = n') :
    Carries n' f (patch a (cnt * chunkSize + offset) bytes) (max size ((cnt + 1) * chunkSize)) ∧
      (n'.inodes f).context.length = (n.inodes f).context.length := by
  subst hn
  refine ⟨?_, by simp⟩
  have hplaced := h.writeToBank hx (Nat.le_of_eq hfit) hoff
  have hresized := hplaced.resize hmax hx (Nat.le_refl _) fun _ => rfl
  have hsize : (if x.size = chunkSize then size else cnt * chunkSize + chunkSize) =
      max size ((cnt + 1) * chunkSize) := by
    by_cases hfull : x.size = chunkSize
    · rw [if_pos hfull, Nat.max_eq_left ((h.full_iff hx).mp hfull)]
    · have hend : size < (cnt + 1) * chunkSize :=
        Nat.not_le.mp fun hge => hfull ((h.full_iff hx).mpr hge)
      rw [if_neg hfull, ← Nat.succ_mul, Nat.max_eq_right (Nat.le_of_lt hend)]
  rwa [hsize] at hresized

/-- Bytes are placed in a chunk and do not reach its end. -/
theorem Carries.finish (h : Carries n f a size) (hmax : size < 2 ^ 63) {cnt offset : Nat}
    {x : Context} (hx : (n.inodes f).context[cnt]? = some x) {bytes : List UInt8}
    (hne : bytes ≠ []) (hfit : offset + bytes.length < chunkSize)
    (hle : cnt * chunkSize + offset ≤ size)
    (hn : (if x.size ≠ chunkSize then
        some (Naive.resize (Naive.writeToBank n x.chunkIndex bytes offset) f cnt x
          (bytes.length + offset))
      else some (Naive.writeToBank n x.chunkIndex bytes offset)) = some n') :
    Carries n' f (patch a (cnt * chunkSize + offset) bytes)
        (sizeAfter size (cnt * chunkSize + offset) bytes.length) ∧
      (n'.inodes f).context.length = (n.inodes f).context.length := by
  have hpos := List.length_pos_iff.mpr hne
  have hplaced := h.writeToBank hx (Nat.le_of_lt hfit) (by omega)
  rw [sizeAfter_inside hle hpos hfit]
  split at hn
  · next hpart =>
    obtain rfl := Option.some.inj hn
    refine ⟨?_, by simp⟩
    have hresized := hplaced.resize hmax hx (by omega : bytes.length + offset ≤ chunkSize)
      fun hfull => absurd hfull hpart
    rw [if_neg hpart] at hresized
    rwa [if_neg fun hend => hpart ((h.full_iff hx).mpr hend)]
  · next hfull =>
    obtain rfl := Option.some.inj hn
    rw [if_pos ((h.full_iff hx).mp (Decidable.not_not.mp hfull))]
    exact ⟨hplaced, rfl⟩

/-! ## The loops -/

/-- Every chunk that a write skips is full, and there is a chunk at its offset afterwards. -/
theorem Carries.skipWrite (h : Carries n f a size) {i cnt writeOffset : Nat} {cnt' : Option Nat}
    (hcnt : cnt < (n.inodes f).context.length)
    (hoff : (cnt + i) * chunkSize + writeOffset ≤ size)
    (hskip : skipWrite n f writeOffset i cnt = some (n', cnt')) :
    Carries n' f a size ∧ cnt' = some (cnt + i) ∧ cnt + i < (n'.inodes f).context.length := by
  induction i generalizing cnt with
  | zero =>
    simp only [Naive.skipWrite, Option.some.injEq, Prod.mk.injEq] at hskip
    obtain ⟨rfl, rfl⟩ := hskip
    exact ⟨h, rfl, hcnt⟩
  | succ i ih =>
    have hx := List.getElem?_eq_getElem hcnt
    have hle : (cnt + 1) * chunkSize ≤ size := by
      refine Nat.le_trans ?_ ((Nat.le_add_right _ writeOffset).trans hoff)
      exact Nat.mul_le_mul_right _ (by omega)
    have hfull : ((n.inodes f).context[cnt]).size = chunkSize := by
      rw [h.chunk hx]
      rw [Nat.succ_mul] at hle
      omega
    rw [Naive.skipWrite, hx] at hskip
    simp only [hfull, ne_eq, not_true_eq_false, if_false] at hskip
    split at hskip
    · next hlast =>
      obtain ⟨rfl, -, hnone⟩ := hlast
      have hlen : (n.inodes f).context.length ≤ cnt + 1 := List.getElem?_eq_none_iff.mp hnone
      obtain ⟨n₁, happ, heq⟩ := Option.map_eq_some_iff.mp hskip
      obtain ⟨rfl, rfl⟩ := Prod.mk.inj heq
      have hlen₁ := append_length happ
      exact ⟨h.append ((Nat.mul_le_mul_right _ hlen).trans hle) happ, rfl, by omega⟩
    · next hmore =>
      have hcnt' : cnt + 1 < (n.inodes f).context.length := by
        by_contra hge
        have hcovers := h.covers
        have hlen : (n.inodes f).context.length = cnt + 1 := by omega
        rw [hlen] at hcovers
        refine hmore ⟨?_, ?_, List.getElem?_eq_none (Nat.not_lt.mp hge)⟩
        all_goals
          simp only [chunkSize] at *
          omega
      have hsum : cnt + 1 + i = cnt + (i + 1) := by omega
      rw [← hsum]
      exact ih hcnt' (hsum ▸ hoff) hskip

/-- A write as a piece that fills a chunk and the rest. -/
theorem patch_fill (a : Content) (cnt : Nat) {offset : Nat} {bytes : List UInt8}
    (hoff : offset < chunkSize) (hfill : chunkSize - offset ≤ bytes.length) :
    patch (patch a (cnt * chunkSize + offset) (bytes.take (chunkSize - offset)))
        ((cnt + 1) * chunkSize) (bytes.drop (chunkSize - offset)) =
      patch a (cnt * chunkSize + offset) bytes := by
  have hend : (cnt + 1) * chunkSize =
      cnt * chunkSize + offset + (bytes.take (chunkSize - offset)).length := by
    rw [List.length_take_of_le hfill, Nat.succ_mul]
    omega
  rw [hend, ← patch_append, List.take_append_drop]

/-- What a write leaves. -/
theorem Carries.writeLoop {rounds cnt writeOffset : Nat} {rest : List UInt8}
    (h : Carries n f a size) (hwo : writeOffset < chunkSize)
    (hoff : cnt * chunkSize + writeOffset ≤ size)
    (hmax : max size (cnt * chunkSize + writeOffset + rest.length) < 2 ^ 62)
    (hcnt : rest ≠ [] → cnt < (n.inodes f).context.length) (hr : rest.length ≤ rounds)
    (hloop : writeLoop rounds n f rest cnt writeOffset = some n') :
    Carries n' f (patch a (cnt * chunkSize + writeOffset) rest)
        (sizeAfter size (cnt * chunkSize + writeOffset) rest.length) ∧
      (n.inodes f).context.length ≤ (n'.inodes f).context.length := by
  induction rounds generalizing n a size rest cnt writeOffset with
  | zero =>
    obtain rfl : rest = [] := by simpa using hr
    obtain rfl := Option.some.inj hloop
    rw [patch_nil, List.length_nil, sizeAfter_zero hoff]
    exact ⟨h, Nat.le_refl _⟩
  | succ rounds ih =>
    by_cases hne : rest = []
    · subst hne
      rw [Naive.writeLoop, if_pos rfl] at hloop
      obtain rfl := Option.some.inj hloop
      rw [patch_nil, List.length_nil, sizeAfter_zero hoff]
      exact ⟨h, Nat.le_refl _⟩
    have hlt := hcnt hne
    have hx := List.getElem?_eq_getElem hlt
    have hpos := List.length_pos_iff.mpr hne
    have hsub : subU64 chunkSize writeOffset = chunkSize - writeOffset :=
      subU64_eq (by decide) (Nat.le_of_lt hwo)
    rw [Naive.writeLoop, if_neg hne, hx] at hloop
    simp only [hsub] at hloop
    by_cases hfill : chunkSize - writeOffset ≤ rest.length
    · rw [if_pos hfill] at hloop
      have hlen : (rest.take (chunkSize - writeOffset)).length = chunkSize - writeOffset :=
        List.length_take_of_le hfill
      have hfit : writeOffset + (rest.take (chunkSize - writeOffset)).length = chunkSize := by
        omega
      generalize hn₁ : Naive.resize (Naive.writeToBank n ((n.inodes f).context[cnt]).chunkIndex
        (rest.take (chunkSize - writeOffset)) writeOffset) f cnt ((n.inodes f).context[cnt])
        chunkSize = n₁ at hloop
      obtain ⟨hfilled, hlen₁⟩ := h.fill (by omega) hx hfit hwo hn₁
      -- the chunk is filled, and the rest of the buffer starts the next one
      have hrest : ∀ m, Carries m f (patch a (cnt * chunkSize + writeOffset)
            (rest.take (chunkSize - writeOffset))) (max size ((cnt + 1) * chunkSize)) →
          (rest.drop (chunkSize - writeOffset) ≠ [] → cnt + 1 < (m.inodes f).context.length) →
          Naive.writeLoop rounds m f (rest.drop (chunkSize - writeOffset)) (cnt + 1) 0 = some n' →
          Carries n' f (patch a (cnt * chunkSize + writeOffset) rest)
              (sizeAfter size (cnt * chunkSize + writeOffset) rest.length) ∧
            (m.inodes f).context.length ≤ (n'.inodes f).context.length := by
        intro m hm hcnt' hloop
        have hzero : (cnt + 1) * chunkSize + 0 = (cnt + 1) * chunkSize := Nat.add_zero _
        have hmax' : max (max size ((cnt + 1) * chunkSize)) ((cnt + 1) * chunkSize +
            (rest.drop (chunkSize - writeOffset)).length) < 2 ^ 62 := by
          rw [List.length_drop, Nat.succ_mul]
          omega
        obtain ⟨hcarries, hlen'⟩ := ih hm chunkSize_pos (by rw [hzero]; exact Nat.le_max_right ..)
          (by rw [hzero]; exact hmax') hcnt' (by rw [List.length_drop]; omega) hloop
        rw [hzero, patch_fill a cnt hwo hfill, List.length_drop,
          sizeAfter_fill size cnt hwo hfill] at hcarries
        exact ⟨hcarries, hlen'⟩
      split at hloop
      · next hnext =>
        obtain ⟨n₂, happ, hloop⟩ := Option.bind_eq_some_iff.mp hloop
        have hlast := List.getElem?_eq_none_iff.mp hnext.1
        have happended := hfilled.append
          ((Nat.mul_le_mul_right _ hlast).trans (Nat.le_max_right ..)) happ
        have hlen₂ := append_length happ
        obtain ⟨hcarries, hlen'⟩ := hrest n₂ happended (fun _ => by omega) hloop
        exact ⟨hcarries, by omega⟩
      · next hnext =>
        obtain ⟨hcarries, hlen'⟩ := hrest n₁ hfilled (fun hdrop => by
          by_contra hge
          exact hnext ⟨List.getElem?_eq_none (Nat.not_lt.mp hge), hdrop⟩) hloop
        exact ⟨hcarries, by omega⟩
    · rw [if_neg hfill] at hloop
      obtain ⟨hfinish, hlen'⟩ := h.finish (by omega) hx hne (by omega) hoff hloop
      exact ⟨hfinish, Nat.le_of_eq hlen'.symm⟩

/-- The bytes of the content between two positions. -/
def bytesOf (a : Content) (offset length : Nat) : List UInt8 :=
  (List.range length).map fun i => (a (offset + i)).getD 0

theorem bytesOf_add (a : Content) (offset m n : Nat) :
    bytesOf a offset (m + n) = bytesOf a offset m ++ bytesOf a (offset + m) n := by
  simp [bytesOf, List.range_add, Nat.add_assoc]

/-- A read within the data of a chunk. -/
theorem Carries.readFromBank (h : Carries n f a size) (hfull : ∀ p < size, a p ≠ none)
    {j offset length : Nat} {x : Context} (hx : (n.inodes f).context[j]? = some x)
    (hfit : offset + length ≤ x.size) :
    readFromBank n x.chunkIndex length offset = bytesOf a (j * chunkSize + offset) length := by
  have hsize := h.chunk hx
  rw [readFromBank_eq]
  refine List.map_congr_left fun i hi => ?_
  have hi : i < length := List.mem_range.mp hi
  obtain ⟨b, hb⟩ := Option.ne_none_iff_exists'.mp
    (hfull (j * chunkSize + (offset + i)) (by omega))
  rw [Nat.add_assoc, hb, h.byte hx _ (by omega) b hb, Option.getD_some]

/-- A read that starts in the data of a chunk, or at its end. -/
theorem Carries.readLoop (h : Carries n f a size) (hfull : ∀ p < size, a p ≠ none)
    {l : List Context} {j readOffset : Nat} (unRead : Nat)
    (hl : (n.inodes f).context.drop j = l) (hle : readOffset ≤ size - j * chunkSize)
    (hlt : readOffset < chunkSize) :
    readLoop n l readOffset unRead =
      bytesOf a (j * chunkSize + readOffset)
        (min unRead (size - (j * chunkSize + readOffset))) := by
  induction l generalizing j readOffset unRead with
  | nil =>
    have hlen : (n.inodes f).context.length ≤ j := List.drop_eq_nil_iff.mp hl
    have hend := h.covers.trans (Nat.mul_le_mul_right chunkSize hlen)
    have hzero : min unRead (size - (j * chunkSize + readOffset)) = 0 := by omega
    rw [hzero]
    rfl
  | cons x rest ih =>
    have hx : (n.inodes f).context[j]? = some x := by
      rw [← List.head?_drop, hl, List.head?_cons]
    have hrest : (n.inodes f).context.drop (j + 1) = rest := by
      rw [← List.tail_drop, hl, List.tail_cons]
    have hsize := h.chunk hx
    have hsub : subU64 x.size readOffset = x.size - readOffset :=
      subU64_eq (by simp only [chunkSize] at hsize; omega) (by omega)
    rw [Naive.readLoop]
    simp only [hsub]
    by_cases hzero : unRead = 0
    · rw [if_pos hzero, hzero, Nat.zero_min]
      rfl
    rw [if_neg hzero]
    by_cases hmore : x.size - readOffset ≤ unRead
    · rw [if_pos hmore, h.readFromBank hfull hx (by omega),
        ih _ hrest (Nat.zero_le _) chunkSize_pos]
      -- the next chunk goes on where a full one ends; behind the others there is nothing
      by_cases hx' : x.size = chunkSize
      · have hreach := (h.full_iff hx).mp hx'
        have hend : (j + 1) * chunkSize + 0 =
            j * chunkSize + readOffset + (x.size - readOffset) := by
          rw [Nat.add_zero ((j + 1) * chunkSize), Nat.succ_mul]
          omega
        have hmin : min unRead (size - (j * chunkSize + readOffset)) = x.size - readOffset +
            min (unRead - (x.size - readOffset)) (size - ((j + 1) * chunkSize + 0)) := by
          rw [hend]
          omega
        rw [hmin, bytesOf_add, hend]
      · have hlast : size < (j + 1) * chunkSize :=
          Nat.not_le.mp fun hge => hx' ((h.full_iff hx).mpr hge)
        have hmin :
            min (unRead - (x.size - readOffset)) (size - ((j + 1) * chunkSize + 0)) = 0 := by
          rw [Nat.add_zero ((j + 1) * chunkSize), Nat.sub_eq_zero_of_le (Nat.le_of_lt hlast),
            Nat.min_zero]
        have hmin' : min unRead (size - (j * chunkSize + readOffset)) = x.size - readOffset := by
          rw [Nat.succ_mul] at hlast
          omega
        rw [hmin, hmin']
        exact List.append_nil _
    · rw [if_neg hmore, h.readFromBank hfull hx (by omega)]
      have hmin : min unRead (size - (j * chunkSize + readOffset)) = unRead := by omega
      rw [hmin]

theorem skipRead_eq_drop {l : List Context} {i : Nat}
    (h : ∀ j < i, ∃ x, l[j]? = some x ∧ x.size = chunkSize) : skipRead l i = some (l.drop i) := by
  induction i generalizing l with
  | zero => cases l <;> rfl
  | succ i ih =>
    obtain ⟨x, hx, hfull⟩ := h 0 (Nat.succ_pos i)
    cases l with
    | nil => simp at hx
    | cons y rest =>
      obtain rfl : y = x := by simpa using hx
      rw [skipRead, if_pos hfull, List.drop_succ_cons]
      exact ih fun j hj => by simpa using h (j + 1) (Nat.succ_lt_succ hj)

end

end DhmpFs.Naive
