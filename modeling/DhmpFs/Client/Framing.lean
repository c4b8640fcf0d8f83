import DhmpFs.Library.LittleEndian
import DhmpFs.Library.Run
import DhmpFs.Remote.Servers

/-!
# The framing of messages

A message is copied to the send region behind the message before it: its type, its size and its
data. Where the region ends it starts at position 0 again. The receiver takes the three parts out
of its buffer.

Positions count from the start of the send region, `send_mr.addr`.

## Main definitions

* `dhmpSendTaskCreate`, `dhmpWcMsg`: the sender and the receiver.
* `SendState`: a send region with the messages since it last started at position 0.
* `Framed`: these messages lie apart in the region and are received as they were sent.
-/

namespace DhmpFs

open Library

/-- `SEND_REGION_SIZE` -/
abbrev sendRegionSize : Nat := 512 * 1024 * 1024

/-- `sizeof(enum dhmp_msg_type)` -/
abbrev sizeofMsgType : Nat := 4

/-- `sizeof(size_t)` -/
abbrev sizeofSizeT : Nat := 8

/-- `dhmp_msg_type` -/
inductive DhmpMsgType where
  | mallocRequest
  | mallocResponse
  | mallocError
  | freeRequest
  | freeResponse
  | applyDramRequest
  | applyDramResponse
  | clearDramRequest
  | clearDramResponse
  | memChange
  | serverInfoRequest
  | serverInfoResponse
  | closeConnection
  | sendRequest
  | sendResponse
  deriving DecidableEq, Repr

/-- The number of an enumerator. -/
def DhmpMsgType.code (t : DhmpMsgType) : Nat := t.ctorIdx

theorem DhmpMsgType.code_lt (t : DhmpMsgType) : t.code < 256 ^ sizeofMsgType := by
  cases t <;> decide

/-- `dhmp_msg`, with the bytes that `data` points to. -/
structure DhmpMsg where
  msgType : DhmpMsgType
  dataSize : Nat
  data : Bytes

/-- `dhmp_mr` with the memory at `addr`. -/
structure DhmpMr where
  curPos : Nat
  mem : Bytes

/-- `dhmp_sge`, without the key. -/
structure DhmpSge where
  addr : Nat
  length : Nat
  deriving DecidableEq, Repr

/-- Type, size and data. -/
def DhmpMsg.framedLength (msg : DhmpMsg) : Nat := sizeofMsgType + sizeofSizeT + msg.dataSize

namespace DhmpMr

/-- `sge.length`, a `size_t`. -/
def sgeLength (msg : DhmpMsg) : Nat := msg.framedLength % 2 ^ 64

/-- The test for the end of the region. -/
def wraps (mr : DhmpMr) (msg : DhmpMsg) : Prop :=
  sendRegionSize < (mr.curPos + sgeLength msg) % 2 ^ 64

instance (mr : DhmpMr) (msg : DhmpMsg) : Decidable (mr.wraps msg) :=
  inferInstanceAs (Decidable (_ < _))

/-- `dhmp_send_task_create`: the region after it and where the message lies. -/
def dhmpSendTaskCreate (mr : DhmpMr) (msg : DhmpMsg) : DhmpMr × DhmpSge :=
  let curPos := if mr.wraps msg then 0 else mr.curPos
  let sge : DhmpSge := ⟨curPos, sgeLength msg⟩
  let mem := writeBytes mr.mem sge.addr sizeofMsgType (byteLE msg.msgType.code)
  let mem := writeBytes mem (sge.addr + sizeofMsgType) sizeofSizeT (byteLE msg.dataSize)
  let mem := writeBytes mem (sge.addr + sizeofMsgType + sizeofSizeT) msg.dataSize msg.data
  (⟨(curPos + sge.length) % 2 ^ 64, mem⟩, sge)

end DhmpMr

/-- The `dhmp_msg` that the receiver reads; its type is still a number. -/
structure RecvMsg where
  msgType : Nat
  dataSize : Nat
  data : Bytes

/-- The start of `dhmp_wc_success_handler`. -/
def dhmpWcMsg (mem : Bytes) (addr : Nat) : RecvMsg where
  msgType := readLE mem sizeofMsgType addr
  dataSize := readLE mem sizeofSizeT (addr + sizeofMsgType)
  data i := mem (addr + sizeofMsgType + sizeofSizeT + i)

/-- The bytes of a message arrive in the buffer of `size` bytes at `addr`, if they fit. -/
def deliver (mem : Bytes) (sge : DhmpSge) (recv : Bytes) (addr size : Nat) : Option Bytes :=
  if sge.length ≤ size then some (writeBytes recv addr sge.length fun i => mem (sge.addr + i))
  else none

/-! ## Sending -/

/-- A send region, and what was sent since the last start at position 0, the latest first. -/
structure SendState where
  mr : DhmpMr
  lap : List (DhmpMsg × DhmpSge)

namespace SendState

/-- `dhmp_memory_register`; `malloc` leaves the memory as it is. -/
def start (mem : Bytes) : SendState := ⟨⟨0, mem⟩, []⟩

def send (s : SendState) (msg : DhmpMsg) : SendState :=
  let (mr, sge) := s.mr.dhmpSendTaskCreate msg
  ⟨mr, if s.mr.wraps msg then [(msg, sge)] else (msg, sge) :: s.lap⟩

end SendState

/-- A message is sent that fits the region. -/
inductive SendStep (s : SendState) (msg : DhmpMsg) : SendState → Prop
  | send (fits : msg.framedLength ≤ sendRegionSize) : SendStep s msg (s.send msg)

/-- The regions have no byte in common. -/
def DhmpSge.Apart (a b : DhmpSge) : Prop := a.addr + a.length ≤ b.addr ∨ b.addr + b.length ≤ a.addr

/-- The message is read as it was sent. -/
structure Received (r : RecvMsg) (msg : DhmpMsg) : Prop where
  msgType : r.msgType = msg.msgType.code
  dataSize : r.dataSize = msg.dataSize
  data : ∀ i < msg.dataSize, r.data i = msg.data i

/-- The messages of a lap lie in the region and apart from each other, and each is read as it was
sent from every receive buffer it fits. -/
structure Framed (s : SendState) : Prop where
  inside : ∀ p ∈ s.lap, p.2.length = p.1.framedLength ∧ p.2.addr + p.2.length ≤ sendRegionSize
  apart : s.lap.Pairwise fun p q => p.2.Apart q.2
  received : ∀ p ∈ s.lap, ∀ recv addr size, p.2.length ≤ size →
    ∃ recv', deliver s.mr.mem p.2 recv addr size = some recv' ∧
      Received (dhmpWcMsg recv' addr) p.1

/-! ## One message -/

/-- Byte `i` of a framed message. -/
def DhmpMsg.frame (msg : DhmpMsg) (i : Nat) : UInt8 :=
  if i < sizeofMsgType then byteLE msg.msgType.code i
  else if i < sizeofMsgType + sizeofSizeT then byteLE msg.dataSize (i - sizeofMsgType)
  else msg.data (i - (sizeofMsgType + sizeofSizeT))

section message

variable {mr : DhmpMr} {msg : DhmpMsg} {mem recv : Bytes} {addr : Nat}

/-- The three copies write the frame. -/
theorem writeBytes_frame (mem : Bytes) (pos : Nat) (msg : DhmpMsg) :
    writeBytes (writeBytes (writeBytes mem pos sizeofMsgType (byteLE msg.msgType.code))
      (pos + sizeofMsgType) sizeofSizeT (byteLE msg.dataSize))
      (pos + sizeofMsgType + sizeofSizeT) msg.dataSize msg.data =
    writeBytes mem pos msg.framedLength msg.frame := by
  funext o
  simp only [writeBytes, DhmpMsg.framedLength, DhmpMsg.frame]
  grind

/-- What the receiver reads where a frame lies. -/
theorem received_frame (hmem : ∀ i < msg.framedLength, mem (addr + i) = msg.frame i)
    (hsize : msg.framedLength ≤ sendRegionSize) : Received (dhmpWcMsg mem addr) msg := by
  simp only [DhmpMsg.framedLength] at hmem hsize
  have hlt : msg.dataSize < 256 ^ sizeofSizeT :=
    Nat.lt_of_le_of_lt (Nat.le_of_add_left_le hsize) (by decide)
  constructor
  · refine readLE_of_bytes_lt (fun i hi => ?_) msg.msgType.code_lt
    rw [hmem i (by omega), DhmpMsg.frame, if_pos hi]
  · refine readLE_of_bytes_lt (fun i hi => ?_) hlt
    have hbyte := hmem (sizeofMsgType + i) (by omega)
    rw [Nat.add_assoc, hbyte, DhmpMsg.frame, if_neg (by omega), if_pos (by omega),
      Nat.add_sub_cancel_left]
  · intro i hi
    have hbyte := hmem (sizeofMsgType + sizeofSizeT + i) (by omega)
    rw [DhmpMsg.frame, if_neg (by omega), if_neg (by omega), Nat.add_sub_cancel_left] at hbyte
    rw [← hbyte]
    simp only [dhmpWcMsg, Nat.add_assoc]

/-- Where a message goes that fits the region, and what it leaves there. -/
theorem dhmpSendTaskCreate_spec (hpos : mr.curPos ≤ sendRegionSize)
    (hfits : msg.framedLength ≤ sendRegionSize) :
    ∃ mr' sge, mr.dhmpSendTaskCreate msg = (mr', sge) ∧
      sge.length = msg.framedLength ∧ sge.addr = (if mr.wraps msg then 0 else mr.curPos) ∧
      sge.addr + sge.length = mr'.curPos ∧ mr'.curPos ≤ sendRegionSize ∧
      mr'.mem = writeBytes mr.mem sge.addr msg.framedLength msg.frame := by
  have hlength : DhmpMr.sgeLength msg = msg.framedLength := by
    rw [DhmpMr.sgeLength, Nat.mod_eq_of_lt]
    exact Nat.lt_of_le_of_lt hfits (by decide)
  have hmod : (mr.curPos + msg.framedLength) % 2 ^ 64 = mr.curPos + msg.framedLength := by
    rw [Nat.mod_eq_of_lt]
    exact Nat.lt_of_le_of_lt (Nat.add_le_add hpos hfits) (by decide)
  have hwraps : mr.wraps msg ↔ sendRegionSize < mr.curPos + msg.framedLength := by
    rw [DhmpMr.wraps, hlength, hmod]
  have hend : (if mr.wraps msg then 0 else mr.curPos) + msg.framedLength ≤ sendRegionSize := by
    split
    · simpa using hfits
    · next hroom => exact Nat.le_of_not_lt (hwraps.not.mp hroom)
  have hpos' : ((if mr.wraps msg then 0 else mr.curPos) + msg.framedLength) % 2 ^ 64 =
      (if mr.wraps msg then 0 else mr.curPos) + msg.framedLength :=
    Nat.mod_eq_of_lt (Nat.lt_of_le_of_lt hend (by decide))
  refine ⟨_, _, rfl, hlength, rfl, ?_, ?_, writeBytes_frame ..⟩
  · simp only [hlength, hpos']
  · simpa only [DhmpMr.dhmpSendTaskCreate, hlength, hpos'] using hend

end message

/-! ## The messages of a lap -/

/-- The messages of a lap lie below the current position, one behind the other, and are still
there. -/
structure SendInv (s : SendState) : Prop where
  curPos_le : s.mr.curPos ≤ sendRegionSize
  length : ∀ p ∈ s.lap, p.2.length = p.1.framedLength
  ends : ∀ p ∈ s.lap, p.2.addr + p.2.length ≤ s.mr.curPos
  behind : s.lap.Pairwise fun p q => q.2.addr + q.2.length ≤ p.2.addr
  kept : ∀ p ∈ s.lap, ∀ i < p.2.length, s.mr.mem (p.2.addr + i) = p.1.frame i

namespace SendInv

variable {s t : SendState} {msg : DhmpMsg}

theorem start (mem : Bytes) : SendInv (.start mem) where
  curPos_le := Nat.zero_le _
  length := by simp [SendState.start]
  ends := by simp [SendState.start]
  behind := .nil
  kept := by simp [SendState.start]

theorem step (h : SendInv s) (hs : SendStep s msg t) : SendInv t := by
  obtain ⟨hfits⟩ := hs
  obtain ⟨mr, sge, hcreate, hlength, haddr, hend, hpos, hmem⟩ :=
    dhmpSendTaskCreate_spec h.curPos_le hfits
  -- what is left of the lap lies below the new message
  obtain ⟨rest, hsend, hsub, hbelow⟩ : ∃ rest, s.send msg = ⟨mr, (msg, sge) :: rest⟩ ∧
      rest.Sublist s.lap ∧ ∀ p ∈ rest, p.2.addr + p.2.length ≤ sge.addr := by
    simp only [SendState.send, hcreate]
    split at haddr
    · next hwraps => exact ⟨[], by rw [if_pos hwraps], List.nil_sublist _, by simp⟩
    · next hroom => exact ⟨s.lap, by rw [if_neg hroom], .refl _, haddr ▸ h.ends⟩
  rw [hsend]
  constructor
  · exact hpos
  · rintro p (_ | ⟨_, hp⟩)
    · exact hlength
    · exact h.length p (hsub.subset hp)
  · rintro p (_ | ⟨_, hp⟩)
    · exact Nat.le_of_eq hend
    · exact (hbelow p hp).trans (hend ▸ Nat.le_add_right _ _)
  · exact .cons hbelow (h.behind.sublist hsub)
  · rintro p (_ | ⟨_, hp⟩) i hi
    · have hi : i < sge.length := hi
      have hrange : sge.addr ≤ sge.addr + i ∧ sge.addr + i < sge.addr + msg.framedLength := by
        omega
      rw [hmem, writeBytes, if_pos hrange, Nat.add_sub_cancel_left]
    · have hrange : ¬ (sge.addr ≤ p.2.addr + i ∧ p.2.addr + i < sge.addr + msg.framedLength) := by
        have := hbelow p hp
        omega
      rw [hmem, writeBytes, if_neg hrange]
      exact h.kept p (hsub.subset hp) i hi

/-- What is read of the messages of a lap. -/
theorem framed (h : SendInv s) : Framed s where
  inside p hp := ⟨h.length p hp, (h.ends p hp).trans h.curPos_le⟩
  apart := h.behind.imp .inr
  received p hp recv addr size hle := by
    have hinside := (h.ends p hp).trans h.curPos_le
    have hlength := h.length p hp
    refine ⟨_, if_pos hle, received_frame (fun i hi => ?_) (by omega)⟩
    have hrange : addr ≤ addr + i ∧ addr + i < addr + p.2.length := by omega
    rw [writeBytes, if_pos hrange, Nat.add_sub_cancel_left]
    exact h.kept p hp i (hlength ▸ hi)

end SendInv

/-- After every sequence of messages that fit the region, the messages since the last start at
position 0 lie in the region, none over another, and are received as they were sent; the last
message is one of them. -/
theorem framing_run {mem : Bytes} {msgs : List DhmpMsg} {s : SendState}
    (run : Run SendStep (.start mem) msgs s) :
    Framed s ∧ s.lap.head?.map (·.1) = msgs.getLast? := by
  refine ⟨(run.invariant SendInv (fun _ _ _ h hs => h.step hs) (.start mem)).framed, ?_⟩
  refine run.history (fun msgs s => s.lap.head?.map (·.1) = msgs.getLast?) rfl ?_
  rintro msgs s msg t - ⟨-⟩
  rw [List.getLast?_append]
  unfold SendState.send
  dsimp only
  split <;> rfl

/-- Two messages, and then one that does not fit behind them. -/
theorem framing_run_wrap : ∃ s, Run SendStep (.start fun _ => 0)
    [⟨.closeConnection, 0, fun _ => 0⟩, ⟨.freeRequest, 8, fun _ => 1⟩,
      ⟨.sendRequest, 536870900, fun _ => 2⟩] s ∧ Framed s ∧ s.lap.length = 1 := by
  have run : ∃ s, Run SendStep (.start fun _ => 0) [⟨.closeConnection, 0, fun _ => 0⟩,
      ⟨.freeRequest, 8, fun _ => 1⟩, ⟨.sendRequest, 536870900, fun _ => 2⟩] s ∧
      s.lap.length = 1 :=
    ⟨_, .cons (.send (by decide)) (.cons (.send (by decide)) (.single (.send (by decide)))),
      by decide⟩
  obtain ⟨s, h, hlap⟩ := run
  exact ⟨s, h, (framing_run h).1, hlap⟩

end DhmpFs
