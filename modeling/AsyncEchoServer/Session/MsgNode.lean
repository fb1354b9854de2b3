import AsyncEchoServer.Cpp.Integers

/-!
# `Session/MsgNode.lean` — message nodes

A `MsgNode` is a heap buffer of `_total_len + 1` bytes with a fill mark `_cur_len`. The size of
the buffer is a field of the model's type (`size`): no operation below can build a node whose
buffer disagrees with `totalLen`, and no later proof has to say so.

Two things can go wrong around one. `new char[n]` throws when `n` is negative
(`Fault.badArrayNewLength`), and a copy or a store can fall outside the buffer
(`Fault.outOfBounds`), which is undefined behaviour. The receive path has to be followed past
such a copy — the claims about it are about the integer fields — so `write` leaves the buffer
alone when the range does not fit and the caller logs the access. The encoders below stop
instead: nothing is known about a node built by an overflowing `memcpy`.

`SendNode` is the constructor in `MsgNode.cpp`, the same text in both version-3 servers.
`Server.msgNode` is the version-2.1 constructor that frames a payload.
-/

set_option autoImplicit false

namespace AsyncEchoServer

/-- `HEAD_TOTAL_LEN`. -/
def headTotalLen : Nat := 4

/-- `HEAD_ID_LEN`. -/
def headIdLen : Nat := 2

/-- `HEAD_DATA_LEN`. -/
def headDataLen : Nat := 2

/-- `HEAD_LENGTH`, the whole header of version 2.1. -/
def headLength : Nat := 2

/-- `MAX_LENGTH`. -/
def maxLength : Nat := 1024 * 2

inductive Fault where
  /-- `std::bad_array_new_length` -/
  | badArrayNewLength
  /-- undefined behaviour: an access outside an object -/
  | outOfBounds
  deriving Repr, DecidableEq

/-! ## Buffers -/

/-- `memcpy(buf + off, src, |src|)`; nothing is written when the range is not in `buf`. -/
def blit (buf : Bytes) (off : Int) (src : Bytes) : Bytes :=
  if 0 ≤ off ∧ off.toNat + src.length ≤ buf.length then
    buf.take off.toNat ++ (src ++ buf.drop (off.toNat + src.length))
  else buf

@[simp] theorem blit_length (buf : Bytes) (off : Int) (src : Bytes) :
    (blit buf off src).length = buf.length := by
  unfold blit
  split
  · simp only [List.length_append, List.length_take, List.length_drop]
    omega
  · rfl

/-- What stands in front of a copy's end is what was there, then the copy. -/
theorem blit_take (buf src : Bytes) {k : Nat} (h : k + src.length ≤ buf.length) :
    (blit buf (k : Int) src).take (k + src.length) = buf.take k ++ src := by
  have hlen : (buf.take k ++ src).length = k + src.length := by
    rw [List.length_append, List.length_take]
    omega
  rw [blit, if_pos ⟨by omega, by simpa using h⟩, Int.toNat_natCast, ← List.append_assoc]
  exact List.take_left' hlen

theorem blit_take_of_le {buf src : Bytes} {off : Int} {k : Nat} (h : k ≤ off.toNat) :
    (blit buf off src).take k = buf.take k := by
  unfold blit
  split
  · rename_i hfit
    rw [List.take_append_of_le_length (by rw [List.length_take]; omega), List.take_take,
      Nat.min_eq_left h]
  · rfl

/-- `n` bytes from `data + off`. -/
def slice (data : Bytes) (off : Int) (n : Nat) : Bytes := (data.drop off.toNat).take n

/-! ## `MsgNode` -/

structure MsgNode where
  totalLen : Short
  curLen : Short
  data : Bytes
  /-- `_data` has `_total_len + 1` bytes -/
  size : data.length = (totalLen.toInt + 1).toNat

namespace MsgNode

/-- The node whose buffer is `new char[max_len + 1]()`. -/
def zeroed (maxLen : Short) : MsgNode where
  totalLen := maxLen
  curLen := toShort 0
  data := List.replicate (maxLen.toInt + 1).toNat 0
  size := List.length_replicate

/-- `MsgNode(short max_len)`. -/
def new (maxLen : Short) : Except Fault MsgNode :=
  if maxLen.toInt + 1 < 0 then .error .badArrayNewLength else .ok (zeroed maxLen)

/-- `memcpy(_data + off, src, |src|)`. -/
def write (m : MsgNode) (off : Int) (src : Bytes) : MsgNode :=
  { m with data := blit m.data off src, size := by rw [blit_length, m.size] }

/-- `_cur_len += n`. -/
def advance (m : MsgNode) (n : Int) : MsgNode :=
  { m with curLen := toShort (m.curLen.toInt + n) }

/-- `Clear()`. -/
def clear (m : MsgNode) : MsgNode :=
  { m.write 0 (List.replicate m.totalLen.toInt.toNat 0) with curLen := toShort 0 }

@[simp] theorem write_totalLen (m : MsgNode) (off : Int) (src : Bytes) :
    (m.write off src).totalLen = m.totalLen := rfl
@[simp] theorem write_curLen (m : MsgNode) (off : Int) (src : Bytes) :
    (m.write off src).curLen = m.curLen := rfl
@[simp] theorem write_data (m : MsgNode) (off : Int) (src : Bytes) :
    (m.write off src).data = blit m.data off src := rfl
@[simp] theorem advance_totalLen (m : MsgNode) (n : Int) :
    (m.advance n).totalLen = m.totalLen := rfl
@[simp] theorem advance_data (m : MsgNode) (n : Int) : (m.advance n).data = m.data := rfl
@[simp] theorem clear_totalLen (m : MsgNode) : m.clear.totalLen = m.totalLen := rfl
@[simp] theorem clear_curLen (m : MsgNode) : m.clear.curLen.toInt = 0 := rfl

theorem new_of_nonneg {maxLen : Short} (h : 0 ≤ maxLen.toInt) :
    MsgNode.new maxLen = .ok (zeroed maxLen) := by
  rw [new, if_neg (by omega)]

/-- The node's fill mark and the bytes in front of it. -/
def Holds (m : MsgNode) (b : Bytes) : Prop :=
  m.curLen.toInt = b.length ∧ m.data.take b.length = b

theorem clear_holds (m : MsgNode) : m.clear.Holds [] := ⟨rfl, rfl⟩

theorem zeroed_holds (maxLen : Short) : (zeroed maxLen).Holds [] := ⟨rfl, rfl⟩

/-- A store behind the mark is not seen. -/
theorem Holds.write_behind {m : MsgNode} {b : Bytes} (h : m.Holds b) {off : Int} (src : Bytes)
    (hoff : b.length ≤ off) : (m.write off src).Holds b :=
  ⟨h.1, by rw [write_data, blit_take_of_le (by omega), h.2]⟩

/-- Copying behind the fill mark extends what stands in front of it, and `_cur_len += n` moves
the mark over the copy. -/
theorem Holds.fill {m : MsgNode} {b c : Bytes} (h : m.Holds b)
    (hfit : ((b.length + c.length : Nat) : Int) ≤ m.totalLen.toInt) :
    ((m.write m.curLen.toInt c).advance c.length).Holds (b ++ c) ∧
      (m.write m.curLen.toInt c).data.take (b.length + c.length) = b ++ c := by
  obtain ⟨hcur, hdata⟩ := h
  have hlt := short_lt m.totalLen
  have hroom : b.length + c.length ≤ m.data.length := by rw [m.size]; omega
  have htake : (m.write m.curLen.toInt c).data.take (b.length + c.length) = b ++ c := by
    rw [write_data, hcur, blit_take _ _ hroom, hdata]
  refine ⟨⟨?_, by rw [List.length_append]; exact htake⟩, htake⟩
  show (toShort (m.curLen.toInt + c.length)).toInt = _
  rw [hcur, toShort_toInt (by omega) (by omega), List.length_append]
  omega

/-- `memcpy(_data + off, src, n)` where the access is checked. -/
def memcpy (m : MsgNode) (off : Nat) (src : Bytes) (n : Nat) : Except Fault MsgNode :=
  if ((off + n : Nat) : Int) ≤ m.totalLen.toInt + 1 ∧ n ≤ src.length then
    .ok (m.write off (src.take n))
  else .error .outOfBounds

/-- `_data[_total_len] = '\0'` where the access is checked. -/
def terminate (m : MsgNode) : Except Fault MsgNode :=
  if 0 ≤ m.totalLen.toInt then .ok (m.write m.totalLen.toInt [0]) else .error .outOfBounds

theorem memcpy_ok {m : MsgNode} {off n : Nat} {src : Bytes}
    (hfit : ((off + n : Nat) : Int) ≤ m.totalLen.toInt + 1) (hsrc : n ≤ src.length) :
    m.memcpy off src n = .ok (m.write off (src.take n)) := by
  rw [memcpy, if_pos ⟨hfit, hsrc⟩]

theorem terminate_ok {m : MsgNode} (h : 0 ≤ m.totalLen.toInt) :
    m.terminate = .ok (m.write m.totalLen.toInt [0]) := by rw [terminate, if_pos h]

end MsgNode

/-! ## `SendNode` -/

structure SendNode extends MsgNode where
  msgId : Short

namespace SendNode

/-- `SendNode(const char *msg, short max_len, short msg_id)`. -/
def make (msg : Bytes) (maxLen msgId : Short) : Except Fault SendNode := do
  let node ← MsgNode.new (toShort (maxLen.toInt + headTotalLen))
  let node ← node.terminate
  let node ← node.memcpy 0 (storeShort (hostToNetworkShort msgId)) headIdLen
  let node ← node.memcpy headIdLen (storeShort (hostToNetworkShort maxLen)) headDataLen
  let node ← node.memcpy headTotalLen msg (toSizeT maxLen.toInt)
  return { node with msgId := msgId }

/-- The bytes `async_write` is given: `_data[0.._total_len)`. -/
def buffer (n : SendNode) : Bytes := n.data.take (toSizeT n.totalLen.toInt)

end SendNode

/-- `MsgNode(char *msg, short max_len)` of version 2.1: two bytes of the 32-bit network-order
length, then the payload. -/
def Server.msgNode (msg : Bytes) (maxLen : Short) : Except Fault MsgNode := do
  let node ← MsgNode.new (toShort (maxLen.toInt + headLength))
  let node ← node.memcpy 0 (storeLong (hostToNetworkLong maxLen)) headLength
  let node ← node.memcpy headLength msg (toSizeT maxLen.toInt)
  node.terminate

/-- The bytes `async_write` is given: `_data[0.._total_len)`. -/
def MsgNode.buffer (n : MsgNode) : Bytes := n.data.take (toSizeT n.totalLen.toInt)

end AsyncEchoServer
