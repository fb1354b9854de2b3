import AsyncEchoServer.Lib.Framing
import AsyncEchoServer.Session.HandleRead

/-!
# `Session/Reference.lean` — the reference parsers

What the wire format says, independently of the code: a header is a big-endian signed 16-bit id
(version 3 only) and a big-endian signed 16-bit length, a field over 2048 is rejected, and a
negative length is **broken** — the format gives it no meaning. The parsers themselves are
`Lib.Format.parse` at these two formats.

`Receiver.Reads` is the agreement a server's own `decodeHead` has to have with its format. The
code checks the length only from above, so a `decodeHead` that accepts says nothing about the
sign, and the agreement says so: a negative length goes through the code's checks exactly where
the format is broken.
-/

set_option autoImplicit false

namespace AsyncEchoServer

/-- The version-3 format: a 4-byte header, id then length. -/
def ServerV3.ref : Lib.Format UInt8 Short where
  headLen := 4
  headLen_pos := by decide
  decode h :=
    let id := bigEndianShort (h.getD 0 0) (h.getD 1 0)
    let len := bigEndianShort (h.getD 2 0) (h.getD 3 0)
    if 2048 < id.toInt ∨ 2048 < len.toInt then .reject
    else if len.toInt < 0 then .broken
    else .accept id len.toInt.toNat

/-- The version-2.1 format: a 2-byte header, the length alone. -/
def Server.ref : Lib.Format UInt8 Unit where
  headLen := 2
  headLen_pos := by decide
  decode h :=
    let len := bigEndianShort (h.getD 0 0) (h.getD 1 0)
    if 2048 < len.toInt then .reject
    else if len.toInt < 0 then .broken
    else .accept () len.toInt.toNat

variable {ι : Type}

/-- What a server's header check amounts to in the format's terms. -/
def headVerdict : Option (ι × Short) → Lib.Verdict ι
  | none => .reject
  | some (tag, len) => if len.toInt < 0 then .broken else .accept tag len.toInt.toNat

/-- A receiver reads headers the way a format does. The header node has one byte more than the
header. -/
structure Receiver.Reads (R : Receiver ι) (F : Lib.Format UInt8 ι) : Prop where
  headLen : F.headLen = R.headLen
  headLen_le : R.headLen ≤ 4
  decode : ∀ {head : Bytes}, R.headLen < head.length →
    F.decode (head.take R.headLen) = headVerdict (R.decodeHead head)
  limit : ∀ {head : Bytes} {tag : ι} {len : Short}, R.decodeHead head = some (tag, len) →
    len.toInt ≤ 2048

/-! ## The version-3 header -/

namespace ServerV3

theorem decodeHead_cons (a b c d : UInt8) (t : Bytes) :
    decodeHead (a :: b :: c :: d :: t) =
      if 2048 < (bigEndianShort a b).toInt then none
      else if 2048 < (bigEndianShort c d).toInt then none
      else some (bigEndianShort a b, bigEndianShort c d) := by
  unfold decodeHead
  rw [networkToHost_load, networkToHost_load]
  rfl

theorem receiver_reads : receiver.Reads ref where
  headLen := rfl
  headLen_le := by decide
  decode := by
    intro head hlen
    match head, hlen with
    | a :: b :: c :: d :: t, _ =>
      show ref.decode [a, b, c, d] = headVerdict (decodeHead (a :: b :: c :: d :: t))
      rw [decodeHead_cons]
      show (if 2048 < (bigEndianShort a b).toInt ∨ 2048 < (bigEndianShort c d).toInt then _
        else _) = _
      by_cases hid : 2048 < (bigEndianShort a b).toInt
      · rw [if_pos (Or.inl hid), if_pos hid]
        rfl
      · by_cases hlen : 2048 < (bigEndianShort c d).toInt
        · rw [if_pos (Or.inr hlen), if_neg hid, if_pos hlen]
          rfl
        · rw [if_neg (not_or.mpr ⟨hid, hlen⟩), if_neg hid, if_neg hlen]
          rfl
  limit := by
    intro head id len h
    have h' : decodeHead head = some (id, len) := h
    unfold decodeHead at h'
    dsimp only at h'
    split at h'
    · cases h'
    · split at h'
      · cases h'
      · rename_i hle
        cases h'
        exact Int.not_lt.mp hle

end ServerV3

theorem ServerV3Mt.receiver_reads : ServerV3Mt.receiver.Reads ServerV3.ref :=
  ServerV3.receiver_reads

/-! ## The version-2.1 header -/

namespace Server

theorem decodeHead_cons (a b : UInt8) (t : Bytes) :
    decodeHead (a :: b :: t) =
      if 2048 < (bigEndianShort a b).toInt then none else some ((), bigEndianShort a b) := by
  unfold decodeHead
  rw [networkToHost_load]
  rfl

theorem receiver_reads : receiver.Reads ref where
  headLen := rfl
  headLen_le := by decide
  decode := by
    intro head hlen
    match head, hlen with
    | a :: b :: t, _ =>
      show ref.decode [a, b] = headVerdict (decodeHead (a :: b :: t))
      rw [decodeHead_cons]
      show (if 2048 < (bigEndianShort a b).toInt then _ else _) = _
      by_cases hlen : 2048 < (bigEndianShort a b).toInt
      · rw [if_pos hlen, if_pos hlen]
        rfl
      · rw [if_neg hlen, if_neg hlen]
        rfl
  limit := by
    intro head tag len h
    have h' : decodeHead head = some (tag, len) := h
    unfold decodeHead at h'
    dsimp only at h'
    split at h'
    · cases h'
    · rename_i hle
      cases h'
      exact Int.not_lt.mp hle

end Server
end AsyncEchoServer
