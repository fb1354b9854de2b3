import AsyncEchoServer.Logic.HelloWorld

/-!
# `Logic/Reply.lean` — what a reply looks like to a reader

The request comes in under two limits, id and length at most `MAX_LENGTH`. The reply goes out
under none: its text is the request's with a prefix in it, written out again, and its id is
whatever the body says, narrowed from `int` to `short`. `reply_legal_iff` says which requests
get a reply that the server itself would take from a client.
-/

set_option autoImplicit false

namespace AsyncEchoServer

/-- The id of a frame, as `HandleRead` reads it. -/
def SendNode.frameId (n : SendNode) : Short :=
  networkToHostShort (loadShort (slice n.buffer 0 headIdLen))

/-- The length a frame declares, as `HandleRead` reads it. -/
def SendNode.frameLength (n : SendNode) : Short :=
  networkToHostShort (loadShort (slice n.buffer headIdLen headDataLen))

/-- A frame of `text` under `id` that says so, within the limits of a reader. -/
structure LegalReply (n : SendNode) (text : Bytes) (id : Int) : Prop where
  length : n.frameLength.toInt = text.length
  length_le : n.frameLength.toInt ≤ maxLength
  id : n.frameId.toInt = id
  id_le : n.frameId.toInt ≤ maxLength

/-- It passes the checks of `HandleRead`. -/
theorem LegalReply.accepted {n : SendNode} {text : Bytes} {id : Int} (h : LegalReply n text id) :
    ServerV3.decodeHead n.buffer = some (n.frameId, n.frameLength) := by
  have hid : ¬ (maxLength : Int) < n.frameId.toInt := Int.not_lt.mpr h.id_le
  have hlen : ¬ (maxLength : Int) < n.frameLength.toInt := Int.not_lt.mpr h.length_le
  unfold ServerV3.decodeHead
  exact (if_neg hid).trans (if_neg hlen)

theorem SendNode.Frames.frameId {n : SendNode} {msg : Bytes} {msgId : Short}
    (h : n.Frames msg msgId) : n.frameId = msgId := by
  have hslice : slice n.buffer 0 headIdLen = networkBytes msgId := h.id
  have hback := bigEndianShort_networkBytes msgId []
  rw [List.append_nil] at hback
  rw [SendNode.frameId, hslice, networkToHost_load, hback]

/-- A frame of a text is legal when the text is short enough and the id is a `short` within the
limit. -/
theorem SendNode.Frames.legal_iff {n : SendNode} {text : Bytes} {id : Int}
    (h : n.Frames text (toShort id)) :
    LegalReply n text id ↔ text.length ≤ maxLength ∧ -32768 ≤ id ∧ id ≤ maxLength := by
  have hlen : n.frameLength.toInt = text.length := h.length
  have hid := h.frameId
  constructor
  · intro hlegal
    have hle := hlegal.length_le
    have hsame := hlegal.id
    have hid_le := hlegal.id_le
    have hge := le_short n.frameId
    omega
  · rintro ⟨hle, hge, hid_le⟩
    have hback : (toShort id).toInt = id := by
      unfold maxLength at hid_le
      exact toShort_toInt hge (by omega)
    refine ⟨hlen, by omega, by rw [hid, hback], by rw [hid, hback]; exact hid_le⟩

/-- The callback answers with one frame, and it is legal. -/
def RepliesLegally (J : JsonCpp) (v : Variant) (msgData : Bytes) (q : SendQueue SendNode) : Prop :=
  ∃ text id n q', replyTo J v (J.parse msgData) = some (text, id) ∧
    helloWorldCallBack J v msgData q = some (.returned, q') ∧
    q'.sendQue = q.sendQue ++ [⟨q.nextAddr, n⟩] ∧ LegalReply n text id

/-- **Which requests get a legal reply**: those whose reply, styled, has at most `MAX_LENGTH`
bytes, and whose id lies between the least `short` and `MAX_LENGTH`. -/
theorem reply_legal_iff {J : JsonCpp} {v : Variant} {msgData data : Bytes}
    {ms : List (Bytes × Json)} {id : Int} {q : SendQueue SendNode}
    (hroot : J.parse msgData = .object ms) (hid : (Members.get keyId ms).asInt = some id)
    (hdata : Members.get keyData ms = .string data) (hroom : q.sendQue.length ≤ maxSendQueue) :
    RepliesLegally J v msgData q ↔
      (J.toStyledString (.object (replyMembers v ms data))).length ≤ maxLength ∧
        -32768 ≤ id ∧ id ≤ maxLength := by
  have hreply : replyTo J v (J.parse msgData) =
      some (J.toStyledString (.object (replyMembers v ms data)), id) := by
    have hmembers : (J.parse msgData).members? = some ms := by rw [hroot]; rfl
    rw [replyTo_eq hmembers, hid, hdata]
    rfl
  unfold RepliesLegally helloWorldCallBack
  rw [hreply]
  generalize J.toStyledString (.object (replyMembers v ms data)) = text
  constructor
  · rintro ⟨text', id', n, q', hsame, hsend, hque, hlegal⟩
    cases hsame
    have hshort : text.length ≤ 32763 := by
      have hle := hlegal.length_le
      rw [hlegal.length] at hle
      unfold maxLength at hle
      omega
    obtain ⟨q'', n', hsend', hque', hframes⟩ := sendString_frames (toShort id) hshort hroom
    dsimp only at hsend
    rw [hsend'] at hsend
    cases hsend
    rw [hque'] at hque
    cases List.append_cancel_left hque
    exact hframes.legal_iff.mp hlegal
  · rintro ⟨hle, hge, hid_le⟩
    have hshort : text.length ≤ 32763 := by
      unfold maxLength at hle
      omega
    obtain ⟨q', n, hsend, hque, hframes⟩ := sendString_frames (toShort id) hshort hroom
    exact ⟨text, id, n, q', rfl, hsend, hque, hframes.legal_iff.mpr ⟨hle, hge, hid_le⟩⟩

/-- An object with a data and an id, as the styled writer lays it out. -/
def styledReply (data : Bytes) (id : Int) : Bytes :=
  asBytes "\x7b\n\t\"data\" : \"" ++ data ++ asBytes "\",\n\t\"id\" : " ++
    asBytes (toString id) ++ asBytes "\n\x7d\n"

def styledMembers : Json → Json → Bytes
  | .string data, .int id => styledReply data id
  | .string data, _ => data
  | _, _ => []

/-- jsoncpp on the two requests below, which have the data `hi` and differ in their id. -/
def replyJsonCpp : JsonCpp where
  parse b :=
    if b = asBytes "\x7b\"id\":1001,\"data\":\"hi\"\x7d" then
      .object [(keyData, .string (asBytes "hi")), (keyId, .int 1001)]
    else if b = asBytes "\x7b\"id\":70000,\"data\":\"hi\"\x7d" then
      .object [(keyData, .string (asBytes "hi")), (keyId, .int 70000)]
    else .null
  toStyledString := fun
    | .object ms => styledMembers (Members.get keyData ms) (Members.get keyId ms)
    | _ => []
  doubleToString _ := []

theorem reply_legal_iff_hi : RepliesLegally replyJsonCpp .notifyUnderLock
    (asBytes "\x7b\"id\":1001,\"data\":\"hi\"\x7d") .fresh := by
  have hid : (Members.get keyId [(keyData, .string (asBytes "hi")), (keyId, .int 1001)]).asInt =
      some 1001 := rfl
  exact (reply_legal_iff rfl hid rfl (Nat.zero_le _)).mpr (by decide)

/-- An id of 70000 goes out as 4464, which is over the limit as well; the writer keeps the data,
as the real one does. -/
theorem reply_wide_id :
    ¬ ∀ J : JsonCpp, (∀ ms data, Members.get keyData ms = .string data →
        data.length ≤ (J.toStyledString (.object ms)).length) →
      ∀ v msgData ms id data, msgData.length ≤ maxLength → J.parse msgData = .object ms →
        (Members.get keyId ms).asInt = some id → Members.get keyData ms = .string data →
        RepliesLegally J v msgData .fresh := by
  intro h
  have hkeeps : ∀ ms data, Members.get keyData ms = .string data →
      data.length ≤ (replyJsonCpp.toStyledString (.object ms)).length := by
    intro ms data hdata
    show data.length ≤ (styledMembers (Members.get keyData ms) (Members.get keyId ms)).length
    rw [hdata]
    cases Members.get keyId ms with
    | int id =>
      simp only [styledMembers, styledReply, List.length_append]
      omega
    | null | uint | real | string | bool | array | object => exact Nat.le_refl _
  have hroot : replyJsonCpp.parse (asBytes "\x7b\"id\":70000,\"data\":\"hi\"\x7d") =
      .object [(keyData, .string (asBytes "hi")), (keyId, .int 70000)] := rfl
  obtain ⟨text, id, n, q', hreply, _, _, hlegal⟩ := h replyJsonCpp hkeeps .notifyUnderLock _ _ 70000
    (asBytes "hi") (by decide) hroot rfl rfl
  have hid : id = 70000 := by
    rw [hroot, replyTo_eq rfl] at hreply
    injection hreply with hreply
    exact (Prod.mk.inj hreply).2.symm
  have hle := hlegal.id_le
  rw [hlegal.id, hid] at hle
  exact absurd hle (by decide)

end AsyncEchoServer
