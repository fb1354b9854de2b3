import AsyncEchoServer.Cpp.Json
import AsyncEchoServer.Logic.Dispatch
import AsyncEchoServer.Session.Send

/-!
# `Logic/HelloWorld.lean` — the callback, and what it does to the process

`HelloWorldCallBack` parses the payload, changes `root["data"]`, and sends the styled text back
under `root["id"]`. Every access on the way can throw, and so can the node that `Send` builds:
the reply's length is narrowed to a `short` first. Nothing between the callback and the thread's
entry catches, so an exception ends the process; a copy of a negative length is undefined before
that.

`Answerable` says which requests the callback comes back from, given the send queue as `Send` finds
it (`helloWorldCallBack_returned_iff`); what that is to the worker and the process, among the other
threads, is in `Logic/Process.lean`.
-/

set_option autoImplicit false

namespace AsyncEchoServer

/-! ## The callback -/

/-- What the reply's data begins with, in the two servers. -/
def replyPrefix : Variant → Bytes
  | .notifyUnderLock => asBytes "Server has received msg, msg data is "
  | .unlockFirst => asBytes "server has received msg, msg data is "

def keyId : Bytes := asBytes "id"

def keyData : Bytes := asBytes "data"

/-- The text and the id of the reply; `none` is a `Json::LogicError`. -/
def replyTo (J : JsonCpp) (v : Variant) (root : Json) : Option (Bytes × Int) := do
  -- printed
  let (root, id) ← root.index keyId
  let _ ← id.asInt
  let (root, data) ← root.index keyData
  let _ ← data.asString J
  -- `root["data"] = prefix + root["data"].asString()`
  let (root, data) ← root.index keyData
  let text ← data.asString J
  let root ← root.assign keyData (.string (replyPrefix v ++ text))
  let returnStr := J.toStyledString root
  let (_, id) ← root.index keyId
  let id ← id.asInt
  return (returnStr, id)

/-- `HelloWorldCallBack`, on the session's send queue. `none` is undefined behaviour. -/
def helloWorldCallBack (J : JsonCpp) (v : Variant) (msgData : Bytes) (q : SendQueue SendNode) :
    Option (Exit × SendQueue SendNode) :=
  match replyTo J v (J.parse msgData) with
  | none => some (.threw, q)
  | some (returnStr, id) => ServerV3.sendString returnStr (toShort id) q

/-- The members of the reply to an object with the members `ms`, whose data read `text`. -/
def replyMembers (v : Variant) (ms : List (Bytes × Json)) (text : Bytes) : List (Bytes × Json) :=
  Members.set keyData (.string (replyPrefix v ++ text))
    (Members.touch keyData (Members.touch keyId ms))

/-- The request can be answered: it is an object, or nothing at all; its id reads as an `int`, its
data as a string; and the length of the reply, as a `short`, leaves room for the header, unless
`Send` drops the reply. -/
def Answerable (J : JsonCpp) (v : Variant) (msgData : Bytes) (q : SendQueue SendNode) : Prop :=
  ∃ ms text, (J.parse msgData).members? = some ms ∧ (Members.get keyId ms).asInt ≠ none ∧
    (Members.get keyData ms).asString J = some text ∧
    (maxSendQueue < q.sendQue.length ∨
      (J.toStyledString (.object (replyMembers v ms text))).length % 65536 ≤ 32763)

theorem Members.touch_touch (key : Bytes) (ms : List (Bytes × Json)) :
    touch key (touch key ms) = touch key ms := by
  have hfind : ∃ v, find key (touch key ms) = some v := by
    cases h : find key ms with
    | some v => exact ⟨v, by rw [touch, h]; exact h⟩
    | none => exact ⟨.null, by rw [touch, h]; exact find_set key .null ms⟩
  obtain ⟨v, hv⟩ := hfind
  rw [touch, hv]

/-- The reply, member by member. -/
theorem replyTo_eq {J : JsonCpp} {v : Variant} {root : Json} {ms : List (Bytes × Json)}
    (hroot : root.members? = some ms) :
    replyTo J v root =
      match (Members.get keyId ms).asInt, (Members.get keyData ms).asString J with
      | some id, some text => some (J.toStyledString (.object (replyMembers v ms text)), id)
      | _, _ => none := by
  have hne : keyData ≠ keyId := by decide
  have hindex : ∀ key ms, (Json.object ms).index key =
      some (.object (Members.touch key ms), Members.get key ms) := fun _ _ => rfl
  have hassign : ∀ key w ms, (Json.object ms).assign key w =
      some (.object (Members.set key w ms)) := fun _ _ _ => rfl
  have hfirst : root.index keyId =
      some (.object (Members.touch keyId ms), Members.get keyId ms) := by
    rw [Json.index, hroot, Option.map_some]
  unfold replyTo
  simp only [hfirst, hindex, hassign, Members.get_touch, Members.touch_touch,
    Members.get_set_of_ne hne, Option.bind_eq_bind, Option.bind_some, Option.pure_def]
  cases hid : (Members.get keyId ms).asInt with
  | none => rfl
  | some id =>
    cases hdata : (Members.get keyData ms).asString J with
    | none => rfl
    | some text => rfl

theorem replyTo_none {J : JsonCpp} {v : Variant} {root : Json} (hroot : root.members? = none) :
    replyTo J v root = none := by
  have hindex : root.index keyId = none := by rw [Json.index, hroot, Option.map_none]
  rw [replyTo, hindex]
  rfl

/-- **When the callback comes back.** -/
theorem helloWorldCallBack_returned_iff {J : JsonCpp} {v : Variant} {msgData : Bytes}
    {q : SendQueue SendNode} :
    (∃ q', helloWorldCallBack J v msgData q = some (.returned, q')) ↔ Answerable J v msgData q := by
  unfold helloWorldCallBack Answerable
  cases hroot : (J.parse msgData).members? with
  | none =>
    rw [replyTo_none hroot]
    constructor
    · rintro ⟨q', h⟩
      cases h
    · rintro ⟨ms, text, h, _⟩
      cases h
  | some ms =>
    rw [replyTo_eq hroot]
    cases hid : (Members.get keyId ms).asInt with
    | none =>
      constructor
      · rintro ⟨q', h⟩
        cases h
      · rintro ⟨ms', text, h, hne, _⟩
        cases h
        exact absurd hid hne
    | some id =>
      cases hdata : (Members.get keyData ms).asString J with
      | none =>
        constructor
        · rintro ⟨q', h⟩
          cases h
        · rintro ⟨ms', text, h, _, htext, _⟩
          cases h
          rw [hdata] at htext
          cases htext
      | some text =>
        dsimp only
        rw [sendString_returned_iff]
        constructor
        · intro h
          exact ⟨ms, text, rfl, by rw [hid]; exact nofun, hdata, h⟩
        · rintro ⟨ms', text', h, _, htext, hlen⟩
          cases h
          rw [hdata] at htext
          cases htext
          exact hlen

end AsyncEchoServer
