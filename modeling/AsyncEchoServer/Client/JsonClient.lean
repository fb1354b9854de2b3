import AsyncEchoServer.Logic.HelloWorld

/-!
# `Client/JsonClient.lean` — the client of the version-3 servers

A thread of the client sends a request and waits for its reply, `turns` times over one connection.
It frames the request as `SendNode` does, in an array of `MAX_LENGTH` bytes, and reads a reply in
two `boost::asio::read`s: the head, and then as many bytes as the head says. So both directions have
the format of the server (`sendData_eq`, `readHead_frame`), as far as the array goes: the copy of a
request of more than 2044 bytes leaves it, and a reply of more than 2048 bytes is read in part.

What jsoncpp makes of a reply is a parameter. The members that are printed may not be there to be
looked up, and the exception is caught where the thread ends.
-/

set_option autoImplicit false

namespace AsyncEchoServer
namespace JsonClient

open ServerV3 (encoder)

/-! ## A request -/

/-- What the client writes for the text of a request. `asio::buffer` on an array never goes past the
array; the copy would. -/
def sendData (request : Bytes) : Except Fault Bytes :=
  let requestLength := request.length
  if headTotalLen + requestLength ≤ maxLength then
    let data := List.replicate maxLength 0
    let data := blit data (0 : Nat) (storeShort (hostToNetworkShort msgHelloWord))
    let data := blit data headLength (storeShort (hostToNetworkShort (toShort requestLength)))
    let data := blit data headTotalLen request
    .ok (data.take (min maxLength (requestLength + headTotalLen)))
  else .error .outOfBounds

/-- The message a request is. -/
def message (request : Bytes) : Short × Bytes := (msgHelloWord, request)

/-- **The client's framing is the server's.** -/
theorem sendData_eq {request : Bytes} (hlen : request.length ≤ 2044) :
    sendData request = .ok (encoder.encode (message request)) := by
  let d₀ : Bytes := List.replicate maxLength 0
  let d₁ := blit d₀ (0 : Nat) (storeShort (hostToNetworkShort msgHelloWord))
  let d₂ := blit d₁ (2 : Nat) (storeShort (hostToNetworkShort (toShort request.length)))
  have hsize : d₀.length = 2048 := List.length_replicate
  have hsize₁ : d₁.length = 2048 := (blit_length ..).trans hsize
  have hsize₂ : d₂.length = 2048 := (blit_length ..).trans hsize₁
  have hid : d₁.take 2 = networkBytes msgHelloWord := by
    have h := blit_take d₀ (networkBytes msgHelloWord) (k := 0)
      (by rw [hsize, networkBytes_length]; omega)
    show (blit d₀ (0 : Nat) (storeShort (hostToNetworkShort msgHelloWord))).take 2 = _
    rw [store_hostToNetwork]
    exact h
  have hhead : d₂.take 4 = networkBytes msgHelloWord ++ networkBytes (toShort request.length) := by
    have h := blit_take d₁ (networkBytes (toShort request.length)) (k := 2)
      (by rw [hsize₁, networkBytes_length]; omega)
    rw [networkBytes_length, hid] at h
    show (blit d₁ (2 : Nat) (storeShort (hostToNetworkShort (toShort request.length)))).take 4 = _
    rw [store_hostToNetwork]
    exact h
  have hbody := blit_take d₂ request (k := 4) (by rw [hsize₂]; omega)
  have hroom : headTotalLen + request.length ≤ maxLength := by
    simp only [headTotalLen, maxLength]
    omega
  rw [hhead, ← Nat.add_comm request.length] at hbody
  unfold sendData
  dsimp only
  rw [if_pos hroom, Nat.min_eq_right (by omega)]
  exact congrArg Except.ok hbody

/-! ## A reply -/

/-- The frame of a reply: its id, its length, its text. -/
def replyFrame (r : Bytes × Short) : Bytes :=
  networkBytes r.2 ++ networkBytes (toShort r.1.length) ++ r.1

/-- What the client makes of a head. The id is an `int` two bytes of which are copied, and the
conversion is unsigned. -/
def readHead (head : Bytes) : Nat × Short :=
  (bits (networkToHostShort (loadShort (slice head 0 headLength))),
    networkToHostShort (loadShort (slice head headLength headLength)))

/-- `asio::buffer(msg, msglen)`: a negative length is a large size, and the array the limit. -/
def bodySize (msglen : Short) : Nat := min maxLength (toSizeT msglen.toInt)

theorem replyFrame_length (r : Bytes × Short) :
    (replyFrame r).length = headTotalLen + r.1.length := by
  unfold replyFrame
  rw [List.length_append, List.length_append, networkBytes_length, networkBytes_length]
  rfl

/-- The client reads the id and the length that `SendNode` wrote. -/
theorem readHead_frame (r : Bytes × Short) :
    readHead ((replyFrame r).take headTotalLen) = (bits r.2, toShort r.1.length) := by
  have hid := bigEndianShort_networkBytes r.2 []
  have hlen := bigEndianShort_networkBytes (toShort r.1.length) []
  rw [List.append_nil] at hid hlen
  have hhead : (replyFrame r).take headTotalLen =
      networkBytes r.2 ++ networkBytes (toShort r.1.length) := List.take_left' rfl
  have hfirst : slice (networkBytes r.2 ++ networkBytes (toShort r.1.length)) 0 headLength =
      networkBytes r.2 := rfl
  have hsecond : slice (networkBytes r.2 ++ networkBytes (toShort r.1.length)) headLength
      headLength = networkBytes (toShort r.1.length) := rfl
  unfold readHead
  rw [hhead, hfirst, hsecond, networkToHost_load, networkToHost_load, hid, hlen]

theorem bodySize_length {text : Bytes} (h : text.length ≤ 2048) :
    bodySize (toShort text.length) = text.length := by
  have hn : (toShort (text.length : Int)).toInt = text.length :=
    toShort_toInt (by omega) (by omega)
  rw [bodySize, hn, toSizeT_natCast (by omega)]
  exact Nat.min_eq_right h

/-- What is printed of a reply, `root["id"]` and `root["data"]`; `none` is a `Json::LogicError`. -/
def shown (parse : Bytes → Json) (msg : Bytes) : Option (Json × Json) := do
  let (root, id) ← (parse msg).index keyId
  let (_, data) ← root.index keyData
  return (id, data)

/-! ## A thread of the client -/

inductive ClientPos where
  /-- at the test of the loop -/
  | top
  /-- in the `read` of a head -/
  | head
  /-- in the `read` of a body -/
  | body (msgid : Nat) (msglen : Short)
  /-- the lambda has returned, and its socket is closed -/
  | returned
  deriving Repr, DecidableEq

structure Client where
  pos : ClientPos
  i : Nat
  /-- what has arrived and is not read -/
  stream : Bytes
  /-- the replies that were read, each with the id in its head -/
  replies : List (Nat × Bytes)

namespace Client

def init : Client where
  pos := .top
  i := 0
  stream := []
  replies := []

/-- The next step of the thread, and what it writes to its socket. `none` is a `read` that waits, or
undefined behaviour. The lambda returns an `int`, by its `return 0` behind a failed `connect`, and
flows off its end otherwise. The language leaves that undefined; here it is a return, as the
unoptimised build makes it, whose value nobody reads. -/
def step (turns : Nat) (request : Nat → Bytes) (parse : Bytes → Json) (c : Client) :
    Option (Bytes × Client) :=
  match c.pos with
  | .top =>
    if c.i < turns then
      match sendData (request c.i) with
      | .ok data => some (data, { c with pos := .head })
      | .error _ => none
    else some ([], { c with pos := .returned })
  | .head =>
    if headTotalLen ≤ c.stream.length then
      let head := readHead (c.stream.take headTotalLen)
      some ([], { c with
        pos := .body head.1 head.2
        stream := c.stream.drop headTotalLen })
    else none
  | .body msgid msglen =>
    let n := bodySize msglen
    if n ≤ c.stream.length then
      let msg := c.stream.take n
      let c := { c with
        stream := c.stream.drop n
        replies := c.replies ++ [(msgid, msg)] }
      match shown parse msg with
      | some _ => some ([], { c with pos := .top, i := c.i + 1 })
      -- caught behind the loop
      | none => some ([], { c with pos := .returned })
    else none
  | .returned => none

/-- The ways of a step. -/
inductive StepSpec (turns : Nat) (request : Nat → Bytes) (parse : Bytes → Json) (c : Client) :
    Bytes → Client → Prop where
  | send {data : Bytes} (pos : c.pos = .top) (more : c.i < turns)
      (sent : sendData (request c.i) = .ok data) :
      StepSpec turns request parse c data { c with pos := .head }
  | leave (pos : c.pos = .top) (done : turns ≤ c.i) :
      StepSpec turns request parse c [] { c with pos := .returned }
  | head (pos : c.pos = .head) (enough : headTotalLen ≤ c.stream.length) :
      StepSpec turns request parse c []
        { c with
          pos := .body (readHead (c.stream.take headTotalLen)).1
            (readHead (c.stream.take headTotalLen)).2
          stream := c.stream.drop headTotalLen }
  | body {msgid : Nat} {msglen : Short} {p : Json × Json} (pos : c.pos = .body msgid msglen)
      (enough : bodySize msglen ≤ c.stream.length)
      (prints : shown parse (c.stream.take (bodySize msglen)) = some p) :
      StepSpec turns request parse c []
        { c with
          pos := .top
          i := c.i + 1
          stream := c.stream.drop (bodySize msglen)
          replies := c.replies ++ [(msgid, c.stream.take (bodySize msglen))] }
  | caught {msgid : Nat} {msglen : Short} (pos : c.pos = .body msgid msglen)
      (enough : bodySize msglen ≤ c.stream.length)
      (throws : shown parse (c.stream.take (bodySize msglen)) = none) :
      StepSpec turns request parse c []
        { c with
          pos := .returned
          stream := c.stream.drop (bodySize msglen)
          replies := c.replies ++ [(msgid, c.stream.take (bodySize msglen))] }

theorem step_cases {turns : Nat} {request : Nat → Bytes} {parse : Bytes → Json} {c c' : Client}
    {data : Bytes} (h : c.step turns request parse = some (data, c')) :
    StepSpec turns request parse c data c' := by
  unfold step at h
  cases hpos : c.pos with
  | top =>
    simp only [hpos] at h
    split at h
    · rename_i hmore
      split at h
      · rename_i bytes hsent
        cases h
        exact .send hpos hmore hsent
      · cases h
    · rename_i hdone
      cases h
      exact .leave hpos (Nat.not_lt.mp hdone)
  | head =>
    simp only [hpos, Option.ite_none_right_eq_some] at h
    obtain ⟨henough, heq⟩ := h
    cases heq
    exact .head hpos henough
  | body msgid msglen =>
    simp only [hpos, Option.ite_none_right_eq_some] at h
    obtain ⟨henough, heq⟩ := h
    split at heq
    · rename_i p hprints
      cases heq
      exact .body hpos henough hprints
    · rename_i hthrows
      cases heq
      exact .caught hpos henough hthrows
  | returned =>
    rw [hpos] at h
    cases h

/-! ## A conversation -/

/-- How many requests the thread has written. -/
def asked (c : Client) : Nat :=
  match c.pos with
  | .top | .returned => c.i
  | .head | .body _ _ => c.i + 1

end Client

/-- The first `k` requests. -/
def messages (request : Nat → Bytes) (k : Nat) : List (Short × Bytes) :=
  (List.range k).map fun j => message (request j)

theorem messages_succ (request : Nat → Bytes) (k : Nat) :
    messages request (k + 1) = messages request k ++ [message (request k)] := by
  rw [messages, List.range_succ, List.map_append]
  rfl

/-- What they are on the wire. -/
def requestStream (request : Nat → Bytes) (k : Nat) : Bytes :=
  (messages request k).flatMap encoder.encode

theorem requestStream_succ (request : Nat → Bytes) (k : Nat) :
    requestStream request (k + 1) =
      requestStream request k ++ encoder.encode (message (request k)) := by
  rw [requestStream, messages_succ, List.flatMap_append, List.flatMap_singleton]
  rfl

/-- The replies to them. -/
def answers (f : Short × Bytes → Bytes × Short) (request : Nat → Bytes) (k : Nat) :
    List (Bytes × Short) := (messages request k).map f

theorem answers_succ (f : Short × Bytes → Bytes × Short) (request : Nat → Bytes) (k : Nat) :
    answers f request (k + 1) = answers f request k ++ [f (message (request k))] := by
  rw [answers, messages_succ, List.map_append]
  rfl

theorem answers_length (f : Short × Bytes → Bytes × Short) (request : Nat → Bytes) (k : Nat) :
    (answers f request k).length = k := by
  rw [answers, messages, List.length_map, List.length_map, List.length_range]

/-- What those are on the wire. -/
def replyStream (rs : List (Bytes × Short)) : Bytes := rs.flatMap replyFrame

theorem replyStream_append (rs rs' : List (Bytes × Short)) :
    replyStream (rs ++ rs') = replyStream rs ++ replyStream rs' := List.flatMap_append ..

/-- What the client keeps of a reply. -/
def kept (r : Bytes × Short) : Nat × Bytes := (bits r.2, r.1)

namespace Client

/-- What the thread has read of the reply it is reading. -/
def taken (f : Short × Bytes → Bytes × Short) (request : Nat → Bytes) (c : Client) : Bytes :=
  match c.pos with
  | .body _ _ => (replyFrame (f (message (request c.i)))).take headTotalLen
  | .top | .head | .returned => []

/-- The position of a thread in its conversation. -/
def Placed (turns : Nat) (f : Short × Bytes → Bytes × Short) (request : Nat → Bytes) (i : Nat) :
    ClientPos → Prop
  | .top => i ≤ turns
  | .head => i < turns
  | .body msgid msglen => i < turns ∧ msgid = bits (f (message (request i))).2 ∧
      msglen = toShort (f (message (request i))).1.length
  | .returned => i = turns

/-- **The thread follows its conversation**: of the bytes that have arrived it has read the replies
to its first `i` requests. -/
structure Follows (turns : Nat) (f : Short × Bytes → Bytes × Short) (request : Nat → Bytes)
    (c : Client) (arrived : Bytes) : Prop where
  bytes : arrived = replyStream (answers f request c.i) ++ c.taken f request ++ c.stream
  replies : c.replies = (answers f request c.i).map kept
  placed : Placed turns f request c.i c.pos

variable {turns : Nat} {request : Nat → Bytes} {parse : Bytes → Json} {c c' : Client}
  {f : Short × Bytes → Bytes × Short} {data arrived : Bytes}

theorem init_follows : Follows turns f request init [] := ⟨rfl, rfl, Nat.zero_le _⟩

theorem Follows.asked_le (h : Follows turns f request c arrived) : c.asked ≤ turns := by
  have hplaced := h.placed
  unfold asked
  cases hpos : c.pos with
  | top | head =>
    rw [hpos] at hplaced
    exact hplaced
  | body msgid msglen =>
    rw [hpos] at hplaced
    exact hplaced.1
  | returned =>
    rw [hpos] at hplaced
    exact Nat.le_of_eq hplaced

/-- More arrives. -/
theorem Follows.arrive (h : Follows turns f request c arrived) (more : Bytes) :
    Follows turns f request { c with stream := c.stream ++ more } (arrived ++ more) where
  bytes := by
    rw [h.bytes, List.append_assoc]
    rfl
  replies := h.replies
  placed := h.placed

/-- What is still to be read of the reply that is on its way. -/
theorem Follows.expects (h : Follows turns f request c arrived)
    (harrived : arrived <+: replyStream (answers f request (c.i + 1))) :
    c.taken f request ++ c.stream <+: replyFrame (f (message (request c.i))) := by
  rw [h.bytes, answers_succ, replyStream_append, List.append_assoc] at harrived
  have hpre := (List.prefix_append_right_inj _).mp harrived
  rwa [replyStream, List.flatMap_singleton] at hpre

/-- **A step of the thread** keeps to the conversation: what it writes is the next request. -/
theorem Follows.step (hrequest : ∀ j, (request j).length ≤ 2044)
    (hreply : ∀ j, (f (message (request j))).1.length ≤ 2048)
    (hprints : ∀ j, shown parse (f (message (request j))).1 ≠ none)
    (h : Follows turns f request c arrived)
    (harrived : arrived <+: replyStream (answers f request c.asked))
    (hstep : c.step turns request parse = some (data, c')) :
    Follows turns f request c' arrived ∧
      requestStream request c'.asked = requestStream request c.asked ++ data := by
  obtain ⟨pos, i, stream, replies⟩ := c
  have hbytes := h.bytes
  have hplaced := h.placed
  have hexpects := h.expects
  dsimp only at hplaced hexpects
  -- what a body read has taken is the text of the reply
  have hbody : ∀ {msgid : Nat} {msglen : Short}, pos = .body msgid msglen →
      bodySize msglen ≤ stream.length → i < turns ∧ stream = (f (message (request i))).1 ∧
        msgid = bits (f (message (request i))).2 ∧ bodySize msglen = stream.length := by
    rintro msgid msglen rfl henough
    obtain ⟨hlt, hid, rfl⟩ := hplaced
    have hpre : stream <+: (f (message (request i))).1 := by
      have hpre := hexpects harrived
      rw [← List.take_append_drop headTotalLen (replyFrame _)] at hpre
      exact (List.prefix_append_right_inj _).mp hpre
    rw [bodySize_length (hreply i)] at henough ⊢
    have hall := hpre.eq_of_length_le henough
    exact ⟨hlt, hall, hid, by rw [hall]⟩
  cases step_cases hstep with
  | send hpos hmore hsent =>
    cases hpos
    rw [sendData_eq (hrequest i)] at hsent
    cases hsent
    exact ⟨⟨hbytes, h.replies, hmore⟩, requestStream_succ request i⟩
  | leave hpos hdone =>
    cases hpos
    exact ⟨⟨hbytes, h.replies, Nat.le_antisymm hplaced hdone⟩, (List.append_nil _).symm⟩
  | head hpos henough =>
    cases hpos
    obtain ⟨more, hmore⟩ := hexpects harrived
    have htake : stream.take headTotalLen =
        (replyFrame (f (message (request i)))).take headTotalLen := by
      rw [← hmore]
      exact (List.take_append_of_le_length henough).symm
    refine ⟨⟨?_, h.replies, ?_⟩, (List.append_nil _).symm⟩
    · rw [hbytes]
      show _ ++ [] ++ stream = _ ++ (replyFrame _).take headTotalLen ++ stream.drop headTotalLen
      rw [← htake, List.append_nil, List.append_assoc, List.take_append_drop]
    · show Placed turns f request i (.body _ _)
      rw [htake, readHead_frame]
      exact ⟨hplaced, rfl, rfl⟩
  | body hpos henough hprinted =>
    cases hpos
    obtain ⟨hlt, hstream, rfl, hsize⟩ := hbody rfl henough
    refine ⟨⟨?_, ?_, hlt⟩, (List.append_nil _).symm⟩
    · rw [hbytes]
      show _ ++ (replyFrame _).take headTotalLen ++ stream =
        replyStream (answers f request (i + 1)) ++ [] ++ stream.drop (bodySize _)
      rw [hsize, List.drop_length, List.append_nil, List.append_nil, answers_succ,
        replyStream_append, List.append_assoc, hstream]
      exact congrArg (_ ++ ·) ((List.take_append_drop headTotalLen _).trans
        (List.flatMap_singleton ..).symm)
    · show replies ++ [(_, stream.take (bodySize _))] = _
      rw [hsize, List.take_length, hstream, answers_succ, List.map_append, ← h.replies]
      rfl
  | caught hpos henough hthrows =>
    cases hpos
    obtain ⟨_, hstream, _, hsize⟩ := hbody rfl henough
    dsimp only at hthrows
    rw [hsize, List.take_length, hstream] at hthrows
    exact absurd hthrows (hprints i)

/-- A thread that has everything it is owed does not wait. -/
theorem Follows.step_isSome (hrequest : ∀ j, (request j).length ≤ 2044)
    (hreply : ∀ j, (f (message (request j))).1.length ≤ 2048)
    (h : Follows turns f request c arrived)
    (harrived : arrived = replyStream (answers f request c.asked)) (hout : c.pos ≠ .returned) :
    (c.step turns request parse).isSome = true := by
  obtain ⟨pos, i, stream, replies⟩ := c
  have hplaced := h.placed
  have hbytes := h.bytes
  dsimp only at hplaced hbytes
  -- in a `read`, what is left to take of the reply is there
  have hwhole : arrived = replyStream (answers f request (i + 1)) →
      taken f request ⟨pos, i, stream, replies⟩ ++ stream =
        replyFrame (f (message (request i))) := by
    intro hall
    rw [hbytes, answers_succ, replyStream_append, List.append_assoc] at hall
    exact (List.append_cancel_left hall).trans (List.flatMap_singleton ..)
  unfold Client.step
  cases pos with
  | top =>
    dsimp only
    rw [sendData_eq (hrequest i)]
    split <;> rfl
  | head =>
    have hlen := congrArg List.length (hwhole harrived)
    rw [List.length_append, replyFrame_length] at hlen
    dsimp only [taken, List.length_nil] at hlen ⊢
    rw [if_pos (by omega)]
    rfl
  | body msgid msglen =>
    obtain ⟨_, _, rfl⟩ := hplaced
    have hall := hwhole harrived
    rw [← List.take_append_drop headTotalLen (replyFrame _)] at hall
    have hstream : stream = (f (message (request i))).1 := List.append_cancel_left hall
    dsimp only
    rw [bodySize_length (hreply i), if_pos (by rw [hstream])]
    split <;> rfl
  | returned => exact absurd rfl hout

/-! ## How long it takes -/

/-- The steps a thread has before it, three for every turn. -/
def work (turns : Nat) (c : Client) : Nat :=
  match c.pos with
  | .top => 3 * (turns - c.i) + 1
  | .head => 3 * (turns - (c.i + 1)) + 3
  | .body _ _ => 3 * (turns - (c.i + 1)) + 2
  | .returned => 0

theorem step_work (h : c.step turns request parse = some (data, c')) :
    c'.work turns + 1 ≤ c.work turns := by
  obtain ⟨pos, i, stream, replies⟩ := c
  cases step_cases h with
  | send hpos hmore | leave hpos hdone | head hpos | body hpos | caught hpos =>
    cases hpos
    dsimp only [work] at *
    omega

end Client
end JsonClient
end AsyncEchoServer
