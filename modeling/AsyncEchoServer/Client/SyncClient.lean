import AsyncEchoServer.Server.Echo
import AsyncEchoServer.Session.HostileRuns

/-!
# `Client/SyncClient.lean` — the synchronous client against version 2.1

The client frames a request with the first two bytes of its `size_t` length, as they lie in the
memory of a little-endian host, and reads a reply's length into a `short` the same way. The server
reads the length in network order. Its own frames begin with two bytes of a 32-bit number in network
order, which are zero (`msgNode_buffer`). So neither direction works: a request gets through when
the two bytes of its length are equal, and a reply when it is empty.

`boost::asio::read` returns when its buffer is full, so on the client's side only the bytes of the
stream matter, and a client that waits for more has read all it can.
-/

set_option autoImplicit false

namespace AsyncEchoServer
namespace Client

/-! ## The sending thread -/

/-- The lowest `w` bytes of an integer, as a little-endian host stores them. -/
def storeBytes : Nat → Nat → Bytes
  | 0, _ => []
  | w + 1, n => UInt8.ofNat (n % 256) :: storeBytes w (n / 256)

/-- The memory of a `size_t`. -/
def storeSizeT (n : Nat) : Bytes := storeBytes 8 n

/-- What the send thread writes for the characters of a request. `asio::buffer` on an array never
goes past the array; the copies would. -/
def sendData (requestMessage : Bytes) : Except Fault Bytes :=
  let requestLength := requestMessage.length
  if headLength + requestLength ≤ maxLength then
    let data := List.replicate maxLength 0
    let data := blit data 0 ((storeSizeT requestLength).take headLength)
    let data := blit data headLength requestMessage
    .ok (data.take (min maxLength (headLength + requestLength)))
  else .error .outOfBounds

/-- The header the client writes: the length, low byte first. -/
def lengthBytes (n : Nat) : Bytes := [UInt8.ofNat (n % 256), UInt8.ofNat (n / 256 % 256)]

theorem sendData_eq {msg : Bytes} (hlen : msg.length ≤ 2046) :
    sendData msg = .ok (lengthBytes msg.length ++ msg) := by
  have hhead := blit_take (List.replicate maxLength (0 : UInt8)) (lengthBytes msg.length) (k := 0)
    (by rw [List.length_replicate]; show 2 ≤ 2048; omega)
  have hbody := blit_take
    (blit (List.replicate maxLength (0 : UInt8)) (0 : Nat) (lengthBytes msg.length)) msg (k := 2)
    (by rw [blit_length, List.length_replicate]; show 2 + msg.length ≤ 2048; omega)
  have htwo : (blit (List.replicate maxLength (0 : UInt8)) (0 : Nat)
      (lengthBytes msg.length)).take 2 = lengthBytes msg.length := hhead
  rw [htwo] at hbody
  have hroom : headLength + msg.length ≤ maxLength := by
    simp only [headLength, maxLength]
    omega
  unfold sendData
  dsimp only
  rw [if_pos hroom, Nat.min_eq_right hroom]
  exact congrArg Except.ok hbody

/-! ## The receiving thread -/

/-- One turn of the receive thread: the length it takes from the header, the bytes it reads for it,
and what is left of the stream. `none` while the stream is too short for a read. -/
def recvReply (stream : Bytes) : Option ((Short × Bytes) × Bytes) :=
  if stream.length < headLength then none
  else
    let msgLength := loadShort (stream.take headLength)
    -- `asio::buffer(msg, msg_length)`: a negative length is a large size
    let n := min maxLength (toSizeT msgLength.toInt)
    let rest := stream.drop headLength
    if rest.length < n then none else some ((msgLength, rest.take n), rest.drop n)

/-- The replies the thread has read of a stream, with a bound on their number. -/
def recvLoop : Nat → Bytes → List (Short × Bytes)
  | 0, _ => []
  | k + 1, stream =>
    match recvReply stream with
    | none => []
    | some (reply, rest) => reply :: recvLoop k rest

/-- A reply takes two bytes of the stream at least, so its length bounds their number. -/
def recvThread (stream : Bytes) : List (Short × Bytes) := recvLoop stream.length stream

/-- A reply the client reads in step: its length, and its bytes. -/
def reply (payload : Bytes) : Short × Bytes := (toShort payload.length, payload)

/-- Every frame of the server reads as an empty reply. -/
theorem recvReply_echoFrame (payload rest : Bytes) :
    recvReply (Server.echoFrame payload ++ rest) = some ((toShort 0, []), payload ++ rest) := by
  have hlen : ¬ (Server.echoFrame payload ++ rest).length < headLength := by
    simp only [Server.echoFrame, headLength, List.length_append, List.length_cons]
    omega
  unfold recvReply
  rw [if_neg hlen]
  rfl

/-- **In step over a sequence of frames**: exactly when they are all empty. -/
theorem recvLoop_frames {payloads : List Bytes} : ∀ {k : Nat}, payloads.length ≤ k →
    (recvLoop k (payloads.flatMap Server.echoFrame) = payloads.map reply ↔
      ∀ p ∈ payloads, p = []) := by
  induction payloads with
  | nil =>
    intro k _
    refine iff_of_true ?_ fun p hp => absurd hp List.not_mem_nil
    cases k <;> rfl
  | cons p ps ih =>
    intro k hk
    obtain ⟨k, rfl⟩ : ∃ j, k = j + 1 := ⟨k - 1, by rw [List.length_cons] at hk; omega⟩
    have hread := recvReply_echoFrame p (ps.flatMap Server.echoFrame)
    rw [List.flatMap_cons, recvLoop, hread, List.map_cons, List.forall_mem_cons]
    dsimp only
    constructor
    · intro h
      obtain ⟨hhead, htail⟩ := List.cons.inj h
      have hp : p = [] := (congrArg Prod.snd hhead).symm
      subst hp
      exact ⟨rfl, (ih (Nat.le_of_succ_le_succ hk)).mp htail⟩
    · rintro ⟨rfl, hps⟩
      rw [List.nil_append, (ih (Nat.le_of_succ_le_succ hk)).mpr hps]
      rfl

/-- The frames of version 2.1 for a list of payloads, as its `Send` builds them. -/
def msgNodes (payloads : List Bytes) : Except Fault (List MsgNode) :=
  payloads.mapM fun p => Server.msgNode p (toShort p.length)

/-- What they are on the wire. -/
def replyStream (nodes : List MsgNode) : Bytes := nodes.flatMap MsgNode.buffer

theorem msgNodes_stream {payloads : List Bytes} (h : ∀ p ∈ payloads, p.length ≤ 2048) :
    ∃ nodes, msgNodes payloads = .ok nodes ∧ nodes.length = payloads.length ∧
      replyStream nodes = payloads.flatMap Server.echoFrame := by
  induction payloads with
  | nil => exact ⟨[], rfl, rfl, rfl⟩
  | cons p ps ih =>
    obtain ⟨nodes, hnodes, hlen, hstream⟩ := ih fun q hq => h q (List.mem_cons_of_mem _ hq)
    have hp := h p List.mem_cons_self
    have hn : (toShort (p.length : Int)).toInt = p.length := toShort_toInt (by omega) (by omega)
    obtain ⟨n, hmake, hbuf⟩ := Server.msgNode_buffer p (toShort p.length) (by omega) (by omega)
      (by omega)
    rw [hn, Int.toNat_natCast, List.take_length] at hbuf
    refine ⟨n :: nodes, ?_, by rw [List.length_cons, List.length_cons, hlen], ?_⟩
    · unfold msgNodes at hnodes ⊢
      rw [List.mapM_cons, hmake, hnodes]
      rfl
    · rw [replyStream, List.flatMap_cons, hbuf, List.flatMap_cons, ← hstream]
      rfl

/-! ## The server's side of a request -/

/-- The length the server reads in a request's header: the client's, its two bytes swapped. -/
theorem bits_lengthBytes {n : Nat} (h : n < 65536) :
    bits (bigEndianShort (UInt8.ofNat (n % 256)) (UInt8.ofNat (n / 256 % 256))) =
      n % 256 * 256 + n / 256 := by
  rw [bits_bigEndianShort, UInt8.toNat_ofNat', UInt8.toNat_ofNat']
  omega

/-- The server reads a length equal to the client's exactly at the multiples of 257. -/
theorem swapped_eq_iff {n : Nat} (h : n < 65536) :
    n % 256 * 256 + n / 256 = n ↔ 257 ∣ n := by omega

/-- **What the server makes of a request**: the payload alone, or nothing, or first a payload of
another length. -/
theorem parse_request {payload : Bytes} (hlen : payload.length ≤ 2046) :
    (257 ∣ payload.length ∧ Server.taken.parse (lengthBytes payload.length ++ payload) =
        ⟨[((), payload)], .pending []⟩) ∨
    (¬ 257 ∣ payload.length ∧
      ((Server.taken.parse (lengthBytes payload.length ++ payload)).msgs = [] ∨
        ∃ q more, q.length ≤ 2048 ∧ q ≠ payload ∧
          (Server.taken.parse (lengthBytes payload.length ++ payload)).msgs =
            ((), q) :: more)) := by
  have hiff := swapped_eq_iff (n := payload.length) (by omega)
  have hbits := bits_lengthBytes (n := payload.length) (by omega)
  generalize hL : bigEndianShort (UInt8.ofNat (payload.length % 256))
    (UInt8.ofNat (payload.length / 256 % 256)) = len at hbits
  generalize hm : payload.length % 256 * 256 + payload.length / 256 = m at hbits hiff
  have hhead : (lengthBytes payload.length).length = Server.taken.headLen := rfl
  have hdec : Server.taken.decode (lengthBytes payload.length) =
      if 2048 < len.toInt then .reject
      else if len.toInt < -1 then .broken
      else .accept () m := by
    rw [← hL, ← hbits, ← hL]
    rfl
  have hlow := le_short len
  have hhigh := short_lt len
  by_cases hbig : 2048 < len.toInt
  · -- the swapped length is over the limit
    rw [if_pos hbig] at hdec
    have hnext : Server.taken.next (lengthBytes payload.length ++ payload) = .rejected :=
      Lib.Format.next_of_reject hhead hdec
    refine Or.inr ⟨fun hdvd => ?_, Or.inl (by rw [Lib.Format.parse_rejected hnext])⟩
    have hwide := bits_of_nonneg (x := len) (by omega)
    have heq := hiff.mpr hdvd
    omega
  · rw [if_neg hbig] at hdec
    by_cases hneg : len.toInt < -1
    · rw [if_pos hneg] at hdec
      have hnext : Server.taken.next (lengthBytes payload.length ++ payload) = .broken :=
        Lib.Format.next_of_broken hhead hdec
      refine Or.inr ⟨fun hdvd => ?_, Or.inl (by rw [Lib.Format.parse_broken hnext])⟩
      have heq := hiff.mpr hdvd
      have hwrap : len.toInt % 65536 = len.toInt + 65536 := by omega
      rw [bits, hwrap] at hbits
      omega
    · rw [if_neg hneg] at hdec
      by_cases hshort : payload.length < m
      · -- the server waits for bytes that are not coming
        have hnext : Server.taken.next (lengthBytes payload.length ++ payload) = .incomplete :=
          Lib.Format.next_of_partial hhead hdec hshort
        refine Or.inr ⟨fun hdvd => ?_, Or.inl (by rw [Lib.Format.parse_incomplete hnext])⟩
        have heq := hiff.mpr hdvd
        omega
      · have htake : (payload.take m).length = m := List.length_take_of_le (by omega)
        have hnext : Server.taken.next (lengthBytes payload.length ++ payload) =
            .frame () (payload.take m) (payload.drop m) := by
          have hparts : Server.taken.next ((lengthBytes payload.length ++ []) ++ payload) =
              .frame () ([] ++ payload.take m) (payload.drop m) :=
            Lib.Format.next_of_parts hhead hdec htake
          rwa [List.append_nil] at hparts
        have hparse := Lib.Format.parse_frame hnext
        by_cases hdvd : 257 ∣ payload.length
        · have heq := hiff.mpr hdvd
          refine Or.inl ⟨hdvd, ?_⟩
          rw [hparse, heq, List.take_length, List.drop_length, Lib.Format.parse_nil]
        · refine Or.inr ⟨hdvd, Or.inr ⟨payload.take m, _, by omega, ?_, by rw [hparse]⟩⟩
          intro hsame
          have hlen' := congrArg List.length hsame
          rw [htake] at hlen'
          exact hdvd (hiff.mp hlen')

/-- **A request under any chunking.** -/
theorem posted_request {payload : Bytes} {chunks : List Bytes} (hlen : payload.length ≤ 2046)
    (hchunks : ∀ c ∈ chunks, ValidChunk c)
    (hflat : chunks.flatten = lengthBytes payload.length ++ payload) :
    ∃ c, Connection.run Server.receiver chunks = some c ∧
      (c.posted = [some ((), payload)] ↔ 257 ∣ payload.length) := by
  obtain ⟨c, hrun, hspec⟩ := Connection.run_takes Server.receiver_takes hchunks
  have hposts := hspec.posts
  rw [hflat] at hposts
  refine ⟨c, hrun, ?_⟩
  rcases parse_request hlen with ⟨hdvd, hparse⟩ | ⟨hdvd, hmsgs | ⟨q, more, hq, hne, hmsgs⟩⟩
  · rw [hparse] at hposts
    refine iff_of_true (hposts.map_messageAt fun m hm => ?_) hdvd
    rw [List.mem_singleton.mp hm]
    show payload.length ≤ 2048
    omega
  · rw [hmsgs] at hposts
    refine iff_of_false (fun h => ?_) hdvd
    have hzero := hposts.length_eq
    have hone := congrArg List.length h
    rw [Connection.posted, List.length_map, hzero] at hone
    cases hone
  · rw [hmsgs] at hposts
    refine iff_of_false (fun h => ?_) hdvd
    have hread := hposts.read
    unfold Connection.posted at h
    cases hdel : delivered c.log with
    | nil =>
      rw [hdel] at h
      cases h
    | cons p ps =>
      rw [hdel] at h hread
      cases hread with
      | cons hp _ =>
        have hhead := (List.cons.inj h).1
        rw [hp hq] at hhead
        cases hhead
        exact hne rfl

/-! ## The two together -/

/-- **When the client and version 2.1 agree on the wire format.** A request of at most 2046 bytes is
handed to `Send` as it was, under any chunking, exactly when its length is a multiple of 257; and
the client reads the frames of a list of payloads as those payloads exactly when all of them are
empty. -/
theorem wireFormat_iff {payload : Bytes} (hlen : payload.length ≤ 2046) {payloads : List Bytes}
    (hsmall : ∀ p ∈ payloads, p.length ≤ 2048) :
    (∃ frame, sendData payload = .ok frame ∧
      ∀ chunks, (∀ c ∈ chunks, ValidChunk c) → chunks.flatten = frame →
        ∃ c, Connection.run Server.receiver chunks = some c ∧
          (c.posted = [some ((), payload)] ↔ 257 ∣ payload.length)) ∧
    ∃ nodes, msgNodes payloads = .ok nodes ∧
      (recvThread (replyStream nodes) = payloads.map reply ↔ ∀ p ∈ payloads, p = []) := by
  constructor
  · exact ⟨_, sendData_eq hlen, fun chunks hchunks hflat => posted_request hlen hchunks hflat⟩
  · obtain ⟨nodes, hnodes, _, hstream⟩ := msgNodes_stream hsmall
    refine ⟨nodes, hnodes, ?_⟩
    rw [hstream]
    have hcount : ∀ ps : List Bytes, ps.length ≤ (ps.flatMap Server.echoFrame).length := by
      intro ps
      induction ps with
      | nil => exact Nat.zero_le _
      | cons p ps ih =>
        have hframe : (Server.echoFrame p).length = 2 + p.length := List.length_append
        rw [List.flatMap_cons, List.length_append, List.length_cons, hframe]
        omega
    exact recvLoop_frames (hcount payloads)

/-- 257 bytes get through, and an empty reply comes back in step. -/
theorem wireFormat_iff_257 :
    (∃ c, Connection.run Server.receiver [[1, 1], List.replicate 257 0x61] = some c ∧
      c.posted = [some ((), List.replicate 257 0x61)]) ∧
    ∃ nodes, msgNodes [[], []] = .ok nodes ∧
      recvThread (replyStream nodes) = [(0, []), (0, [])] := by
  have hlen : (List.replicate 257 (0x61 : UInt8)).length ≤ 2046 := by
    rw [List.length_replicate]
    omega
  have hsmall : ∀ p ∈ ([[], []] : List Bytes), p.length ≤ 2048 := by decide
  obtain ⟨⟨frame, hsend, hrecv⟩, nodes, hnodes, hreads⟩ := wireFormat_iff hlen hsmall
  constructor
  · rw [sendData_eq hlen] at hsend
    cases hsend
    have hvalid : ∀ c ∈ [[1, 1], List.replicate 257 0x61], ValidChunk c := by
      intro c hc
      rcases List.mem_pair.mp hc with rfl | rfl
      · exact ⟨by decide, by decide⟩
      · refine ⟨nofun, ?_⟩
        rw [List.length_replicate]
        decide
    have hhead : lengthBytes 257 = [1, 1] := rfl
    obtain ⟨c, hrun, hiff⟩ := hrecv _ hvalid
      (by rw [List.length_replicate, hhead, List.flatten_cons, List.flatten_singleton])
    exact ⟨c, hrun, hiff.mpr (by simp only [List.length_replicate, Nat.dvd_refl])⟩
  · exact ⟨nodes, hnodes, hreads.mpr (by decide)⟩

/-- The client's own request, of 14 bytes, is announced as 3584 bytes and rejected; the echo of one
byte reads as an empty reply. -/
theorem wireFormat_disagrees :
    (¬ ∀ payload : Bytes, 1 ≤ payload.length → payload.length ≤ 2046 →
        ∃ frame, sendData payload = .ok frame ∧
          ∀ chunks, (∀ c ∈ chunks, ValidChunk c) → chunks.flatten = frame →
            ∃ c, Connection.run Server.receiver chunks = some c ∧
              c.posted = [some ((), payload)]) ∧
    ¬ ∀ payloads : List Bytes, (∀ p ∈ payloads, p.length ≤ 2048) →
        ∃ nodes, msgNodes payloads = .ok nodes ∧
          recvThread (replyStream nodes) = payloads.map reply := by
  constructor
  · intro h
    let request : Bytes := List.replicate 14 0x61
    obtain ⟨frame, hsend, hrecv⟩ := h request (by decide) (by decide)
    rw [sendData_eq (by decide)] at hsend
    cases hsend
    obtain ⟨c, hrun, hposted⟩ := hrecv [lengthBytes request.length ++ request]
      (by unfold ValidChunk; decide) List.flatten_singleton
    have hlen : request.length ≤ 2046 := by decide
    obtain ⟨c', hrun', hiff⟩ := posted_request hlen (by unfold ValidChunk; decide)
      (List.flatten_singleton (l := lengthBytes request.length ++ request))
    rw [hrun] at hrun'
    cases hrun'
    exact absurd (hiff.mp hposted) (by decide)
  · intro h
    obtain ⟨nodes, hnodes, hread⟩ := h [[0x61]] (by decide)
    have hempty : (msgNodes [[0x61]]).map (fun ns => recvThread (replyStream ns)) =
        .ok [(0, [])] := rfl
    rw [hnodes] at hempty
    have hsame : recvThread (replyStream nodes) = [(0, [])] := Except.ok.inj hempty
    rw [hread] at hsame
    cases hsame

end Client
end AsyncEchoServer
