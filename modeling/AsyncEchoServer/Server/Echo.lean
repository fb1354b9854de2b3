import AsyncEchoServer.Session.Connection
import AsyncEchoServer.Session.SendQueue

/-!
# `Server/Echo.lean` — the version-2.1 server echoes

In `Server/` the receive loop hands a complete payload straight to `Send`, which frames it again
with `MsgNode(char *, short)`. One session of it is a connection and a send queue; reads and
write completions take turns on the one network thread.

`Send` is called inside the loop. It copies the payload, and the loop looks at nothing it leaves
behind, so the sends of a callback are run here in the order the loop logged them, on the nodes
as they are when the callback ends (`Frame`: as they were when they were sent).

The decoder reads a 16-bit length in network order. The encoder converts with
`host_to_network_long` and copies two of the four bytes, which are the high half: the header of
every echo is `00 00`. `echo_iff_empty` says what that leaves of the echo law.
-/

set_option autoImplicit false

namespace AsyncEchoServer
namespace Server

/-! ## The constructor -/

/-- **The layout of an echo**: two zero bytes, whatever the length, then the payload. -/
theorem msgNode_buffer (msg : Bytes) (maxLen : Short) (h₀ : 0 ≤ maxLen.toInt)
    (hfit : maxLen.toInt ≤ 32765) (hsrc : maxLen.toInt ≤ msg.length) :
    ∃ n, Server.msgNode msg maxLen = .ok n ∧
      n.buffer = [0, 0] ++ msg.take maxLen.toInt.toNat := by
  have htotal : (toShort (maxLen.toInt + headLength)).toInt = maxLen.toInt + 2 :=
    toShort_toInt (by simp only [headLength]; omega) (by simp only [headLength]; omega)
  have hcopy : toSizeT maxLen.toInt = maxLen.toInt.toNat := toSizeT_short h₀
  obtain ⟨k, hk⟩ : ∃ k : Nat, maxLen.toInt = k := ⟨maxLen.toInt.toNat, by omega⟩
  -- one node a line, as the constructor writes it
  let n₀ := MsgNode.zeroed (toShort (maxLen.toInt + headLength))
  let n₁ := n₀.write (0 : Nat) ((storeLong (hostToNetworkLong maxLen)).take headLength)
  let n₂ := n₁.write headLength (msg.take (toSizeT maxLen.toInt))
  let n₃ := n₂.write n₂.totalLen.toInt [0]
  have ht₀ : n₀.totalLen.toInt = maxLen.toInt + 2 := htotal
  have hnew : MsgNode.new (toShort (maxLen.toInt + headLength)) = .ok n₀ :=
    MsgNode.new_of_nonneg (by rw [htotal]; omega)
  have h₁ : n₀.memcpy 0 (storeLong (hostToNetworkLong maxLen)) headLength = .ok n₁ :=
    MsgNode.memcpy_ok (by show (2 : Int) ≤ n₀.totalLen.toInt + 1; omega) (by show 2 ≤ 4; omega)
  have h₂ : n₁.memcpy headLength msg (toSizeT maxLen.toInt) = .ok n₂ :=
    MsgNode.memcpy_ok
      (by show ((2 + toSizeT maxLen.toInt : Nat) : Int) ≤ n₀.totalLen.toInt + 1; omega) (by omega)
  have h₃ : n₂.terminate = .ok n₃ :=
    MsgNode.terminate_ok (by show 0 ≤ n₀.totalLen.toInt; omega)
  refine ⟨n₃, ?_, ?_⟩
  · simp only [Server.msgNode, hnew, h₁, h₂, h₃, bind, Except.bind]
  have hsize : n₀.data.length = k + 3 := by rw [n₀.size]; omega
  have hd₁ : n₁.data.length = k + 3 := by rw [MsgNode.write_data, blit_length, hsize]
  have hhead : n₁.data.take 2 = [0, 0] := by
    have h := blit_take n₀.data [0, 0] (k := 0) (by rw [hsize]; show 2 ≤ k + 3; omega)
    show (blit n₀.data (0 : Nat) ((storeLong (hostToNetworkLong maxLen)).take 2)).take 2 = _
    rw [storeLong_hostToNetworkLong_take h₀]
    simpa using h
  have hbody : (msg.take k).length = k := List.length_take_of_le (by omega)
  have h := blit_take n₁.data (msg.take k) (k := 2) (by rw [hd₁, hbody]; omega)
  rw [hbody, hhead] at h
  show (blit n₂.data n₀.totalLen.toInt [0]).take (toSizeT n₀.totalLen.toInt) = _
  rw [ht₀, hk, toSizeT_of_nonneg (by omega) (by omega), blit_take_of_le (Nat.le_refl _),
    show ((k : Int) + 2).toNat = 2 + k by omega, Int.toNat_natCast]
  show (blit n₁.data (2 : Nat) (msg.take (toSizeT maxLen.toInt))).take (2 + k) = _
  rw [hcopy, hk, Int.toNat_natCast]
  exact h

/-! ## One session -/

/-- The sends of one callback, and how many of them found the queue full. `none`: a send threw or
left its buffer. -/
def sendAll (heap : Heap Unit) :
    List Nat → Nat × SendQueue MsgNode → Option (Nat × SendQueue MsgNode)
  | [], s => some s
  | p :: ps, (refused, q) =>
    match heap[p]? with
    | none => none
    | some node =>
      match Server.send node.data node.totalLen.toInt q with
      | some (.returned, q') =>
        sendAll heap ps (if maxSendQueue < q.sendQue.length then refused + 1 else refused, q')
      | _ => none

structure Echo where
  conn : Connection Unit
  queue : SendQueue MsgNode
  /-- the bytes the callbacks were given -/
  received : Bytes
  /-- the sends that found the queue full -/
  refused : Nat

namespace Echo

inductive Act where
  /-- a read completes -/
  | handleRead (chunk : Bytes)
  /-- a write completes, without error -/
  | handleWrite (i : Nat)

instance (chunk : Bytes) : Decidable (ValidChunk chunk) :=
  inferInstanceAs (Decidable (chunk ≠ [] ∧ chunk.length ≤ maxLength))

def step (e : Echo) : Act → Option Echo
  | .handleRead chunk =>
    if e.conn.reads ≠ 0 ∧ ValidChunk chunk then
      match AsyncEchoServer.handleRead receiver e.conn.heap e.conn.session (.ok chunk) with
      | none => none
      | some (es, (l, _)) =>
        (sendAll l.heap (delivered es) (e.refused, e.queue)).map fun out =>
          { conn := e.conn.after es l
            queue := out.2
            received := e.received ++ chunk
            refused := out.1 }
    else none
  | .handleWrite i =>
    (e.queue.step (.handleWrite i false)).map fun q => { e with queue := q }

def system : Lib.System Echo Act where
  init := { conn := .start receiver, queue := .fresh, received := [], refused := 0 }
  step := step

/-- The bytes handed to `async_write` so far. -/
def wire (e : Echo) : Bytes := e.queue.started.flatMap fun n => n.node.buffer

end Echo

/-! ## What is queued -/

/-- What a payload is echoed as. -/
def echoFrame (payload : Bytes) : Bytes := [0, 0] ++ payload

/-- The sizes of a complete node agree. -/
theorem length_of_filled {heap : Heap Unit} {p : Nat} {node : ReciveNode Unit} {payload : Bytes}
    (hget : heap[p]? = some node) (hfull : Filled heap p)
    (hmsg : messageAt heap p = some ((), payload)) :
    node.totalLen.toInt = payload.length ∧ node.data.take payload.length = payload := by
  obtain ⟨node', hget', hcur, h₀⟩ := hfull
  rw [hget] at hget'
  cases hget'
  rw [messageAt, hget, Option.map_some, ReciveNode.message, hcur, toSizeT_short h₀] at hmsg
  injection hmsg with hmsg
  injection hmsg with _ hpayload
  have hlen : payload.length = node.totalLen.toInt.toNat := by
    rw [← hpayload, List.length_take, node.size]
    omega
  exact ⟨by omega, by rw [hlen]; exact hpayload⟩

/-- A `Send` of a received payload queues its echo or is refused. -/
theorem send_filled {heap : Heap Unit} {p : Nat} {node : ReciveNode Unit} {payload : Bytes}
    (q : SendQueue MsgNode) (hget : heap[p]? = some node) (hfull : Filled heap p)
    (hmsg : messageAt heap p = some ((), payload)) (hlimit : payload.length ≤ 2048) :
    ∃ q', Server.send node.data node.totalLen.toInt q = some (.returned, q') ∧
      (q.sendQue.length ≤ maxSendQueue → q'.accepted.map (fun n => n.node.buffer) =
        q.accepted.map (fun n => n.node.buffer) ++ [echoFrame payload]) := by
  obtain ⟨htotal, htake⟩ := length_of_filled hget hfull hmsg
  have hshort : toShort node.totalLen.toInt = node.totalLen := Int16.ofInt_toInt _
  obtain ⟨n, hmake, hbuf⟩ := msgNode_buffer node.data node.totalLen (by omega) (by omega)
    (by rw [node.size]; omega)
  obtain ⟨q', hsend, _, hroom⟩ := SendQueue.send_ok q n
  refine ⟨q', by rw [Server.send, hshort, hmake, hsend], ?_⟩
  intro hle
  rw [hroom hle, List.map_append, List.map_singleton, hbuf, htotal, Int.toNat_natCast, htake]
  rfl

/-- Whatever the nodes hold, the queue has seen nothing but sends. -/
theorem sendAll_reachable {heap : Heap Unit} : ∀ {ps : List Nat} {r r' : Nat}
    {q q' : SendQueue MsgNode}, sendAll heap ps (r, q) = some (r', q') →
    SendQueue.system.Reachable q → SendQueue.system.Reachable q' ∧ r ≤ r' := by
  intro ps
  induction ps with
  | nil =>
    intro r r' q q' h hq
    cases h
    exact ⟨hq, Nat.le_refl _⟩
  | cons p ps ih =>
    intro r r' q q' h hq
    unfold sendAll at h
    cases hget : heap[p]? with
    | none =>
      rw [hget] at h
      cases h
    | some node =>
      rw [hget] at h
      dsimp only at h
      cases hsend : Server.send node.data node.totalLen.toInt q with
      | none =>
        rw [hsend] at h
        cases h
      | some out =>
        obtain ⟨x, q₁⟩ := out
        rw [hsend] at h
        cases x with
        | threw => cases h
        | undefined => cases h
        | returned =>
          obtain ⟨hq', hle⟩ := ih h (SendQueue.reachable_send hq hsend)
          refine ⟨hq', Nat.le_trans ?_ hle⟩
          split
          · exact Nat.le_succ r
          · exact Nat.le_refl r

/-- **The sends of a callback.** If none is refused, each payload is queued as its echo. -/
theorem sendAll_spec {heap : Heap Unit} : ∀ {ps : List Nat} {msgs : List (Unit × Bytes)}
    {r : Nat} {q : SendQueue MsgNode}, (∀ p ∈ ps, Filled heap p) →
    ps.map (messageAt heap) = msgs.map some → (∀ m ∈ msgs, m.2.length ≤ 2048) →
    SendQueue.system.Reachable q →
    ∃ r' q', sendAll heap ps (r, q) = some (r', q') ∧ r ≤ r' ∧
      (r' = r → q'.accepted.map (fun n => n.node.buffer) =
        q.accepted.map (fun n => n.node.buffer) ++ msgs.map fun m => echoFrame m.2) := by
  intro ps
  induction ps with
  | nil =>
    intro msgs r q _ hmsgs _ hq
    have hnil : msgs = [] := List.map_eq_nil_iff.mp hmsgs.symm
    subst hnil
    exact ⟨r, q, rfl, Nat.le_refl r, fun _ => (List.append_nil _).symm⟩
  | cons p ps ih =>
    intro msgs r q hfilled hmsgs hlimit hq
    obtain ⟨⟨⟨⟩, payload⟩, msgs', rfl⟩ : ∃ m msgs', msgs = m :: msgs' := by
      cases msgs with
      | nil => cases hmsgs
      | cons m msgs' => exact ⟨m, msgs', rfl⟩
    rw [List.map_cons, List.map_cons] at hmsgs
    injection hmsgs with hmsg hrest
    have hfull := hfilled p List.mem_cons_self
    obtain ⟨node, hget, _⟩ := id hfull
    obtain ⟨q₁, hsend, hroom⟩ := send_filled q hget hfull hmsg
      (hlimit _ List.mem_cons_self)
    have hq₁ : SendQueue.system.Reachable q₁ := SendQueue.reachable_send hq hsend
    have hrec := fun r₁ =>
      ih (r := r₁) (fun p' hp' => hfilled p' (List.mem_cons_of_mem _ hp')) hrest
      (fun m hm => hlimit m (List.mem_cons_of_mem _ hm)) hq₁
    by_cases hlt : maxSendQueue < q.sendQue.length
    · obtain ⟨r', q', hall, hle, _⟩ := hrec (r + 1)
      refine ⟨r', q', ?_, by omega, fun heq => absurd heq (by omega)⟩
      simp only [sendAll, hget, hsend, if_pos hlt]
      exact hall
    · obtain ⟨r', q', hall, hle, hacc⟩ := hrec r
      refine ⟨r', q', ?_, hle, ?_⟩
      · simp only [sendAll, hget, hsend, if_neg hlt]
        exact hall
      · intro heq
        rw [hacc heq, hroom (Nat.not_lt.mp hlt), List.append_assoc]
        rfl

/-! ## The invariant of a session -/

/-- As long as the stream makes sense, the connection is the reference parser's, and the queue
has accepted the echo of every message, unless a send was refused. -/
structure Echo.Inv (e : Echo) : Prop where
  reachable : SendQueue.system.Reachable e.queue
  conn : (ref.parse e.received).tail ≠ .broken → ConnSpec receiver ref e.received e.conn
  echoed : (ref.parse e.received).tail ≠ .broken → e.refused = 0 →
    e.queue.accepted.map (fun n => n.node.buffer) =
      (ref.parse e.received).msgs.map fun m => echoFrame m.2

theorem ref_limit {h : Bytes} {n : Nat} (hd : ref.decode h = .accept () n) : n ≤ 2048 := by
  have hd' : (if 2048 < (bigEndianShort (h.getD 0 0) (h.getD 1 0)).toInt then Lib.Verdict.reject
    else if (bigEndianShort (h.getD 0 0) (h.getD 1 0)).toInt < 0 then .broken
    else .accept () (bigEndianShort (h.getD 0 0) (h.getD 1 0)).toInt.toNat) = .accept () n := hd
  split at hd'
  · cases hd'
  · split at hd'
    · cases hd'
    · injection hd' with _ hn
      omega

theorem parse_limit {b : Bytes} : ∀ m ∈ (ref.parse b).msgs, m.2.length ≤ 2048 := by
  intro m hm
  obtain ⟨h, _, hd⟩ := Lib.Format.parse_msgs_accept hm
  exact ref_limit hd

/-- What a callback hands over is what the chunk adds to the parse. -/
theorem ledger_new {b chunk : Bytes} {c : Connection Unit} {es : List Effect} {l : Loop Unit}
    {new : List (Unit × Bytes)} (h : ConnSpec receiver ref b c)
    (h' : ConnSpec receiver ref (b ++ chunk) (c.after es l))
    (hnew : (ref.parse (b ++ chunk)).msgs = (ref.parse b).msgs ++ new) :
    (delivered es).map (messageAt l.heap) = new.map some ∧
      ∀ p ∈ delivered es, Filled l.heap p := by
  have hold : Ledger c.heap c.session c.log (ref.parse b).msgs := by
    cases h with
    | waiting _ ledger _ _ _ _ _ => exact ledger
    | rejected _ ledger _ _ _ => exact ledger
  have hall : Ledger l.heap l.session (c.log ++ es) (ref.parse (b ++ chunk)).msgs := by
    rw [← Connection.after_log c es l]
    cases h' with
    | waiting _ ledger _ _ _ _ _ => exact ledger
    | rejected _ ledger _ _ _ => exact ledger
  have hlen : ((delivered c.log).map (messageAt l.heap)).length =
      ((ref.parse b).msgs.map some).length := by
    have h := congrArg List.length hold.read
    rwa [List.length_map] at h ⊢
  have hread := hall.read
  rw [delivered_append, List.map_append, hnew, List.map_append] at hread
  refine ⟨(List.append_inj hread hlen).2, ?_⟩
  intro p hp
  exact hall.filled p (by rw [delivered_append]; exact List.mem_append_right _ hp)

theorem Echo.init_inv : Inv system.init where
  reachable := .init
  conn _ := Connection.start_spec receiver_reads
  echoed _ _ := by
    show [] = _
    rw [show system.init.received = [] from rfl, Lib.Format.parse_nil]
    rfl

theorem Echo.step_inv {e e' : Echo} {a : Act} (hi : Inv e) (h : system.step e a = some e') :
    Inv e' := by
  cases a with
  | handleWrite i =>
    obtain ⟨q, hq, rfl⟩ := Option.map_eq_some_iff.mp h
    have hstep : SendQueue.system.step e.queue (.handleWrite i false) = some q := hq
    obtain ⟨_, _, _, _, hacc, _⟩ := (SendQueue.reachable_inv hi.reachable).completed hq
    refine ⟨hi.reachable.step hstep, hi.conn, ?_⟩
    intro hb hr
    show q.accepted.map _ = _
    rw [hacc]
    exact hi.echoed hb hr
  | handleRead chunk =>
    have h' : e.step (.handleRead chunk) = some e' := h
    simp only [step] at h'
    by_cases hen : e.conn.reads ≠ 0 ∧ ValidChunk chunk
    · rw [if_pos hen] at h'
      cases hread : AsyncEchoServer.handleRead receiver e.conn.heap e.conn.session (.ok chunk) with
      | none =>
        rw [hread] at h'
        cases h'
      | some out =>
        obtain ⟨es, l, x⟩ := out
        rw [hread] at h'
        obtain ⟨⟨r', q'⟩, hsends, rfl⟩ := Option.map_eq_some_iff.mp h'
        -- a stream that makes sense now made sense before
        have hconn : (ref.parse (e.received ++ chunk)).tail ≠ .broken →
            ConnSpec receiver ref (e.received ++ chunk) (e.conn.after es l) := by
          intro hb
          obtain ⟨es', l', x', hread', hspec⟩ :=
            (hi.conn (tail_ne_broken_of_append hb)).callback receiver_reads hen.1 hen.2
          rw [hread] at hread'
          cases hread'
          exact hspec.resolve_right fun hbad => hb hbad.1
        obtain ⟨hq', hle⟩ := sendAll_reachable hsends hi.reachable
        refine ⟨hq', hconn, ?_⟩
        intro hb hr
        have hr' : r' = 0 := hr
        have hb' := tail_ne_broken_of_append hb
        obtain ⟨new, hnew⟩ := Lib.Format.msgs_append (F := ref) e.received chunk
        obtain ⟨hmsgs, hfilled⟩ := ledger_new (hi.conn hb') (hconn hb) hnew
        have hlimit : ∀ m ∈ new, m.2.length ≤ 2048 := fun m hm =>
          parse_limit m (by rw [hnew]; exact List.mem_append_right _ hm)
        obtain ⟨r₁, q₁, hsends₁, _, hacc⟩ := sendAll_spec hfilled hmsgs hlimit hi.reachable
        rw [hsends] at hsends₁
        cases hsends₁
        show q'.accepted.map _ = (ref.parse (e.received ++ chunk)).msgs.map _
        rw [hacc (by omega), hi.echoed hb' (by omega), hnew, List.map_append]
    · rw [if_neg hen] at h'
      cases h'

theorem Echo.reachable_inv {e : Echo} (h : system.Reachable e) : Inv e :=
  h.invariant init_inv step_inv

/-! ## The echo law -/

/-- A payload framed for this server: its length in network order, then the payload. -/
def frame (payload : Bytes) : Bytes := networkBytes (toShort payload.length) ++ payload

/-- The frames this server accepts. -/
def encoder : Lib.Encoder ref where
  dom m := m.2.length ≤ 2048
  head m := networkBytes (toShort m.2.length)
  head_length _ _ := rfl
  decode_head := by
    rintro ⟨⟨⟩, payload⟩ hlen
    dsimp only at hlen ⊢
    have hback := bigEndianShort_networkBytes (toShort payload.length) []
    rw [List.append_nil] at hback
    have hn : (toShort (payload.length : Int)).toInt = payload.length :=
      toShort_toInt (by omega) (by omega)
    show (if 2048 < (bigEndianShort _ _).toInt then _ else _) = _
    rw [hback, hn, if_neg (by omega), if_neg (by omega)]
    rfl

theorem parse_frames {ps : List Bytes} (hps : ∀ p ∈ ps, p.length ≤ 2048) :
    ref.parse (ps.flatMap frame) = ⟨ps.map fun p => ((), p), .pending []⟩ := by
  have hdom : ∀ m ∈ ps.map fun p => ((), p), encoder.dom m := by
    intro m hm
    obtain ⟨p, hp, rfl⟩ := List.mem_map.mp hm
    exact hps p hp
  have h := Lib.Encoder.parse_encode hdom []
  rw [List.append_nil, Lib.Format.parse_nil, List.append_nil, List.flatMap_map] at h
  exact h

/-- An echo is the frame it answers only if there was nothing in it. -/
theorem echoFrame_eq_frame_iff {p : Bytes} (hp : p.length ≤ 2048) :
    echoFrame p = frame p ↔ p = [] := by
  constructor
  · intro h
    have hhead : [0, 0] = networkBytes (toShort p.length) := (List.append_inj h rfl).1
    have hback := bigEndianShort_networkBytes (toShort p.length) []
    rw [List.append_nil, ← hhead] at hback
    have hzero : (toShort (p.length : Int)).toInt = 0 := by rw [← hback]; rfl
    rw [toShort_toInt (by omega) (by omega)] at hzero
    exact List.length_eq_zero_iff.mp (by omega)
  · rintro rfl
    rfl

/-- Two streams of frames of the same sizes agree only frame by frame. -/
theorem flatMap_inj {f g : Bytes → Bytes} {ps : List Bytes} (hlen : ∀ p, (f p).length = (g p).length)
    (h : ps.flatMap f = ps.flatMap g) : ∀ p ∈ ps, f p = g p := by
  induction ps with
  | nil => exact fun p hp => absurd hp List.not_mem_nil
  | cons p ps ih =>
    rw [List.flatMap_cons, List.flatMap_cons] at h
    obtain ⟨hhead, hrest⟩ := List.append_inj h (hlen p)
    intro p' hp'
    rcases List.mem_cons.mp hp' with rfl | hp'
    · exact hhead
    · exact ih hrest p' hp'

theorem echo_eq_iff {ps : List Bytes} (hps : ∀ p ∈ ps, p.length ≤ 2048) :
    ps.flatMap echoFrame = ps.flatMap frame ↔ ∀ p ∈ ps, p = [] := by
  constructor
  · intro h p hp
    exact (echoFrame_eq_frame_iff (hps p hp)).mp
      (flatMap_inj (fun _ => by rw [echoFrame, frame, List.length_append, List.length_append]; rfl)
        h p hp)
  · intro h
    rw [List.flatMap_def, List.flatMap_def]
    refine congrArg List.flatten (List.map_congr_left ?_)
    intro p hp
    exact (echoFrame_eq_frame_iff (hps p hp)).mpr (h p hp)

/-- A session that has written everything has written the echo of every message. -/
theorem Echo.wire_of_drained {e : Echo} (h : Echo.system.Reachable e)
    (hb : (ref.parse e.received).tail ≠ .broken) (hroom : e.refused = 0)
    (hdrained : e.queue.sendQue = []) :
    e.wire = (ref.parse e.received).msgs.flatMap fun m => echoFrame m.2 := by
  have hi := Echo.reachable_inv h
  have hstarted : e.queue.started = e.queue.accepted := by
    rw [(SendQueue.reachable_inv hi.reachable).wire, SendQueue.accepted_eq hi.reachable, hdrained]
    rfl
  rw [Echo.wire, hstarted, List.flatMap_def, hi.echoed hb hroom, List.flatMap_def]

/-- **The echo law holds exactly for empty payloads.** Over any chunking and any schedule of the
write completions, once a stream of frames has been received and everything queued has been
written without a send refused or a write failing, the bytes written are the stream received (and
so read back as the same payloads) if and only if every payload is empty. -/
theorem echo_iff_empty {ps : List Bytes} (hps : ∀ p ∈ ps, p.length ≤ 2048) {e : Echo}
    (h : Echo.system.Reachable e) (hrecv : e.received = ps.flatMap frame)
    (hroom : e.refused = 0) (hdrained : e.queue.sendQue = []) :
    (e.wire = e.received ∧ (ref.parse e.wire).msgs = ps.map fun p => ((), p)) ↔
      ∀ p ∈ ps, p = [] := by
  have hparse := parse_frames hps
  have hwire : e.wire = ps.flatMap echoFrame := by
    rw [Echo.wire_of_drained h (by rw [hrecv, hparse]; nofun) hroom hdrained, hrecv, hparse,
      List.flatMap_map]
  rw [hwire, hrecv, ← echo_eq_iff hps]
  constructor
  · exact fun hlaw => hlaw.1
  · intro hsame
    exact ⟨hsame, by rw [hsame, hparse]⟩

/-- Two empty payloads, in chunks of one byte and three, come back as they were sent. -/
theorem echo_iff_empty_two :
    ∃ e, Echo.system.run Echo.system.init
        [.handleRead [0], .handleRead [0, 0, 0], .handleWrite 0, .handleWrite 0] = some e ∧
      e.wire = [0, 0, 0, 0] := by
  have hrun : ∃ e, Echo.system.run Echo.system.init
      [.handleRead [0], .handleRead [0, 0, 0], .handleWrite 0, .handleWrite 0] = some e ∧
        e.received = [[], []].flatMap frame ∧ e.refused = 0 ∧ e.queue.sendQue = [] :=
    ⟨_, rfl, rfl, rfl, rfl⟩
  obtain ⟨e, he, hrecv, hroom, hdrained⟩ := hrun
  refine ⟨e, he, ?_⟩
  have hlimit : ∀ p ∈ ([[], []] : List Bytes), p.length ≤ 2048 := by decide
  have hlaw := echo_iff_empty hlimit (.of_run he) hrecv hroom hdrained
  rw [(hlaw.mpr (by decide)).1, hrecv]
  rfl

/-- One payload byte, and the echo says there is none. -/
theorem echo_one_byte :
    ¬ ∀ (ps : List Bytes) (e : Echo), (∀ p ∈ ps, p.length ≤ 2048) → Echo.system.Reachable e →
      e.received = ps.flatMap frame → e.refused = 0 → e.queue.sendQue = [] →
        e.wire = e.received := by
  intro h
  have hrun : ∃ e, Echo.system.run Echo.system.init
      [.handleRead [0, 1, 0x68], .handleWrite 0] = some e ∧ e.received = [[0x68]].flatMap frame ∧
        e.refused = 0 ∧ e.queue.sendQue = [] ∧ e.wire = [0, 0, 0x68] :=
    ⟨_, rfl, rfl, rfl, rfl, rfl⟩
  obtain ⟨e, he, hrecv, hroom, hdrained, hwire⟩ := hrun
  have hlaw := h [[0x68]] e (by decide) (.of_run he) hrecv hroom hdrained
  rw [hwire, hrecv] at hlaw
  exact absurd hlaw (by decide)

end Server
end AsyncEchoServer
