import AsyncEchoServer.Client.JsonClient
import AsyncEchoServer.ServerV3Mt.Healthy

/-!
# `Client/Benchmark.lean` — the client's threads and the server together

The benchmark of the multi-thread server: `threads` connections, each of a thread of the client that
goes through its turns. A connection is two streams of bytes. What a thread of the client writes is
read by the server in chunks of any size, and what the server has started to write arrives at the
client in any. The network loses nothing, and a socket is closed where the client's code closes it.
The sessions are counted in the order they are accepted, and the client's threads with them.

Each thread waits for a reply before its next request, so a session is never more than one reply
behind, its queue is never full, and what a thread has read are the answers to its own requests, in
order (`lockstep`).
-/

set_option autoImplicit false

namespace AsyncEchoServer

open JsonClient ServerV3Mt
open ServerV3 (Conn encoder ref)

/-- What a benchmark is run with. -/
structure Setup where
  /-- threads of the server's pool -/
  size : Nat
  /-- threads of the client -/
  threads : Nat
  /-- requests of each -/
  turns : Nat
  request : Nat → Nat → Bytes
  callback : Short × Bytes → Bytes × Short
  /-- `Reader::parse` of the client -/
  parse : Bytes → Json

/-- The requests and the replies go into the arrays of the client, and the replies are objects. -/
structure Setup.Fits (S : Setup) : Prop where
  pool : 0 < S.size
  requests : ∀ uuid j, (S.request uuid j).length ≤ 2044
  replies : ∀ uuid j, (S.callback (message (S.request uuid j))).1.length ≤ 2048
  objects : ∀ uuid j, shown S.parse (S.callback (message (S.request uuid j))).1 ≠ none

structure Benchmark where
  server : Machine
  clients : Nat → Client
  /-- what a client has written and the server has not read -/
  toServer : Nat → Bytes
  /-- how much of what the server writes has arrived -/
  arrived : Nat → Nat
  /-- the server has seen the end of the stream -/
  hungUp : Nat → Bool

/-- What the server has started to write on a session. -/
def onWire (c : Conn) : Bytes := ServerV3.wire (c.sendQueue.started.map Queued.node)

namespace Benchmark

def init : Benchmark where
  server := .init
  clients := fun _ => .init
  toServer := fun _ => []
  arrived := fun _ => 0
  hungUp := fun _ => false

inductive Act where
  /-- a connection is accepted -/
  | accept
  /-- a thread of the server goes on -/
  | server (t : Thread)
  /-- the worker wakes without a notification -/
  | spurious
  /-- the server reads at most `n` bytes -/
  | deliver (uuid n : Nat)
  /-- the `j`-th outstanding write of the server completes -/
  | written (uuid j : Nat)
  /-- the server reads the end of the stream -/
  | hangUp (uuid : Nat)
  /-- a thread of the client goes on -/
  | client (uuid : Nat)
  /-- at most `n` bytes arrive at the client -/
  | arrive (uuid n : Nat)

/-- What the server sees of an action, if it is possible. -/
def serverAct (S : Setup) (w : Benchmark) : Act → Option Machine.Act
  | .accept => if w.server.fresh < S.threads then some (.handleAccept false) else none
  | .server t => some (Machine.nextAct t)
  | .spurious => some .spurious
  | .deliver uuid n => some (.handleRead uuid ((w.toServer uuid).take n))
  | .written uuid j => some (.handleWrite uuid j false)
  | .hangUp uuid =>
    if (w.clients uuid).pos = .returned ∧ w.toServer uuid = [] ∧ w.hungUp uuid = false then
      some (.handleReadError uuid)
    else none
  | .client _ | .arrive _ _ => none

/-- What an action takes off the connections. -/
def drained (w : Benchmark) : Act → Benchmark
  | .deliver uuid n =>
    { w with toServer := Function.update w.toServer uuid ((w.toServer uuid).drop n) }
  | .hangUp uuid => { w with hungUp := Function.update w.hungUp uuid true }
  | _ => w

def clientStep (S : Setup) (w : Benchmark) (uuid : Nat) : Option Benchmark :=
  if uuid < S.threads then
    ((w.clients uuid).step S.turns (S.request uuid) S.parse).map fun out =>
      { w with
        clients := Function.update w.clients uuid out.2
        toServer := Function.update w.toServer uuid (w.toServer uuid ++ out.1) }
  else none

def arrive (w : Benchmark) (uuid n : Nat) : Option Benchmark :=
  let more := ((onWire (w.server.conns uuid)).drop (w.arrived uuid)).take n
  if more ≠ [] then
    let c := w.clients uuid
    some { w with
      clients := Function.update w.clients uuid { c with stream := c.stream ++ more }
      arrived := Function.update w.arrived uuid (w.arrived uuid + more.length) }
  else none

def step (S : Setup) (w : Benchmark) (a : Act) : Option Benchmark :=
  match a with
  | .client uuid => w.clientStep S uuid
  | .arrive uuid n => w.arrive uuid n
  | a => (w.serverAct S a).bind fun b =>
    (w.server.step S.size S.callback b).map fun m => { w.drained a with server := m }

def system (S : Setup) : Lib.System Benchmark Act where
  init := init
  step := step S

/-- The ways of a step. -/
inductive StepSpec (S : Setup) (w : Benchmark) : Act → Benchmark → Prop where
  | server {a : Act} {b : Machine.Act} {m : Machine} (act : w.serverAct S a = some b)
      (step : w.server.step S.size S.callback b = some m) :
      StepSpec S w a { w.drained a with server := m }
  | client {uuid : Nat} {data : Bytes} {c : Client} (lt : uuid < S.threads)
      (step : (w.clients uuid).step S.turns (S.request uuid) S.parse = some (data, c)) :
      StepSpec S w (.client uuid)
        { w with
          clients := Function.update w.clients uuid c
          toServer := Function.update w.toServer uuid (w.toServer uuid ++ data) }
  | arrive {uuid n : Nat} {more : Bytes}
      (takes : more = ((onWire (w.server.conns uuid)).drop (w.arrived uuid)).take n)
      (ne : more ≠ []) :
      StepSpec S w (.arrive uuid n)
        { w with
          clients := Function.update w.clients uuid
            { w.clients uuid with stream := (w.clients uuid).stream ++ more }
          arrived := Function.update w.arrived uuid (w.arrived uuid + more.length) }

variable {S : Setup} {w w' : Benchmark} {a : Act} {uuid : Nat}

theorem step_cases (h : w.step S a = some w') : StepSpec S w a w' := by
  have hserver : (w.serverAct S a).bind (fun b =>
      (w.server.step S.size S.callback b).map fun m => { w.drained a with server := m }) = some w' →
      StepSpec S w a w' := by
    intro h
    obtain ⟨b, hb, hm⟩ := Option.bind_eq_some_iff.mp h
    obtain ⟨m, hstep, rfl⟩ := Option.map_eq_some_iff.mp hm
    exact .server hb hstep
  cases a with
  | client uuid =>
    simp only [step, clientStep, Option.ite_none_right_eq_some] at h
    obtain ⟨hlt, h⟩ := h
    obtain ⟨⟨data, c⟩, hstep, rfl⟩ := Option.map_eq_some_iff.mp h
    exact .client hlt hstep
  | arrive uuid n =>
    simp only [step, arrive, Option.ite_none_right_eq_some] at h
    obtain ⟨hne, h⟩ := h
    cases h
    exact .arrive rfl hne
  | accept | server | spurious | deliver | written | hangUp => exact hserver h

/-! ## What a session's streams carry -/

/-- The nodes built of replies are those replies on the wire. -/
theorem wire_of_builds {rs : List (Bytes × Short)} {ns : List (Queued SendNode)}
    (h : List.Forall₂ Machine.Builds rs ns) (hshort : ∀ r ∈ rs, r.1.length ≤ 32763) :
    ServerV3.wire (ns.map Queued.node) = replyStream rs := by
  induction h with
  | nil => rfl
  | @cons r n rs ns hn hrest ih =>
    have hlen := hshort r List.mem_cons_self
    have hsize : (toShort (r.1.length : Int)).toInt = r.1.length :=
      toShort_toInt (by omega) (by omega)
    have h₀ : 0 ≤ (toShort (r.1.length : Int)).toInt := by omega
    obtain ⟨n', hmake, _, hbuf⟩ := SendNode.make_buffer r.1 r.2 h₀ (by omega) (by omega)
    rw [hsize, Int.toNat_natCast, List.take_length] at hbuf
    obtain rfl : n' = n.node := Except.ok.inj (hmake.symm.trans hn)
    show n.node.buffer ++ ServerV3.wire (ns.map Queued.node) = replyFrame r ++ replyStream rs
    rw [ih fun r' hr' => hshort r' (List.mem_cons_of_mem _ hr'), hbuf]
    rfl

theorem messages_mem {request : Nat → Bytes} {k : Nat} {msg : Short × Bytes}
    (h : msg ∈ messages request k) : ∃ j, msg = message (request j) := by
  obtain ⟨j, _, rfl⟩ := List.mem_map.mp h
  exact ⟨j, rfl⟩

theorem answers_extends {f : Short × Bytes → Bytes × Short} {request : Nat → Bytes} {i k : Nat}
    (h : i ≤ k) : answers f request i <+: answers f request k := by
  refine (List.IsPrefix.map _ ?_).map _
  rw [List.range_eq_range', List.range_eq_range', ← Nat.add_sub_cancel' h]
  exact ⟨_, List.range'_append_1⟩

/-- A stream of replies is shorter than one with more of them. -/
theorem replyStream_lt {rs rs' : List (Bytes × Short)} (hpre : rs <+: rs')
    (hlt : rs.length < rs'.length) : (replyStream rs).length < (replyStream rs').length := by
  obtain ⟨more, rfl⟩ := hpre
  rw [List.length_append] at hlt
  obtain ⟨r, more, rfl⟩ := List.exists_cons_of_length_pos (l := more) (by omega)
  have hframe := replyFrame_length r
  rw [replyStream_append, List.length_append, replyStream, replyStream, List.flatMap_cons,
    List.length_append, hframe]
  simp only [headTotalLen]
  omega

theorem replyStream_extends {rs rs' : List (Bytes × Short)} (h : rs <+: rs') :
    replyStream rs <+: replyStream rs' := by
  obtain ⟨more, rfl⟩ := h
  rw [replyStream_append]
  exact List.prefix_append _ _

/-- Requests in their frames are parsed as they were sent. -/
theorem parse_requests (hS : S.Fits) (uuid k : Nat) :
    ref.parse (requestStream (S.request uuid) k) =
      ⟨messages (S.request uuid) k, .pending []⟩ := by
  have hdom : ∀ m ∈ messages (S.request uuid) k, encoder.dom m := by
    intro m hm
    obtain ⟨j, rfl⟩ := messages_mem hm
    have hid : msgHelloWord.toInt ≤ 2048 := by decide
    exact ⟨hid, Nat.le_trans (hS.requests uuid j) (by omega)⟩
  have h := Lib.Encoder.parse_encode (E := encoder) hdom []
  rwa [List.append_nil, Lib.Format.parse_nil, List.append_nil] at h

/-! ## The invariant -/

structure Inv (S : Setup) (w : Benchmark) : Prop where
  server : (Machine.system S.size S.callback).Reachable w.server
  alive : w.server.fate = .alive
  lives : w.server.logic.destructor = .alive
  accepted : w.server.fresh ≤ S.threads
  isOpen : ∀ s, (w.server.conns s).sendQueue.failed = false
  builds : ∀ s, List.Forall₂ Machine.Builds (w.server.conns s).sends
    (w.server.conns s).sendQueue.accepted
  asked : ∀ s, (w.server.conns s).received ++ w.toServer s =
    requestStream (S.request s) (w.clients s).asked
  arrived : ∀ s, w.arrived s ≤ (onWire (w.server.conns s)).length
  follows : ∀ s, (w.clients s).Follows S.turns S.callback (S.request s)
    ((onWire (w.server.conns s)).take (w.arrived s))
  listens : ∀ s, s < w.server.fresh → w.hungUp s = false → w.server.Listens S.size s
  hungUp : ∀ s, w.hungUp s = true → (w.clients s).pos = .returned ∧ w.toServer s = []

theorem init_inv : Inv S init where
  server := .init
  alive := rfl
  lives := rfl
  accepted := Nat.zero_le _
  isOpen _ := rfl
  builds _ := .nil
  asked _ := rfl
  arrived _ := Nat.zero_le _
  follows _ := Client.init_follows
  listens _ h := absurd h (Nat.not_lt_zero _)
  hungUp _ h := by cases h

/-- A server that has received the first requests of each client. -/
def Asked (S : Setup) (w : Benchmark) (m : Machine) : Prop :=
  ∀ s, (m.conns s).received <+: requestStream (S.request s) (w.clients s).asked

theorem Inv.received (h : Inv S w) : Asked S w w.server := fun s => ⟨_, h.asked s⟩

theorem Asked.legal {m : Machine} (hS : S.Fits) (h : Asked S w m) : m.Legal := by
  intro s
  obtain ⟨rest, hrest⟩ := h s
  by_contra hnone
  have hsame := Lib.Format.tail_append_of_ne_pending (F := ref) (c := rest)
    fun r hr => hnone ⟨r, hr⟩
  rw [hrest, parse_requests hS] at hsame
  exact hnone ⟨[], by rw [← hsame]⟩

theorem Asked.framed {m : Machine} (hS : S.Fits) (h : Asked S w m) (s : Nat) :
    m.framed s <+: messages (S.request s) (w.clients s).asked := by
  obtain ⟨rest, hrest⟩ := h s
  obtain ⟨new, hnew⟩ := Lib.Format.msgs_append (F := ref) (m.conns s).received rest
  rw [hrest, parse_requests hS] at hnew
  exact ⟨new, hnew.symm⟩

theorem Asked.sendable {m : Machine} (hS : S.Fits) (h : Asked S w m) : m.Sendable S.callback := by
  intro s msg hmsg
  obtain ⟨j, rfl⟩ := messages_mem ((h.framed hS s).subset hmsg)
  exact Nat.le_trans (hS.replies s j) (by omega)

/-- It has sent each the answers to the first of them. -/
theorem Asked.sends {m : Machine} (hS : S.Fits) (h : Asked S w m)
    (hr : (Machine.system S.size S.callback).Reachable m) (s : Nat) :
    (m.conns s).sends <+: answers S.callback (S.request s) (w.clients s).asked := by
  obtain ⟨_, hsends⟩ := (Machine.reachable_data hr (h.legal hS).unbroken).sends_eq s
  have hpre : (m.framed s).take (m.repliedOf s) <+: messages (S.request s) (w.clients s).asked :=
    (List.take_prefix _ _).trans (h.framed hS s)
  have hall : ∀ msg ∈ (m.framed s).take (m.repliedOf s), decide (msg.1 = msgHelloWord) = true := by
    intro msg hmsg
    obtain ⟨j, rfl⟩ := messages_mem (hpre.subset hmsg)
    rfl
  rw [hsends, List.filter_eq_self.mpr hall]
  exact hpre.map _

/-- What is on the wire are the first of the replies that were sent. -/
theorem Inv.wire (hS : S.Fits) (h : Inv S w) (s : Nat) :
    ∃ rs, rs <+: (w.server.conns s).sends ∧
      rs.length = (w.server.conns s).sendQueue.started.length ∧
      onWire (w.server.conns s) = replyStream rs := by
  have hfifo := (Machine.reachable_writes h.server s).fifo
  have hstarted : (w.server.conns s).sendQueue.started <+:
      (w.server.conns s).sendQueue.accepted := hfifo.started_accepted
  have hbuilds := h.builds s
  have hlen := hbuilds.length_eq
  generalize hk : (w.server.conns s).sendQueue.started.length = k
  have htake : (w.server.conns s).sendQueue.started =
      (w.server.conns s).sendQueue.accepted.take k := by
    rw [← hk]
    exact List.prefix_iff_eq_take.mp hstarted
  refine ⟨(w.server.conns s).sends.take k, List.take_prefix _ _, ?_, ?_⟩
  · rw [List.length_take, hlen]
    exact Nat.min_eq_left (by rw [← hk]; exact hstarted.length_le)
  · rw [onWire, htake]
    refine wire_of_builds (List.forall₂_take k hbuilds) fun r hr => ?_
    have hmem := (h.received.sends hS h.server s).subset (List.mem_of_mem_take hr)
    obtain ⟨msg, hmsg, rfl⟩ := List.mem_map.mp hmem
    obtain ⟨j, rfl⟩ := messages_mem hmsg
    exact Nat.le_trans (hS.replies s j) (by omega)

/-- What is on the wire answers requests that were asked. -/
theorem Inv.wire_answers (hS : S.Fits) (h : Inv S w) (s : Nat) :
    onWire (w.server.conns s) <+:
      replyStream (answers S.callback (S.request s) (w.clients s).asked) := by
  obtain ⟨rs, hrs, _, hwire⟩ := h.wire hS s
  rw [hwire]
  exact replyStream_extends (hrs.trans (h.received.sends hS h.server s))

theorem Inv.arrived_answers (hS : S.Fits) (h : Inv S w) (s : Nat) :
    (onWire (w.server.conns s)).take (w.arrived s) <+:
      replyStream (answers S.callback (S.request s) (w.clients s).asked) :=
  (List.take_prefix _ _).trans (h.wire_answers hS s)

/-- A thread asks for one reply at a time. -/
theorem asked_cases (c : Client) : c.i ≤ c.asked ∧ c.asked ≤ c.i + 1 := by
  unfold Client.asked
  split <;> exact ⟨by omega, by omega⟩

/-- The replies that a client has read were started. -/
theorem Inv.started (hS : S.Fits) (h : Inv S w) (s : Nat) :
    (w.clients s).i ≤ (w.server.conns s).sendQueue.started.length := by
  obtain ⟨rs, hrs, hlen, hwire⟩ := h.wire hS s
  by_contra hshort
  have hanswers : answers S.callback (S.request s) (w.clients s).i <+:
      answers S.callback (S.request s) (w.clients s).asked := answers_extends (asked_cases _).1
  have hpre : rs <+: answers S.callback (S.request s) (w.clients s).i :=
    List.prefix_of_prefix_length_le (hrs.trans (h.received.sends hS h.server s)) hanswers
      (by rw [answers_length]; omega)
  have hless := replyStream_lt hpre (by rw [answers_length]; omega)
  have hbytes := congrArg List.length (h.follows s).bytes
  rw [List.length_append, List.length_append, List.length_take, hwire] at hbytes
  omega

/-- So all but the last of its nodes have been written. -/
theorem Inv.queued (hS : S.Fits) (h : Inv S w) (s : Nat) :
    (w.server.conns s).sendQueue.sendQue.length + (w.clients s).i ≤
      (w.server.conns s).sends.length + 1 := by
  have hstarted := h.started hS s
  have hbuilds := (h.builds s).length_eq
  have hfifo := (Machine.reachable_writes h.server s).fifo
  have hwire : (w.server.conns s).sendQueue.started.length =
      (w.server.conns s).sendQueue.written.length +
        (w.server.conns s).sendQueue.sendQue.head?.toList.length := by
    have hwire := congrArg List.length hfifo.wire
    rwa [List.length_append] at hwire
  have hqueued : (w.server.conns s).sendQueue.accepted.length =
      (w.server.conns s).sendQueue.written.length +
        (w.server.conns s).sendQueue.sendQue.length := by
    have hqueued := congrArg List.length hfifo.queued
    rwa [List.length_append] at hqueued
  have hhead : (w.server.conns s).sendQueue.sendQue.head?.toList.length ≤ 1 := by
    cases (w.server.conns s).sendQueue.sendQue.head? <;> simp
  omega

/-! ## The steps -/

/-- What the connections have to do with a step of the server. -/
structure Sees (S : Setup) (w : Benchmark) (a : Act) (b : Machine.Act) : Prop where
  clients : (w.drained a).clients = w.clients
  arrived : (w.drained a).arrived = w.arrived
  bytes : ∀ s, b.chunkOf s ++ (w.drained a).toServer s = w.toServer s
  accepts : ∀ error, b = .handleAccept error → error = false ∧ w.server.fresh < S.threads
  isOpen : ∀ s, (w.drained a).hungUp s = false → w.hungUp s = false ∧ b ≠ .handleReadError s
  ended : ∀ s, (w.drained a).hungUp s = true →
    w.hungUp s = true ∨ (w.clients s).pos = .returned ∧ w.toServer s = []
  sound : (∀ s j, b ≠ .handleWrite s j true) ∧ b ≠ .destructor

theorem serverAct_sees {b : Machine.Act} (h : w.serverAct S a = some b) : Sees S w a b := by
  cases a with
  | accept =>
    simp only [serverAct, Option.ite_none_right_eq_some] at h
    obtain ⟨hlt, h⟩ := h
    cases h
    exact ⟨rfl, rfl, fun _ => rfl, fun _ h => ⟨by cases h; rfl, hlt⟩, fun _ h => ⟨h, nofun⟩,
      fun _ h => Or.inl h, nofun, nofun⟩
  | server t =>
    cases h
    cases t <;> exact ⟨rfl, rfl, fun _ => rfl, nofun, fun _ h => ⟨h, nofun⟩, fun _ h => Or.inl h,
      nofun, nofun⟩
  | spurious =>
    cases h
    exact ⟨rfl, rfl, fun _ => rfl, nofun, fun _ h => ⟨h, nofun⟩, fun _ h => Or.inl h, nofun, nofun⟩
  | deliver uuid n =>
    cases h
    refine ⟨rfl, rfl, fun s => ?_, nofun, fun _ h => ⟨h, nofun⟩, fun _ h => Or.inl h, nofun, nofun⟩
    show (if s = uuid then (w.toServer uuid).take n else []) ++
      Function.update w.toServer uuid ((w.toServer uuid).drop n) s = w.toServer s
    by_cases hs : s = uuid
    · subst hs
      rw [if_pos rfl, Function.update_self, List.take_append_drop]
    · rw [if_neg hs, Function.update_of_ne hs]
      rfl
  | written uuid j =>
    cases h
    exact ⟨rfl, rfl, fun _ => rfl, nofun, fun _ h => ⟨h, nofun⟩, fun _ h => Or.inl h, nofun, nofun⟩
  | hangUp uuid =>
    simp only [serverAct, Option.ite_none_right_eq_some] at h
    obtain ⟨⟨hpos, hempty, _⟩, h⟩ := h
    cases h
    refine ⟨rfl, rfl, fun _ => rfl, nofun, fun s h => ?_, fun s h => ?_, nofun, nofun⟩
    · have hs : s ≠ uuid := by
        rintro rfl
        rw [show (w.drained (.hangUp s)).hungUp s = true from Function.update_self ..] at h
        cases h
      rw [show (w.drained (.hangUp uuid)).hungUp s = w.hungUp s from
        Function.update_of_ne hs ..] at h
      exact ⟨h, fun heq => hs (by cases heq; rfl)⟩
    · by_cases hs : s = uuid
      · subst hs
        exact Or.inr ⟨hpos, hempty⟩
      · rw [show (w.drained (.hangUp uuid)).hungUp s = w.hungUp s from
          Function.update_of_ne hs ..] at h
        exact Or.inl h
  | client | arrive => cases h

/-- A step of the server. -/
theorem Inv.serverStep (hS : S.Fits) (h : Inv S w) {b : Machine.Act} {m : Machine}
    (hact : w.serverAct S a = some b) (hstep : w.server.step S.size S.callback b = some m) :
    Inv S { w.drained a with server := m } := by
  have hsees := serverAct_sees hact
  have hreach : (Machine.system S.size S.callback).Reachable m := h.server.step hstep
  have hlegal := h.received.legal hS
  have hsend : ∀ s, Machine.SendSpec S.callback s (w.server.conns s) (m.conns s) b :=
    Machine.step_sendSpec hstep
  have hbytes : ∀ s, (m.conns s).received ++ (w.drained a).toServer s =
      requestStream (S.request s) (w.clients s).asked := by
    intro s
    rw [Machine.step_received_eq hstep s, List.append_assoc, hsees.bytes s]
    exact h.asked s
  have hasked : Asked S w m := fun s => ⟨_, hbytes s⟩
  -- the bytes on the wire stay where they are
  have hwire : ∀ s, onWire (w.server.conns s) <+: onWire (m.conns s) := by
    intro s
    obtain ⟨more, hmore⟩ := (hsend s).started_extends (hsees.sound.1 s)
    rw [onWire, onWire, ← hmore, List.map_append, ServerV3.wire, ServerV3.wire,
      List.flatMap_append]
    exact List.prefix_append _ _
  have htake : ∀ s, (onWire (m.conns s)).take (w.arrived s) =
      (onWire (w.server.conns s)).take (w.arrived s) := by
    intro s
    obtain ⟨more, hmore⟩ := hwire s
    rw [← hmore, List.take_append_of_le_length (h.arrived s)]
  refine
    { server := hreach
      alive := Machine.step_alive h.server hlegal (h.received.sendable hS) hstep
      lives := (Machine.step_destructor hsees.sound.2 hstep).trans h.lives
      accepted := ?_
      isOpen := fun s => (hsend s).isOpen (hsees.sound.1 s) (h.isOpen s)
      builds := fun s => ?_
      asked := fun s => ?_
      arrived := fun s => ?_
      follows := fun s => ?_
      listens := fun s hlt hopen => ?_
      hungUp := fun s hhung => ?_ }
  · rcases Machine.step_fresh hstep with ⟨heq, _⟩ | ⟨heq, error, hb⟩
    · exact Nat.le_trans (Nat.le_of_eq heq) h.accepted
    · exact Nat.le_trans (Nat.le_of_eq heq) (hsees.accepts error hb).2
  · refine (hsend s).builds (hsees.sound.1 s) (fun hlt => ?_) (h.builds s)
    -- the reply that is being sent was asked for
    have hsends := (hasked.sends hS hreach s).length_le
    rw [answers_length] at hsends
    have hqueued := h.queued hS s
    have hone := (asked_cases (w.clients s)).2
    unfold maxSendQueue
    omega
  · rw [hsees.clients]
    exact hbytes s
  · rw [hsees.arrived]
    exact Nat.le_trans (h.arrived s) (hwire s).length_le
  · rw [hsees.clients, hsees.arrived]
    show Client.Follows _ _ _ _ ((onWire (m.conns s)).take _)
    rw [htake s]
    exact h.follows s
  · obtain ⟨hopen', hb⟩ := hsees.isOpen s hopen
    have hreceives := (Machine.reachable_data h.server hlegal.unbroken).receives
    have hhome := Machine.reachable_atHome h.server
    have hstays : s < w.server.fresh → m.Listens S.size s := fun hlt =>
      Machine.step_listens (h.listens s hlt hopen') hreceives hhome hlegal hb hstep
    rcases Machine.step_fresh hstep with ⟨heq, _⟩ | ⟨heq, error, rfl⟩
    · exact hstays (by rw [← heq]; exact hlt)
    · obtain ⟨rfl, _⟩ := hsees.accepts error rfl
      rcases Nat.lt_or_eq_of_le (Nat.le_of_lt_succ (Nat.lt_of_lt_of_eq hlt heq)) with hlt | rfl
      · exact hstays hlt
      · obtain ⟨hspec, _⟩ := Machine.step_cases hstep
        cases hspec with
        | accept => exact Machine.accepted_listens hhome
        | queue act => cases act
  · rw [hsees.clients]
    have hempty : w.toServer s = [] → (w.drained a).toServer s = [] := fun hempty => by
      have hs := hsees.bytes s
      rw [hempty] at hs
      exact (List.append_eq_nil_iff.mp hs).2
    rcases hsees.ended s hhung with hold | ⟨hpos, hnil⟩
    · obtain ⟨hpos, hnil⟩ := h.hungUp s hold
      exact ⟨hpos, hempty hnil⟩
    · exact ⟨hpos, hempty hnil⟩

theorem step_inv (hS : S.Fits) (h : Inv S w) (hstep : w.step S a = some w') : Inv S w' := by
  cases step_cases hstep with
  | server act step => exact h.serverStep hS act step
  | @client uuid data c lt step =>
    obtain ⟨hfollows, hasked⟩ := (h.follows uuid).step (hS.requests uuid) (hS.replies uuid)
      (hS.objects uuid) (h.arrived_answers hS uuid) step
    refine { h with asked := fun s => ?_, follows := fun s => ?_, hungUp := fun s hhung => ?_ }
    · by_cases hs : s = uuid
      · subst hs
        show _ ++ Function.update w.toServer s _ s =
          requestStream _ (Function.update w.clients s c s).asked
        rw [Function.update_self, Function.update_self, hasked, ← h.asked s, List.append_assoc]
      · show _ ++ Function.update w.toServer uuid _ s =
          requestStream _ (Function.update w.clients uuid c s).asked
        rw [Function.update_of_ne hs, Function.update_of_ne hs]
        exact h.asked s
    · by_cases hs : s = uuid
      · subst hs
        show Client.Follows _ _ _ (Function.update w.clients s c s) _
        rw [Function.update_self]
        exact hfollows
      · show Client.Follows _ _ _ (Function.update w.clients uuid c s) _
        rw [Function.update_of_ne hs]
        exact h.follows s
    · -- a thread that has returned takes no step
      obtain ⟨hpos, hempty⟩ := h.hungUp s hhung
      have hs : s ≠ uuid := by
        rintro rfl
        rw [Client.step, hpos] at step
        cases step
      show (Function.update w.clients uuid c s).pos = _ ∧ Function.update w.toServer uuid _ s = _
      rw [Function.update_of_ne hs, Function.update_of_ne hs]
      exact ⟨hpos, hempty⟩
  | @arrive uuid n more takes ne =>
    have hclients : ∀ s, (Function.update w.clients uuid
        { w.clients uuid with stream := (w.clients uuid).stream ++ more } s).asked =
          (w.clients s).asked ∧ (Function.update w.clients uuid
        { w.clients uuid with stream := (w.clients uuid).stream ++ more } s).pos =
          (w.clients s).pos := by
      intro s
      by_cases hs : s = uuid
      · subst hs
        rw [Function.update_self]
        exact ⟨rfl, rfl⟩
      · rw [Function.update_of_ne hs]
        exact ⟨rfl, rfl⟩
    refine { h with asked := fun s => ?_, arrived := fun s => ?_, follows := fun s => ?_,
                    hungUp := fun s hhung => ?_ }
    · show _ ++ _ = requestStream _ (Function.update w.clients uuid _ s).asked
      rw [(hclients s).1]
      exact h.asked s
    · show Function.update w.arrived uuid _ s ≤ _
      by_cases hs : s = uuid
      · subst hs
        rw [Function.update_self, takes, List.length_take, List.length_drop]
        have hle := h.arrived s
        show _ ≤ (onWire (w.server.conns s)).length
        omega
      · rw [Function.update_of_ne hs]
        exact h.arrived s
    · show Client.Follows _ _ _ (Function.update w.clients uuid _ s)
        ((onWire (w.server.conns s)).take (Function.update w.arrived uuid _ s))
      by_cases hs : s = uuid
      · subst hs
        have hmore : more = ((onWire (w.server.conns s)).drop (w.arrived s)).take more.length := by
          have hlen := congrArg List.length takes
          rw [List.length_take] at hlen
          rw [hlen, ← List.take_take, List.take_length, ← takes]
        rw [Function.update_self, Function.update_self, List.take_add, ← hmore]
        exact (h.follows s).arrive more
      · rw [Function.update_of_ne hs, Function.update_of_ne hs]
        exact h.follows s
    · show (Function.update w.clients uuid _ s).pos = _ ∧ _
      rw [(hclients s).2]
      exact h.hungUp s hhung

theorem reachable_inv (hS : S.Fits) (h : (system S).Reachable w) : Inv S w :=
  h.invariant init_inv (step_inv hS)

/-- **In step.** With any number of connections, none of which fails, and of pool threads, of which
there is one at least, and however the steps, the chunks and the completions interleave: the server
lives; what a thread of the client has read are the
answers to its first `i` requests, in order, each with its id; the session has been sent those, and
at most the one to the request that is on its way; and its queue never holds more than two. -/
theorem lockstep (hS : S.Fits) (h : (system S).Reachable w) (uuid : Nat) :
    w.server.fate = .alive ∧
      (w.clients uuid).replies =
        (answers S.callback (S.request uuid) (w.clients uuid).i).map kept ∧
      (w.clients uuid).i ≤ (w.server.conns uuid).sends.length ∧
      (w.server.conns uuid).sends <+:
        answers S.callback (S.request uuid) ((w.clients uuid).i + 1) ∧
      (w.server.conns uuid).sendQueue.sendQue.length ≤ 2 := by
  have hi := reachable_inv hS h
  obtain ⟨_, hone⟩ := asked_cases (w.clients uuid)
  have hsends := (hi.received.sends hS hi.server uuid).trans (answers_extends hone)
  have hqueued := hi.queued hS uuid
  have hlen := hsends.length_le
  rw [answers_length] at hlen
  refine ⟨hi.alive, (hi.follows uuid).replies, ?_, hsends, by omega⟩
  obtain ⟨rs, hrs, hstarted, _⟩ := hi.wire hS uuid
  have hread := hi.started hS uuid
  have hle := hrs.length_le
  omega

/-- Two connections, and a callback that sends the payload back. -/
def echoSetup : Setup where
  size := 2
  threads := 2
  turns := 2
  request uuid _ := [0x68, UInt8.ofNat uuid]
  callback msg := (msg.2, msg.1)
  parse msg := .object [(keyData, .string msg)]

theorem echoSetup_fits : echoSetup.Fits where
  pool := Nat.two_pos
  requests _ _ := show 2 ≤ 2044 by omega
  replies _ _ := show 2 ≤ 2048 by omega
  objects _ _ := nofun

/-- Both clients write. The first is accepted, its request comes in two chunks, and the reply in
two; the second still waits. -/
def firstTurn : List Act :=
  [.client 1, .client 0, .accept, .deliver 0 5, .server (.pool 0), .deliver 0 9, .server (.pool 0),
    .server (.pool 0), .server (.pool 0), .server (.pool 0), .server (.pool 0), .server (.pool 0),
    .server .worker, .server .worker, .server .worker, .server .worker, .server .worker,
    .server .worker, .server .worker, .server .worker, .arrive 0 5, .client 0, .arrive 0 9,
    .client 0]

theorem lockstep_firstTurn : ∃ w, (system echoSetup).run init firstTurn = some w ∧
    (w.clients 0).replies = [(1001, [0x68, 0])] ∧ (w.clients 1).replies = [] := by
  have hrun : ((system echoSetup).run init firstTurn).map
      (fun w => ((w.clients 0).i, (w.clients 1).i)) = some (1, 0) := by decide +kernel
  obtain ⟨w, hw, hturns⟩ := Option.map_eq_some_iff.mp hrun
  obtain ⟨h₀, h₁⟩ := Prod.mk.inj hturns
  obtain ⟨_, hfirst, _⟩ := lockstep echoSetup_fits (.of_run hw) 0
  obtain ⟨_, hsecond, _⟩ := lockstep echoSetup_fits (.of_run hw) 1
  rw [h₀] at hfirst
  rw [h₁] at hsecond
  exact ⟨w, hw, hfirst, hsecond⟩

end Benchmark
end AsyncEchoServer
