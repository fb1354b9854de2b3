import AsyncEchoServer.Client.Benchmark
import AsyncEchoServer.Lib.Potential

/-!
# `Client/Completion.lean` — the benchmark comes to an end

`Benchmark.load` is what a benchmark has before it: the work of the server's threads, the steps of
the client's, and what the connections will still bring — the bytes of the requests that have not
been read and of the replies that have not arrived, the writes that have not completed, the
connections to be accepted and to be closed. Every step takes something off it, a wakeup without a
notification excepted. And where no step is possible, nobody waits for anybody: the threads of the
client have all returned, each with the answers to all its requests, and the server has seen the end
of every stream.
-/

set_option autoImplicit false

namespace AsyncEchoServer

open JsonClient ServerV3Mt
open ServerV3 (Conn encoder ref)

namespace Benchmark

variable {S : Setup} {w w' : Benchmark} {a : Act} {uuid : Nat}

/-! ## What is before a connection -/

/-- A byte that the server reads, and the completion that brings it. -/
def byteLoad : Nat := byteWork + 5

/-- A completion, with the steps it makes for a thread of the server. -/
def eventLoad : Nat := 4

/-- The writes of a session that have completed. -/
def finished (c : Conn) : Nat := c.sendQueue.started.length - c.sendQueue.writes.length

/-- What a connection is still to go through. -/
def connLoad (S : Setup) (w : Benchmark) (uuid : Nat) : Nat :=
  (w.clients uuid).work S.turns +
    byteLoad * ((requestStream (S.request uuid) S.turns).length -
      (w.server.conns uuid).received.length) +
    ((replyStream (answers S.callback (S.request uuid) S.turns)).length - w.arrived uuid) +
    eventLoad * (S.turns - finished (w.server.conns uuid)) +
    if w.hungUp uuid = true then 0 else eventLoad

def load (S : Setup) (w : Benchmark) : Nat :=
  w.server.work S.size + eventLoad * (S.threads - w.server.fresh) +
    ∑ uuid ∈ Finset.range S.threads, w.connLoad S uuid

/-- Everybody's steps but a wakeup without a notification. -/
def Act.internal : Act → Bool
  | .spurious => false
  | .accept | .server _ | .deliver _ _ | .written _ _ | .hangUp _ | .client _ | .arrive _ _ => true

def Act.credit : Act → Nat
  | .spurious => wakeWork
  | .accept | .server _ | .deliver _ _ | .written _ _ | .hangUp _ | .client _ | .arrive _ _ => 0

/-! ### What there can be of it -/

theorem requestStream_le {request : Nat → Bytes} {i k : Nat} (h : i ≤ k) :
    (requestStream request i).length ≤ (requestStream request k).length := by
  induction k, h using Nat.le_induction with
  | base => exact Nat.le_refl _
  | succ k _ ih =>
    rw [requestStream_succ, List.length_append]
    exact Nat.le_trans ih (Nat.le_add_right _ _)

theorem Inv.received_le (h : Inv S w) (s : Nat) :
    (w.server.conns s).received.length + (w.toServer s).length ≤
      (requestStream (S.request s) S.turns).length := by
  rw [← List.length_append, h.asked s]
  exact requestStream_le (h.follows s).asked_le

theorem Inv.wire_le (hS : S.Fits) (h : Inv S w) (s : Nat) : (onWire (w.server.conns s)).length ≤
    (replyStream (answers S.callback (S.request s) S.turns)).length :=
  ((h.wire_answers hS s).trans
    (replyStream_extends (answers_extends (h.follows s).asked_le))).length_le

/-- No write completes that was not started. -/
theorem Inv.writes_le (h : Inv S w) (s : Nat) :
    (w.server.conns s).sendQueue.writes.length ≤
      (w.server.conns s).sendQueue.started.length := by
  have hfifo := (Machine.reachable_writes h.server s).fifo
  have hflight := congrArg List.length hfifo.flight
  have hwire : (w.server.conns s).sendQueue.started.length =
      (w.server.conns s).sendQueue.written.length +
        (w.server.conns s).sendQueue.sendQue.head?.toList.length := by
    have hwire := congrArg List.length hfifo.wire
    rwa [List.length_append] at hwire
  have hopen : (w.server.inFlight S.size s).failed = false := h.isOpen s
  rw [hopen, if_neg Bool.false_ne_true] at hflight
  have hmine : (w.server.inFlight S.size s).writes.length =
      (w.server.completing S.size s).toList.length +
        (w.server.conns s).sendQueue.writes.length := List.length_append
  have hhead : (w.server.inFlight S.size s).sendQue.head?.toList.length =
      (w.server.conns s).sendQueue.sendQue.head?.toList.length := rfl
  omega

/-- Nor more than were asked for. -/
theorem Inv.started_le (hS : S.Fits) (h : Inv S w) (s : Nat) :
    (w.server.conns s).sendQueue.started.length ≤ S.turns := by
  obtain ⟨rs, hrs, hlen, _⟩ := h.wire hS s
  have hsends := (h.received.sends hS h.server s).length_le
  rw [answers_length] at hsends
  have hasked := (h.follows s).asked_le
  have hle := hrs.length_le
  omega

/-! ### Every step pays -/

/-- **What happens on a connection is taken off its load.** -/
theorem connLoad_spends (hS : S.Fits) (h' : Inv S w') {c k n g e : Nat}
    (hclient : (w'.clients uuid).work S.turns + c ≤ (w.clients uuid).work S.turns)
    (hreceived : (w'.server.conns uuid).received.length =
      (w.server.conns uuid).received.length + k)
    (harrived : w'.arrived uuid = w.arrived uuid + n)
    (hfinished : finished (w'.server.conns uuid) = finished (w.server.conns uuid) + g)
    (hhung : (if w'.hungUp uuid = true then 0 else eventLoad) + e ≤
      if w.hungUp uuid = true then 0 else eventLoad) :
    w'.connLoad S uuid + (c + byteLoad * k + n + eventLoad * g + e) ≤ w.connLoad S uuid := by
  have hrequests := h'.received_le uuid
  have hreplies := Nat.le_trans (h'.arrived uuid) (h'.wire_le hS uuid)
  have hturns : finished (w'.server.conns uuid) ≤ S.turns :=
    Nat.le_trans (Nat.sub_le ..) (h'.started_le hS uuid)
  unfold connLoad
  simp only [byteLoad, byteWork, postWork, wakeWork, nodeWork, eventLoad] at hhung ⊢
  omega

/-- One connection's load falls by `d`, and the others' stay. -/
theorem sum_connLoad {d : Nat} (hlt : uuid < S.threads)
    (hself : w'.connLoad S uuid + d ≤ w.connLoad S uuid)
    (hothers : ∀ s, s ≠ uuid → w'.connLoad S s = w.connLoad S s) :
    (∑ s ∈ Finset.range S.threads, w'.connLoad S s) + d ≤
      ∑ s ∈ Finset.range S.threads, w.connLoad S s := by
  have hsum : (∑ s ∈ Finset.range S.threads, w'.connLoad S s) + w.connLoad S uuid =
      (∑ s ∈ Finset.range S.threads, w.connLoad S s) + w'.connLoad S uuid :=
    sum_of_eq_except hlt hothers
  omega

/-- A connection on which nothing happens. -/
theorem connLoad_congr (hclient : w'.clients uuid = w.clients uuid)
    (hreceived : (w'.server.conns uuid).received = (w.server.conns uuid).received)
    (hfinished : finished (w'.server.conns uuid) = finished (w.server.conns uuid))
    (harrived : w'.arrived uuid = w.arrived uuid) (hhung : w'.hungUp uuid = w.hungUp uuid) :
    w'.connLoad S uuid = w.connLoad S uuid := by
  unfold connLoad
  rw [hclient, hreceived, hfinished, harrived, hhung]

theorem finished_starts {c c' : Conn} (h : SendQueue.Starts c.sendQueue c'.sendQueue) :
    finished c' = finished c := by
  obtain ⟨ws, hstarted, hwrites⟩ := h.begun
  unfold finished
  rw [hstarted, hwrites, List.length_append, List.length_append]
  omega

/-- A step of the server that brings the connection nothing. -/
theorem connLoad_aside {b : Machine.Act} {m : Machine} (hact : w.serverAct S a = some b)
    (hstep : w.server.step S.size S.callback b = some m) (hchunk : b.chunkOf uuid = [])
    (hwrites : ∀ j error, b ≠ .handleWrite uuid j error)
    (hhung : (w.drained a).hungUp uuid = w.hungUp uuid) :
    connLoad S { w.drained a with server := m } uuid = w.connLoad S uuid := by
  have hsees := serverAct_sees hact
  refine connLoad_congr (congrFun hsees.clients uuid) ?_ ?_ (congrFun hsees.arrived uuid) hhung
  · rw [Machine.step_received_eq hstep uuid, hchunk, List.append_nil]
  · exact finished_starts ((Machine.step_sendSpec hstep uuid).starts hwrites)

/-- A step of the server that brings no connection anything. -/
theorem sum_aside {b : Machine.Act} {m : Machine} (hact : w.serverAct S a = some b)
    (hstep : w.server.step S.size S.callback b = some m) (hchunk : ∀ s, b.chunkOf s = [])
    (hwrites : ∀ s j error, b ≠ .handleWrite s j error)
    (hhung : (w.drained a).hungUp = w.hungUp) :
    (∑ s ∈ Finset.range S.threads, connLoad S { w.drained a with server := m } s) + 0 ≤
      ∑ s ∈ Finset.range S.threads, w.connLoad S s := by
  rw [Nat.add_zero]
  exact Nat.le_of_eq (Finset.sum_congr rfl fun s _ =>
    connLoad_aside hact hstep (hchunk s) (hwrites s) (congrFun hhung s))

/-- A step that the server does not see. -/
theorem client_pays {d : Nat} (hserver : w'.server = w.server)
    (hsum : (∑ s ∈ Finset.range S.threads, w'.connLoad S s) + d ≤
      ∑ s ∈ Finset.range S.threads, w.connLoad S s) (hd : 0 < d) :
    w'.load S + 1 ≤ w.load S + 0 := by
  unfold load
  rw [hserver]
  omega

/-- What a completion brings the server is taken off the connections. -/
theorem server_pays (hS : S.Fits) (h : Inv S w) {b : Machine.Act} {m : Machine} {d k c : Nat}
    (hstep : w.server.step S.size S.callback b = some m)
    (hsum : (∑ s ∈ Finset.range S.threads, connLoad S { w.drained a with server := m } s) + d ≤
      ∑ s ∈ Finset.range S.threads, w.connLoad S s)
    (haccepts : eventLoad * (S.threads - m.fresh) + b.credit + k ≤
      eventLoad * (S.threads - w.server.fresh) + (if b.internal then 1 else 0) + d + c) :
    load S { w.drained a with server := m } + k ≤ w.load S + c := by
  have hpays := Machine.step_pays hS.pool h.server (h.received.legal hS).unbroken hstep
  show m.work S.size + eventLoad * (S.threads - m.fresh) + _ + k ≤
    w.server.work S.size + eventLoad * (S.threads - w.server.fresh) + _ + c
  omega

theorem fresh_eq {b : Machine.Act} {m : Machine}
    (hstep : w.server.step S.size S.callback b = some m) (hb : ∀ error, b ≠ .handleAccept error) :
    m.fresh = w.server.fresh := by
  obtain ⟨hsame, _⟩ | ⟨_, error, heq⟩ := Machine.step_fresh hstep
  · exact hsame
  · exact absurd heq (hb error)

/-- What the threads of the server do by themselves. -/
theorem nextAct_own (t : Thread) :
    (Machine.nextAct t).internal = true ∧ (Machine.nextAct t).credit = 0 ∧
      (∀ s, (Machine.nextAct t).chunkOf s = []) ∧
      (∀ s j error, Machine.nextAct t ≠ .handleWrite s j error) ∧
      ∀ error, Machine.nextAct t ≠ .handleAccept error := by
  cases t <;> exact ⟨rfl, rfl, fun _ => rfl, nofun, nofun⟩

/-- The server reads a chunk. -/
theorem deliver_pays (hS : S.Fits) (h : Inv S w) {n : Nat} {m : Machine}
    (hstep : w.server.step S.size S.callback (.handleRead uuid ((w.toServer uuid).take n)) =
      some m) :
    load S { w.drained (.deliver uuid n) with server := m } + 1 ≤ w.load S + 0 := by
  have hact : w.serverAct S (.deliver uuid n) =
    some (.handleRead uuid ((w.toServer uuid).take n)) := rfl
  have h' := h.serverStep hS hact hstep
  generalize hchunk : (w.toServer uuid).take n = chunk at hstep hact
  obtain ⟨hlistens, hne⟩ : (w.server.conns uuid).reads ≠ 0 ∧ chunk ≠ [] := by
    cases (Machine.step_cases hstep).1 with
    | read free listens ne le => exact ⟨listens, ne⟩
    | queue act => cases act
  have hself : connLoad S { w.drained (.deliver uuid n) with server := m } uuid +
      (0 + byteLoad * chunk.length + 0 + eventLoad * 0 + 0) ≤ w.connLoad S uuid := by
    refine connLoad_spends hS h' (Nat.le_refl _) ?_ rfl ?_ (Nat.le_refl _)
    · have hreceived := Machine.step_received_eq hstep uuid
      rw [show Machine.Act.chunkOf uuid (.handleRead uuid chunk) = chunk from if_pos rfl]
        at hreceived
      show (m.conns uuid).received.length = _
      rw [hreceived, List.length_append]
    · exact finished_starts ((Machine.step_sendSpec hstep uuid).starts nofun)
  have hlt := Nat.lt_of_lt_of_le ((Machine.reachable_atHome h.server).lt_of_reads hlistens)
    h.accepted
  have hsum := sum_connLoad hlt hself fun s hs =>
    connLoad_aside hact hstep (if_neg hs) nofun rfl
  refine server_pays hS h hstep hsum ?_
  rw [fresh_eq hstep nofun]
  have hpos := List.length_pos_of_ne_nil hne
  show _ + (byteWork * chunk.length + 4) + 1 ≤ _ + 0 + _ + 0
  simp only [byteLoad, byteWork, postWork, wakeWork, nodeWork]
  omega

/-- A write of the server completes. -/
theorem written_pays (hS : S.Fits) (h : Inv S w) {j : Nat} {m : Machine}
    (hstep : w.server.step S.size S.callback (.handleWrite uuid j false) = some m) :
    load S { w.drained (.written uuid j) with server := m } + 1 ≤ w.load S + 0 := by
  have hact : w.serverAct S (.written uuid j) = some (.handleWrite uuid j false) := rfl
  have h' := h.serverStep hS hact hstep
  obtain ⟨q, hfound, hqueue⟩ : ∃ q, (w.server.conns uuid).sendQueue.writes[j]? = some q ∧
      (m.conns uuid).sendQueue = { (w.server.conns uuid).sendQueue with
        writes := (w.server.conns uuid).sendQueue.writes.eraseIdx j } := by
    cases (Machine.step_cases hstep).1 with
    | write free found =>
      refine ⟨_, found, ?_⟩
      show (Function.update w.server.conns uuid _ uuid).sendQueue = _
      rw [Function.update_self]
    | queue act => cases act
  have hself : connLoad S { w.drained (.written uuid j) with server := m } uuid +
      (0 + byteLoad * 0 + 0 + eventLoad * 1 + 0) ≤ w.connLoad S uuid := by
    refine connLoad_spends hS h' (Nat.le_refl _) ?_ rfl ?_ (Nat.le_refl _)
    · exact congrArg List.length
        ((Machine.step_received_eq hstep uuid).trans (List.append_nil _))
    · have hj := (List.getElem?_eq_some_iff.mp hfound).1
      have hle := h.writes_le uuid
      show finished (m.conns uuid) = _
      unfold finished
      rw [hqueue, List.length_eraseIdx_of_lt hj]
      dsimp only
      omega
  have hlt := Nat.lt_of_lt_of_le ((Machine.reachable_atHome h.server).lt_of_writes hfound)
    h.accepted
  have hsum := sum_connLoad hlt hself fun s hs =>
    connLoad_aside hact hstep rfl (fun _ _ heq => hs (by cases heq; rfl)) rfl
  refine server_pays hS h hstep hsum ?_
  rw [fresh_eq hstep nofun]
  show _ + 3 + 1 ≤ _ + 0 + _ + 0
  simp only [eventLoad]
  omega

/-- The server sees the end of a stream. -/
theorem hangUp_pays (hS : S.Fits) (h : Inv S w) {m : Machine}
    (hact : w.serverAct S (.hangUp uuid) = some (.handleReadError uuid))
    (hopen : w.hungUp uuid = false)
    (hstep : w.server.step S.size S.callback (.handleReadError uuid) = some m) :
    load S { w.drained (.hangUp uuid) with server := m } + 1 ≤ w.load S + 0 := by
  have h' := h.serverStep hS hact hstep
  have hlistens : (w.server.conns uuid).reads ≠ 0 := by
    cases (Machine.step_cases hstep).1 with
    | readError free listens => exact listens
    | queue act => cases act
  have hself : connLoad S { w.drained (.hangUp uuid) with server := m } uuid +
      (0 + byteLoad * 0 + 0 + eventLoad * 0 + eventLoad) ≤ w.connLoad S uuid := by
    refine connLoad_spends hS h' (Nat.le_refl _) ?_ rfl ?_ ?_
    · exact congrArg List.length
        ((Machine.step_received_eq hstep uuid).trans (List.append_nil _))
    · exact finished_starts ((Machine.step_sendSpec hstep uuid).starts nofun)
    · rw [hopen, show ({ w.drained (.hangUp uuid) with server := m } : Benchmark).hungUp uuid =
        true from Function.update_self ..]
      exact Nat.le_refl _
  have hlt := Nat.lt_of_lt_of_le ((Machine.reachable_atHome h.server).lt_of_reads hlistens)
    h.accepted
  have hsum := sum_connLoad hlt hself fun s hs =>
    connLoad_aside hact hstep rfl nofun (Function.update_of_ne hs ..)
  refine server_pays hS h hstep hsum ?_
  rw [fresh_eq hstep nofun]
  show _ + 3 + 1 ≤ _ + 0 + _ + 0
  simp only [eventLoad]
  omega

/-- **Every step takes something off the load**, and a wakeup brings what it makes the worker do. -/
theorem step_pays (hS : S.Fits) (h : Inv S w) (hstep : w.step S a = some w') :
    (w'.load S + if a.internal then 1 else 0) ≤ w.load S + a.credit := by
  have h' := step_inv hS h hstep
  cases step_cases hstep with
  | @server _ b m act step =>
    cases a with
    | accept =>
      obtain ⟨hmore, heq⟩ := Option.ite_none_right_eq_some.mp act
      cases heq
      refine server_pays hS h step (sum_aside act step (fun _ => rfl) nofun rfl) ?_
      obtain ⟨_, hne⟩ | ⟨hnext, _⟩ := Machine.step_fresh step
      · exact absurd rfl (hne false)
      · rw [hnext]
        show _ + 3 + 1 ≤ _ + 0 + 0 + 0
        simp only [eventLoad]
        omega
    | server t =>
      cases act
      obtain ⟨hinternal, hcredit, hchunk, hwrites, haccepts⟩ := nextAct_own t
      refine server_pays hS h step (sum_aside (a := .server t) rfl step hchunk hwrites rfl) ?_
      rw [fresh_eq step haccepts, hinternal, hcredit]
      exact Nat.le_refl _
    | spurious =>
      cases act
      refine server_pays hS h step
        (sum_aside (a := .spurious) rfl step (fun _ => rfl) nofun rfl) ?_
      rw [fresh_eq step nofun]
      exact Nat.le_refl _
    | deliver uuid n =>
      cases act
      exact deliver_pays hS h step
    | written uuid j =>
      cases act
      exact written_pays hS h step
    | hangUp uuid =>
      obtain ⟨⟨_, _, hopen⟩, heq⟩ := Option.ite_none_right_eq_some.mp act
      cases heq
      exact hangUp_pays hS h act hopen step
    | client | arrive => cases act
  | @client uuid data c lt step =>
    have hself := connLoad_spends (w := w) hS h' (c := 1) (k := 0) (n := 0) (g := 0) (e := 0)
      (show (Function.update w.clients uuid c uuid).work _ + 1 ≤ _ by
        rw [Function.update_self]; exact Client.step_work step) rfl rfl rfl (Nat.le_refl _)
    have hsum := sum_connLoad lt hself fun s hs =>
      connLoad_congr (Function.update_of_ne hs ..) rfl rfl rfl rfl
    exact client_pays rfl hsum (by omega)
  | @arrive uuid n more takes ne =>
    have hpos := List.length_pos_of_ne_nil ne
    have hlt : uuid < S.threads := by
      by_contra hge
      have hnew := (Machine.reachable_atHome h.server).untouched uuid
        (Nat.le_trans h.accepted (Nat.not_lt.mp hge))
      have hempty : onWire (w.server.conns uuid) = [] := by rw [hnew]; rfl
      rw [hempty, List.drop_nil, List.take_nil] at takes
      exact ne takes
    have hself := connLoad_spends (w := w) hS h' (c := 0) (k := 0) (n := more.length) (g := 0) (e := 0)
      (show (Function.update w.clients uuid _ uuid).work _ + 0 ≤ _ by
        rw [Function.update_self]; exact Nat.le_refl _) rfl (Function.update_self ..) rfl
      (Nat.le_refl _)
    have hsum := sum_connLoad hlt hself fun s hs =>
      connLoad_congr (Function.update_of_ne hs ..) rfl rfl (Function.update_of_ne hs ..) rfl
    exact client_pays rfl hsum (by omega)

def potential (hS : S.Fits) : (system S).Potential where
  good _ := True
  value := load S
  internal := Act.internal
  credit := Act.credit
  before _ _ := trivial
  uncredited {a} ha := by cases a <;> first | rfl | cases ha
  pays hr _ hstep := step_pays hS (reachable_inv hS hr) hstep

/-! ## Where nothing is possible -/

/-- Nobody can take a step, and nothing is on the way. -/
def Quiet (S : Setup) (w : Benchmark) : Prop := ∀ a, a.internal = true → w.step S a = none

/-- Every thread of the client has returned with its answers, and its stream has ended. -/
def Done (S : Setup) (w : Benchmark) : Prop :=
  ∀ uuid < S.threads, (w.clients uuid).pos = .returned ∧
    (w.clients uuid).replies = (answers S.callback (S.request uuid) S.turns).map kept ∧
    w.hungUp uuid = true

/-- What the server could do with a completion, it can not. -/
theorem Quiet.server {b : Machine.Act} (hquiet : w.Quiet S) (ha : a.internal = true)
    (hstep : w.step S a = (w.serverAct S a).bind fun b =>
      (w.server.step S.size S.callback b).map fun m => { w.drained a with server := m })
    (hact : w.serverAct S a = some b) : w.server.step S.size S.callback b = none := by
  have hnone := hquiet a ha
  rw [hstep, hact, Option.bind_some, Option.map_eq_none_iff] at hnone
  exact hnone

theorem Quiet.resting (hS : S.Fits) (h : Inv S w) (hquiet : w.Quiet S) : w.server.Resting := by
  refine Machine.quiet_resting h.server (h.received.legal hS).unbroken h.alive h.lives ?_
  intro b hb
  obtain ⟨t, rfl⟩ : ∃ t, b = Machine.nextAct t := by
    cases b with
    | acceptor => exact ⟨.acceptor, rfl⟩
    | pool i => exact ⟨.pool i, rfl⟩
    | worker => exact ⟨.worker, rfl⟩
    | handleAccept | handleRead | handleReadError | handleWrite | spurious | destructor => cases hb
  exact hquiet.server (a := .server t) rfl rfl rfl

/-- Every connection has been accepted. -/
theorem Quiet.accepted (hS : S.Fits) (h : Inv S w) (hquiet : w.Quiet S) :
    w.server.fresh = S.threads := by
  by_contra hne
  have hmore : w.server.fresh < S.threads := Nat.lt_of_le_of_ne h.accepted hne
  have hnone := hquiet.server (a := .accept) rfl rfl (if_pos hmore)
  have hacc := (hquiet.resting hS h).accepting
  simp only [Machine.step, h.alive, if_true, Machine.handleAccept, hacc] at hnone
  cases hnone

/-- A session whose thread rests is read from, unless its stream has ended. -/
theorem Quiet.reads (hS : S.Fits) (h : Inv S w) (hquiet : w.Quiet S) (hlt : uuid < S.threads)
    (hopen : w.hungUp uuid = false) : (w.server.conns uuid).reads = 1 := by
  have hlistens := h.listens uuid (by rw [hquiet.accepted hS h]; exact hlt) hopen
  have hidle := (Threads.free_idle ((hquiet.resting hS h).free (ioService S.size uuid))).1
  rcases hlistens with hone | hpos
  · exact hone
  · rw [Machine.pos_of_idle (by rw [hidle]; rfl)] at hpos
    cases hpos

/-- Everything that was written has been received. -/
theorem Quiet.received (hS : S.Fits) (h : Inv S w) (hquiet : w.Quiet S) (hlt : uuid < S.threads) :
    w.toServer uuid = [] := by
  by_contra hne
  have hopen : w.hungUp uuid = false := by
    cases hhung : w.hungUp uuid with
    | false => rfl
    | true => exact absurd (h.hungUp uuid hhung).2 hne
  have hnone := hquiet.server (a := .deliver uuid 1) rfl rfl rfl
  have hreads : (w.server.conns uuid).reads ≠ 0 := by
    rw [hquiet.reads hS h hlt hopen]
    exact Nat.one_ne_zero
  have htake : (w.toServer uuid).take 1 ≠ [] := by
    obtain ⟨b, rest, hb⟩ := List.exists_cons_of_ne_nil hne
    rw [hb]
    exact List.cons_ne_nil _ _
  have hlen : ((w.toServer uuid).take 1).length ≤ maxLength :=
    Nat.le_trans (List.length_take_le ..) (by decide)
  have hfree := (hquiet.resting hS h).free (ioService S.size uuid)
  have hready := And.intro hfree (And.intro hreads (And.intro htake hlen))
  simp only [Machine.step, h.alive, if_true, Machine.handleRead, if_pos hready] at hnone
  cases hnone

/-- Everything that was asked for is on the wire. -/
theorem Quiet.wired (hS : S.Fits) (h : Inv S w) (hquiet : w.Quiet S) (hlt : uuid < S.threads) :
    onWire (w.server.conns uuid) =
      replyStream (answers S.callback (S.request uuid) (w.clients uuid).asked) := by
  have hrest := hquiet.resting hS h
  have hfree := hrest.free (ioService S.size uuid)
  -- everything has been sent
  have hsends : (w.server.conns uuid).sends =
      answers S.callback (S.request uuid) (w.clients uuid).asked := by
    have hasked := h.asked uuid
    rw [hquiet.received hS h hlt, List.append_nil] at hasked
    rw [hrest.sends (Machine.reachable_data h.server (h.received.legal hS).unbroken) uuid,
      Machine.framed, hasked, parse_requests hS, List.filter_eq_self.mpr]
    · rfl
    · intro msg hmsg
      obtain ⟨j, rfl⟩ := messages_mem hmsg
      rfl
  -- and written
  have hwrites : (w.server.conns uuid).sendQueue.writes = [] := by
    by_contra hne
    obtain ⟨q, rest, hq⟩ := List.exists_cons_of_ne_nil hne
    have hnone := hquiet.server (a := .written uuid 0) rfl rfl rfl
    have hget : (w.server.conns uuid).sendQueue.writes[0]? = some q := by rw [hq]; rfl
    simp only [Machine.step, h.alive, if_true, Machine.handleWrite, hget, hfree,
      Bool.false_eq_true, if_false] at hnone
    cases hnone
  have hfifo := (Machine.reachable_writes h.server uuid).fifo
  have hidle := (Threads.free_idle hfree).1
  have hnothing : (w.server.inFlight S.size uuid).writes = [] := by
    show (w.server.completing S.size uuid).toList ++ (w.server.conns uuid).sendQueue.writes = []
    rw [hwrites, Machine.completing, hidle]
    rfl
  have hempty : (w.server.conns uuid).sendQueue.sendQue = [] := by
    by_contra hne
    exact (hfifo.toInv.writes_ne_nil_iff (h.isOpen uuid)).mpr hne hnothing
  have hstarted : (w.server.conns uuid).sendQueue.started =
      (w.server.conns uuid).sendQueue.accepted := by
    have hwire : (w.server.conns uuid).sendQueue.started =
        (w.server.conns uuid).sendQueue.written ++
          (w.server.conns uuid).sendQueue.sendQue.head?.toList := hfifo.wire
    have hqueued : (w.server.conns uuid).sendQueue.accepted =
        (w.server.conns uuid).sendQueue.written ++
          (w.server.conns uuid).sendQueue.sendQue := hfifo.queued
    rw [hwire, hqueued, hempty]
    rfl
  obtain ⟨rs, hrs, hlen, hwire⟩ := h.wire hS uuid
  rw [hstarted, ← (h.builds uuid).length_eq] at hlen
  rw [hwire, hrs.eq_of_length hlen, hsends]

/-- **Where nothing is possible, everybody is done.** -/
theorem Quiet.done (hS : S.Fits) (h : Inv S w) (hquiet : w.Quiet S) : w.Done S := by
  intro uuid hlt
  have hwired := hquiet.wired hS h hlt
  -- all of it has arrived
  have harrived : w.arrived uuid = (onWire (w.server.conns uuid)).length := by
    by_contra hne
    have hle := h.arrived uuid
    have hnone := hquiet (.arrive uuid (onWire (w.server.conns uuid)).length) rfl
    have hmore : ((onWire (w.server.conns uuid)).drop (w.arrived uuid)).take
        (onWire (w.server.conns uuid)).length ≠ [] := by
      intro hnil
      have hlen := congrArg List.length hnil
      rw [List.length_take, List.length_drop, List.length_nil] at hlen
      omega
    simp only [step, arrive, if_pos hmore] at hnone
    cases hnone
  have hfollows := h.follows uuid
  have hreturned : (w.clients uuid).pos = .returned := by
    by_contra hout
    have hsome : ((w.clients uuid).step S.turns (S.request uuid) S.parse).isSome = true :=
      hfollows.step_isSome (hS.requests uuid) (hS.replies uuid)
      (by rw [harrived, List.take_length, hwired]) hout
    have hnone := hquiet (.client uuid) rfl
    simp only [step, clientStep, if_pos hlt, Option.map_eq_none_iff] at hnone
    rw [hnone] at hsome
    cases hsome
  have hplaced := hfollows.placed
  rw [hreturned] at hplaced
  refine ⟨hreturned, by rw [hfollows.replies, show (w.clients uuid).i = S.turns from hplaced], ?_⟩
  -- the server has read the end of the stream
  by_contra hopen
  have hopen : w.hungUp uuid = false := Bool.eq_false_iff.mpr hopen
  have hnone := hquiet.server (a := .hangUp uuid) rfl rfl
    (if_pos ⟨hreturned, hquiet.received hS h hlt, hopen⟩)
  have hreads : (w.server.conns uuid).reads ≠ 0 := by
    rw [hquiet.reads hS h hlt hopen]
    exact Nat.one_ne_zero
  have hready := And.intro ((hquiet.resting hS h).free (ioService S.size uuid)) hreads
  simp only [Machine.step, h.alive, if_true, Machine.handleReadError, if_pos hready] at hnone
  cases hnone

/-- **The benchmark completes**, when no connection fails and the pool is not empty. From any point
of any run it can be brought to its end; no run goes on for more steps than the load there was, and
nine for every wakeup without a notification; and where a run has come to a stop, every thread of
the client has returned with the answers to all its requests, in order, and the server has seen the
end of every stream. -/
theorem completes (hS : S.Fits) (h : (system S).Reachable w) :
    (∃ as w', (∀ a ∈ as, a.internal = true) ∧ (system S).run w as = some w' ∧ w'.Done S) ∧
    ∀ as w', (system S).run w as = some w' →
      as.countP Act.internal ≤ w.load S + 9 * as.countP (!Act.internal ·) ∧
        (w'.Quiet S → w'.Done S) := by
  constructor
  · obtain ⟨as, w', has, hrun, _, hquiet⟩ :=
      (potential hS).exists_quiet (fun _ _ _ => trivial) h trivial
    exact ⟨as, w', has, hrun, Quiet.done hS (reachable_inv hS (h.run hrun)) hquiet⟩
  · intro as w' hrun
    have hle := (potential hS).run_le (c := 9) h hrun trivial
      fun a _ => by cases a <;> first | exact Nat.zero_le _ | exact Nat.le_refl _
    exact ⟨Nat.le_trans (Nat.le_add_left ..) hle,
      Quiet.done hS (reachable_inv hS (h.run hrun))⟩

/-- The two connections above, from where the first has its first reply. -/
theorem completes_firstTurn : ∃ w, (system echoSetup).run init firstTurn = some w ∧
    ∃ as w', (system echoSetup).run w as = some w' ∧
      ∀ uuid < 2, (w'.clients uuid).replies =
        (answers echoSetup.callback (echoSetup.request uuid) 2).map kept := by
  have hrun : ((system echoSetup).run init firstTurn).isSome = true := by decide +kernel
  obtain ⟨w, hw⟩ := Option.isSome_iff_exists.mp hrun
  obtain ⟨⟨as, w', _, has, hdone⟩, _⟩ := completes echoSetup_fits (.of_run hw)
  exact ⟨w, hw, as, w', has, fun uuid hlt => (hdone uuid hlt).2.1⟩

end Benchmark
end AsyncEchoServer
