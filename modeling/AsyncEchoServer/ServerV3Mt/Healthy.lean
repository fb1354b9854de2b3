import AsyncEchoServer.ServerV3Mt.Quiet

/-!
# `ServerV3Mt/Healthy.lean` — the server in front of clients that behave

On streams whose headers are all within the limits (`Legal`) no pass ends a session: a `HandleRead`
that has come to the end of its chunk has armed the next read (`step_listens`). As long as the
replies fit into a frame, nothing ends the process either (`step_alive`).

What a step does to the send half of a session is `SendSpec`. A queue that is never full drops
nothing, and then the accepted nodes are those of the replies, one for one (`SendSpec.builds`).
-/

set_option autoImplicit false

namespace AsyncEchoServer
namespace SendQueue

variable {ν : Type} {q q' : SendQueue ν}

/-- Writes are started, and none completes. -/
structure Starts (q q' : SendQueue ν) : Prop where
  begun : ∃ ws, q'.started = q.started ++ ws ∧ q'.writes = q.writes ++ ws
  failed : q'.failed = q.failed

theorem Starts.of_same (hstarted : q'.started = q.started) (hwrites : q'.writes = q.writes)
    (hfailed : q'.failed = q.failed) : Starts q q' :=
  ⟨⟨[], by rw [hstarted, List.append_nil], by rw [hwrites, List.append_nil]⟩, hfailed⟩

theorem send_starts {node : Except Fault ν} {x : Exit} (h : q.send node = some (x, q')) :
    Starts q q' := by
  obtain ⟨rfl, _⟩ | ⟨n, _, _, _, ⟨_, rfl⟩ | ⟨_, rfl⟩⟩ := send_cases h
  · exact .of_same rfl rfl rfl
  · exact .of_same rfl rfl rfl
  · exact ⟨⟨_, rfl, rfl⟩, rfl⟩

theorem handleWrite_starts {w : Queued ν} {es : List Effect}
    (h : q.handleWrite w false = some (es, q')) : Starts q q' ∧ q'.accepted = q.accepted := by
  unfold handleWrite at h
  rw [if_neg Bool.false_ne_true] at h
  split at h
  · cases h
  · rename_i front rest hque
    cases rest with
    | nil =>
      cases h
      exact ⟨.of_same rfl rfl rfl, rfl⟩
    | cons next rest =>
      cases h
      exact ⟨⟨⟨_, rfl, rfl⟩, rfl⟩, rfl⟩

end SendQueue

namespace ServerV3Mt

open ServerV3 (Conn NodeRef ref findCallBack nodesOf sendString Stage)

variable {heap : Heap Short} {c c' : Conn} {nodes : List Nat} {uuid : Nat}

/-! ## Reading -/

/-- A pass on a stream within the limits goes round again, or arms the next read. -/
theorem Own.settles {data r : Bytes} {copyLen : Int} {n : Nat} {turn : Turn Short}
    (h : Own heap c (some (data, copyLen, n)) nodes) (hlegal : (ref.parse c.received).tail = .pending r)
    (hturn : loopBody receiver data
      { heap := heap, session := c.session, copyLen := copyLen, bytesTransferred := n } = turn) :
    c.reads = 0 ∧ cleared turn.1 = 0 ∧
      ((∃ l, turn.2 = .again l) ∨ armed turn.1 = 1 ∧ ∃ l, turn.2 = .leave (l, .returned)) := by
  obtain ⟨done, _, hstage⟩ := h.parsed
  cases hstage with
  | reading parse coupled remains more reads =>
    have hspec := loopBody_spec ServerV3.receiver_reads coupled remains
    rw [show loopBody ServerV3.receiver data _ = _ from hturn] at hspec
    rw [parse] at hlegal
    cases hspec with
    | wait next del arm clr => exact ⟨reads, clr, Or.inr ⟨arm, _, rfl⟩⟩
    | last next del msg full arm clr => exact ⟨reads, clr, Or.inr ⟨arm, _, rfl⟩⟩
    | more next ne del msg full arm clr => exact ⟨reads, clr, Or.inl ⟨_, rfl⟩⟩
    | reject next =>
      rw [Lib.Format.parse_rejected next] at hlegal
      cases hlegal
    | broken next =>
      rw [Lib.Format.parse_broken next] at hlegal
      cases hlegal

namespace Machine

variable {size i : Nat} {f : Short × Bytes → Bytes × Short} {m m' : Machine} {a : Act}

/-- All headers that have been received are within the limits. -/
def Legal (m : Machine) : Prop := ∀ s, ∃ r, (ref.parse (m.conns s).received).tail = .pending r

theorem Legal.unbroken (h : m.Legal) : m.Unbroken := by
  intro s
  obtain ⟨r, hr⟩ := h s
  rw [hr]
  nofun

/-- A read of the session is outstanding, or its `HandleRead` is running. -/
def Listens (size : Nat) (m : Machine) (uuid : Nat) : Prop :=
  (m.conns uuid).reads = 1 ∨ (m.pos size uuid).isSome = true

theorem Listens.of_same (h : Listens size m uuid)
    (hreads : (m'.conns uuid).reads = (m.conns uuid).reads)
    (hpos : m'.pos size uuid = m.pos size uuid) : Listens size m' uuid := by
  unfold Listens
  rwa [hreads, hpos]

/-- `Start()` begins to read. -/
theorem accepted_listens (hhome : m.AtHome size) : Listens size m.accepted m.fresh := by
  refine Or.inl ?_
  show (Function.update m.conns m.fresh _ m.fresh).reads = 1
  rw [Function.update_self, hhome.untouched m.fresh (Nat.le_refl _)]
  rfl

/-- A pass of the session's own `HandleRead`. -/
theorem listens_turn {n : Nat} {data : Bytes} {copyLen : Int} {turn : Turn Short}
    {logic : LogicSystem NodeRef CallBackArgs} (hr : m.Receives size) (hlegal : m.Legal)
    (hpos : m.pool (ioService size uuid) = .inHandleRead uuid data copyLen n)
    (hturn : loopBody receiver data (m.loopAt uuid copyLen n) = turn) :
    Listens size (m.afterTurn (ioService size uuid) uuid data turn logic) uuid := by
  have hown := hr.own uuid
  rw [pos, hpos, show (PoolPos.inHandleRead uuid data copyLen n).net.at uuid =
    some (data, copyLen, n) from ServerV3.NetPos.at_self ..] at hown
  obtain ⟨r, hr⟩ := hlegal uuid
  obtain ⟨hreads, _, ⟨l, hagain⟩ | ⟨harm, _⟩⟩ := hown.settles hr hturn
  · refine Or.inr ?_
    rw [show (m.afterTurn (ioService size uuid) uuid data turn logic).pos size uuid =
      (nextPos uuid data turn).net.at uuid from
        pos_moveTo (m := m.setConn uuid (connAfter (m.conns uuid) turn))]
    unfold nextPos
    rw [hagain]
    show ((PoolPos.inHandleRead uuid data l.copyLen l.bytesTransferred).net.at uuid).isSome = true
    rw [show (PoolPos.inHandleRead uuid data l.copyLen l.bytesTransferred).net.at uuid =
      some (data, l.copyLen, l.bytesTransferred) from ServerV3.NetPos.at_self ..]
    rfl
  · refine Or.inl ?_
    show (Function.update m.conns uuid (connAfter (m.conns uuid) turn) uuid).reads = 1
    rw [Function.update_self]
    show (m.conns uuid).reads + armed turn.1 = 1
    rw [hreads, harm]

/-- **A session that is read from stays so**, until its own read fails. -/
theorem step_listens (h : Listens size m uuid) (hr : m.Receives size) (hhome : m.AtHome size)
    (hlegal : m.Legal) (ha : a ≠ .handleReadError uuid) (hstep : m.step size f a = some m') :
    Listens size m' uuid := by
  obtain ⟨hspec, _⟩ := step_cases hstep
  -- a handler of another session begins or moves on
  have hother : ∀ {u i : Nat} {p : PoolPos} {c' : Conn}, uuid ≠ u →
      ((m.pool i).session = some u ∨ m.pool i = .idle) → (p.session = some u ∨ p = .idle) →
      Listens size ((m.setConn u c').moveTo i p) uuid := by
    intro u i p c' hne hfrom hto
    refine h.of_same ?_ (pos_other (m := m.setConn u c') hfrom hto hne)
    exact congrArg Conn.reads (Function.update_of_ne hne ..)
  have hmove : ∀ {i : Nat} {p : PoolPos}, (m.pool i).net = .idle → p.net = .idle →
      (m.moveTo i p).pos size uuid = m.pos size uuid := fun h hp => pos_outside h hp
  have hreads : ∀ {u : Nat} {c' : Conn}, c'.reads = (m.conns u).reads →
      (Function.update m.conns u c' uuid).reads = (m.conns uuid).reads :=
    fun h => field_update Conn.reads h uuid
  cases hspec with
  | accept pos =>
    by_cases hs : uuid = m.fresh
    · subst hs
      exact accepted_listens hhome
    · exact h.of_same (congrArg Conn.reads (Function.update_of_ne hs ..)) rfl
  | @read u chunk free listens ne le =>
    by_cases hs : uuid = u
    · subst hs
      refine Or.inr ?_
      rw [pos_moveTo, show (PoolPos.inHandleRead uuid (readBuffer chunk) 0 chunk.length).net.at uuid =
        some (readBuffer chunk, 0, chunk.length) from ServerV3.NetPos.at_self ..]
      rfl
    · exact hother hs (Or.inr (Threads.free_idle free).1) (Or.inl rfl)
  | @readError u free listens =>
    have hs : uuid ≠ u := fun heq => ha (by rw [heq])
    exact hother hs (Or.inr (Threads.free_idle free).1) (Or.inl rfl)
  | @writeError u j w es q free found done =>
    have hidle := (Threads.free_idle free).1
    refine h.of_same (hreads rfl) ?_
    exact pos_outside (m := m.setConn u _) (by show (m.pool _).net = _; rw [hidle]; rfl) rfl
  | @write u j w free found =>
    have hidle := (Threads.free_idle free).1
    refine h.of_same (hreads rfl) ?_
    exact pos_outside (m := m.setConn u _) (by show (m.pool _).net = _; rw [hidle]; rfl) rfl
  | @turn i u n data copyLen turn logic pos idle left body posted =>
    obtain ⟨rfl, _⟩ := hhome.handlers i u (by rw [pos]; rfl)
    by_cases hs : uuid = u
    · subst hs
      exact listens_turn hr hlegal pos body
    · have hmoved : Listens size ((m.setConn u (connAfter (m.conns u) turn)).moveTo _ _) uuid :=
        hother hs (Or.inl (by show (m.pool _).session = _; rw [pos]; rfl))
          (nextPos_session u data turn)
      exact hmoved.of_same rfl rfl
  | @passEnd i u data copyLen pos idle =>
    obtain ⟨rfl, _⟩ := hhome.handlers i u (by rw [pos]; rfl)
    have hown := hr.own u
    rw [Machine.pos, pos, show (PoolPos.inHandleRead u data copyLen 0).net.at u =
      some (data, copyLen, 0) from ServerV3.NetPos.at_self ..] at hown
    exact absurd hown.bytes_left (Nat.lt_irrefl 0)
  | clearLock pos | clearErase pos | clearUnlock pos | writeLock pos | writeUnlock pos =>
    exact h.of_same rfl (hmove (by rw [pos]; rfl) rfl)
  | @written i u w es q pos idle done =>
    refine h.of_same (hreads rfl) ?_
    exact pos_outside (m := m.setConn u _) (by show (m.pool _).net = _; rw [pos]; rfl) rfl
  | send => exact h.of_same (hreads rfl) rfl
  | acceptError | acceptLock | acceptInsert | acceptUnlock | writeFailed | sendLock | sendFailed |
    sendUnlock | callbackReturn | queue => exact h.of_same rfl rfl

/-! ## The process -/

/-- The replies to everything that was framed can be sent. -/
def Sendable (f : Short × Bytes → Bytes × Short) (m : Machine) : Prop :=
  ∀ s, ∀ msg ∈ m.framed s, (f msg).1.length ≤ 32763

/-- **Nothing ends the process.** -/
theorem step_alive (h : (system size f).Reachable m) (hlegal : m.Legal) (hsend : m.Sendable f)
    (hstep : m.step size f a = some m') : m'.fate = .alive := by
  by_contra hdead
  obtain ⟨s, msg, hmem, _, hdeadly⟩ := step_deadly h hlegal.unbroken hstep hdead
  have hle := hsend s msg hmem
  unfold Deadly at hdeadly
  omega

/-! ## What comes in -/

/-- The bytes that an action brings the session. -/
def Act.chunkOf (uuid : Nat) : Act → Bytes
  | .handleRead u chunk => if uuid = u then chunk else []
  | _ => []

theorem step_received_eq (hstep : m.step size f a = some m') (s : Nat) :
    (m'.conns s).received = (m.conns s).received ++ a.chunkOf s := by
  obtain ⟨hspec, _⟩ := step_cases hstep
  have hsame : ∀ {u : Nat} {c' : Conn}, c'.received = (m.conns u).received →
      (Function.update m.conns u c' s).received = (m.conns s).received ++ [] := fun h => by
    rw [field_update Conn.received h s, List.append_nil]
  cases hspec with
  | @read u chunk =>
    show (Function.update m.conns u _ s).received = _ ++ if s = u then chunk else []
    by_cases hs : s = u
    · subst hs
      rw [Function.update_self, if_pos rfl]
    · rw [Function.update_of_ne hs, if_neg hs, List.append_nil]
  | accept | readError | writeError | write | turn | written | send => exact hsame rfl
  | queue act => cases act <;> exact (List.append_nil _).symm
  | acceptError | acceptLock | acceptInsert | acceptUnlock | passEnd | clearLock | clearErase |
    clearUnlock | writeLock | writeFailed | writeUnlock | sendLock | sendFailed | sendUnlock |
    callbackReturn => exact (List.append_nil _).symm

theorem step_fresh (hstep : m.step size f a = some m') :
    (m'.fresh = m.fresh ∧ ∀ error, a ≠ .handleAccept error) ∨
      (m'.fresh = m.fresh + 1 ∧ ∃ error, a = .handleAccept error) := by
  obtain ⟨hspec, _⟩ := step_cases hstep
  cases hspec with
  | accept | acceptError => exact Or.inr ⟨rfl, _, rfl⟩
  | queue act => exact Or.inl ⟨rfl, fun error heq => by subst heq; cases act⟩
  | acceptLock | acceptInsert | acceptUnlock | read | readError | writeError | write | turn |
    passEnd | clearLock | clearErase | clearUnlock | writeLock | written | writeFailed |
    writeUnlock | sendLock | send | sendFailed | sendUnlock | callbackReturn =>
    exact Or.inl ⟨rfl, nofun⟩

/-- The singleton lives until it is destroyed. -/
theorem step_destructor (ha : a ≠ .destructor) (hstep : m.step size f a = some m') :
    m'.logic.destructor = m.logic.destructor := by
  by_cases hint : a.internal = true
  · exact (internal_frame hint hstep).2
  · obtain ⟨hspec, _⟩ := step_cases hstep
    cases hspec with
    | accept | acceptError | read | readError | writeError | write => rfl
    | queue act step =>
      cases act with
      | spurious => exact (LogicSystem.step_aside step nofun nofun).dtor
      | destructor => exact absurd rfl ha
      | producer | worker => exact absurd rfl hint
    | acceptLock | acceptInsert | acceptUnlock | turn | passEnd | clearLock | clearErase |
      clearUnlock | writeLock | written | writeFailed | writeUnlock | sendLock | send | sendFailed |
      sendUnlock | callbackReturn => exact absurd rfl hint

/-! ## Sending -/

/-- What a step does to the send half of a session. -/
inductive SendSpec (f : Short × Bytes → Bytes × Short) (uuid : Nat) (c c' : Conn) : Act → Prop where
  | same {a : Act} (queue : c'.sendQueue = c.sendQueue) (sends : c'.sends = c.sends) :
      SendSpec f uuid c c' a
  | closed (queue : c'.sendQueue = { c.sendQueue with bClose := true })
      (sends : c'.sends = c.sends) : SendSpec f uuid c c' (.handleReadError uuid)
  | failed {j : Nat} : SendSpec f uuid c c' (.handleWrite uuid j true)
  | completed {j : Nat} {w : Queued SendNode} (found : c.sendQueue.writes[j]? = some w)
      (queue : c'.sendQueue = { c.sendQueue with writes := c.sendQueue.writes.eraseIdx j })
      (sends : c'.sends = c.sends) : SendSpec f uuid c c' (.handleWrite uuid j false)
  | popped {i : Nat} {w : Queued SendNode} {es : List Effect}
      (done : c.sendQueue.handleWrite w false = some (es, c'.sendQueue))
      (sends : c'.sends = c.sends) : SendSpec f uuid c c' (.pool i)
  | sent {msg : Short × Bytes}
      (sent : sendString (f msg).1 (f msg).2 c.sendQueue = some (.returned, c'.sendQueue))
      (sends : c'.sends = c.sends ++ [f msg]) : SendSpec f uuid c c' .worker

theorem step_sendSpec (hstep : m.step size f a = some m') (s : Nat) :
    SendSpec f s (m.conns s) (m'.conns s) a := by
  obtain ⟨hspec, _⟩ := step_cases hstep
  -- the session itself, or another
  have hcase : ∀ {u : Nat} {c' : Conn} {b : Act}, m'.conns = Function.update m.conns u c' →
      SendSpec f u (m.conns u) c' b → SendSpec f s (m.conns s) (m'.conns s) b := by
    intro u c' b hconns hself
    by_cases hs : s = u
    · subst hs
      rw [hconns, Function.update_self]
      exact hself
    · rw [hconns, Function.update_of_ne hs]
      exact .same rfl rfl
  cases hspec with
  | accept => exact hcase rfl (.same rfl rfl)
  | read => exact hcase rfl (.same rfl rfl)
  | readError => exact hcase rfl (.closed rfl rfl)
  | writeError => exact hcase rfl .failed
  | write free found => exact hcase rfl (.completed found rfl rfl)
  | turn => exact hcase rfl (.same rfl rfl)
  | written pos idle done => exact hcase rfl (.popped done rfl)
  | send pos sender sent => exact hcase rfl (.sent sent rfl)
  | acceptError | acceptLock | acceptInsert | acceptUnlock | passEnd | clearLock | clearErase |
    clearUnlock | writeLock | writeFailed | writeUnlock | sendLock | sendFailed | sendUnlock |
    callbackReturn | queue => exact .same rfl rfl

/-- As long as no write of the session completes, what is started is in flight. -/
theorem SendSpec.starts (h : SendSpec f uuid c c' a) (ha : ∀ j error, a ≠ .handleWrite uuid j error) :
    SendQueue.Starts c.sendQueue c'.sendQueue := by
  cases h with
  | same queue => rw [queue]; exact .of_same rfl rfl rfl
  | closed queue => rw [queue]; exact .of_same rfl rfl rfl
  | popped done => exact (SendQueue.handleWrite_starts done).1
  | sent sent => exact SendQueue.send_starts sent
  | failed | completed => exact absurd rfl (ha _ _)

/-- No write fails by itself. -/
theorem SendSpec.isOpen (h : SendSpec f uuid c c' a) (ha : ∀ j, a ≠ .handleWrite uuid j true)
    (hopen : c.sendQueue.failed = false) : c'.sendQueue.failed = false := by
  cases h with
  | same queue | closed queue | completed found queue =>
    rw [queue]
    exact hopen
  | popped done => exact (SendQueue.handleWrite_starts done).1.failed.trans hopen
  | sent sent => exact (SendQueue.send_starts sent).failed.trans hopen
  | failed => exact absurd rfl (ha _)

/-- What is on the wire stays there. -/
theorem SendSpec.started_extends (h : SendSpec f uuid c c' a)
    (ha : ∀ j, a ≠ .handleWrite uuid j true) : c.sendQueue.started <+: c'.sendQueue.started := by
  have hstarts : SendQueue.Starts c.sendQueue c'.sendQueue →
      c.sendQueue.started <+: c'.sendQueue.started := fun hs => by
    obtain ⟨ws, hws, _⟩ := hs.begun
    exact ⟨ws, hws.symm⟩
  cases h with
  | same queue | closed queue | completed found queue => rw [queue]
  | popped done => exact hstarts (SendQueue.handleWrite_starts done).1
  | sent sent => exact hstarts (SendQueue.send_starts sent)
  | failed => exact absurd rfl (ha _)

/-- The node is the one that `SendNode` builds of the reply. -/
def Builds (r : Bytes × Short) (n : Queued SendNode) : Prop :=
  SendNode.make r.1 (toShort r.1.length) r.2 = .ok n.node

/-- **Nothing is dropped** by a queue with room. -/
theorem SendSpec.builds (h : SendSpec f uuid c c' a) (ha : ∀ j, a ≠ .handleWrite uuid j true)
    (hroom : c.sends.length < c'.sends.length → c.sendQueue.sendQue.length ≤ maxSendQueue)
    (hbuilds : List.Forall₂ Builds c.sends c.sendQueue.accepted) :
    List.Forall₂ Builds c'.sends c'.sendQueue.accepted := by
  cases h with
  | same queue sends | closed queue sends | completed found queue sends =>
    rw [queue, sends]
    exact hbuilds
  | popped done sends =>
    rw [(SendQueue.handleWrite_starts done).2, sends]
    exact hbuilds
  | sent sent sends =>
    have hlt : c.sends.length < c'.sends.length := by
      rw [sends, List.length_append]
      exact Nat.lt_succ_self _
    obtain ⟨_, hfull | hthrew⟩ | ⟨n, hn, _, _, hpush⟩ := SendQueue.send_cases sent
    · exact absurd hfull (Nat.not_lt.mpr (hroom hlt))
    · cases hthrew
    · have hacc : c'.sendQueue.accepted =
          c.sendQueue.accepted ++ [⟨c.sendQueue.nextAddr, n⟩] := by
        rcases hpush with ⟨_, heq⟩ | ⟨_, heq⟩ <;> rw [heq] <;> rfl
      rw [sends, hacc]
      exact List.rel_append hbuilds (.cons hn .nil)
  | failed => exact absurd rfl (ha _)

end Machine
end ServerV3Mt
end AsyncEchoServer
