import AsyncEchoServer.ServerV3Mt.Receive

/-!
# `ServerV3Mt/Wire.lean` — the send queue between two threads

In the multi-thread server the worker's `Send` and the pool thread's `HandleWrite` work on one send
queue, each under the session's `_send_lock`. A write that completes is taken off asio's list at
once and off the queue only behind the lock, so in between there is a queue with a front node and
no write: a `Send` that gets in there must not start one. It does not, because the front node is
still in the queue. `inFlight` puts the completing write back, and with it every session's queue
keeps the protocol of `Session/SendQueue.lean`, step by step, in any interleaving.

`wire_protocol` says so, and what the wire then carries: the nodes `SendNode` builds of the replies,
in order and without gaps, unless the session was sent more than the queue holds.
-/

set_option autoImplicit false

namespace AsyncEchoServer

namespace SendQueue

variable {ν : Type}

/-- The protocol's invariant, and that what was accepted is written or queued. -/
structure Fifo (q : SendQueue ν) : Prop extends Inv q where
  queued : q.accepted = q.written ++ q.sendQue

theorem Fifo.fresh : Fifo (SendQueue.fresh : SendQueue ν) := ⟨Inv.fresh, rfl⟩

theorem Fifo.send {q q' : SendQueue ν} {node : Except Fault ν} {x : Exit} (h : Fifo q)
    (hsend : q.send node = some (x, q')) : Fifo q' := by
  refine ⟨h.toInv.send hsend, ?_⟩
  have hqueued := h.queued
  cases send_spec hsend with
  | unchanged => exact hqueued
  | accepted n room que acc wr failed => rw [acc, wr, que, hqueued, List.append_assoc]
  | written w isOpen que acc wr failed => rw [acc, wr, hqueued, que, List.append_cons]
  | failed isOpen que acc wr failed => rw [acc, wr, que, hqueued]

theorem Fifo.step {q q' : SendQueue ν} {i : Nat} {error : Bool} (h : Fifo q)
    (hstep : SendQueue.step q (.handleWrite i error) = some q') : Fifo q' := by
  obtain ⟨w, _, _, hinv, hacc, hdone⟩ := h.toInv.completed hstep
  refine ⟨hinv, ?_⟩
  cases error with
  | true =>
    obtain ⟨_, hque, hwr⟩ := hdone
    rw [hacc, hque, hwr, h.queued]
  | false =>
    obtain ⟨_, hque, hwr⟩ := hdone
    rw [hacc, hwr, h.queued, hque, List.append_cons]

theorem Fifo.started_accepted {q : SendQueue ν} (h : Fifo q) : q.started <+: q.accepted := by
  rw [h.wire, h.queued]
  refine (List.prefix_append_right_inj _).mpr ?_
  cases q.sendQue with
  | nil => exact List.nil_prefix
  | cons n rest => exact List.cons_prefix_cons.mpr ⟨rfl, List.nil_prefix⟩

/-- `Close()` is no part of it. -/
theorem Fifo.close {q : SendQueue ν} (h : Fifo q) (b : Bool) : Fifo { q with bClose := b } :=
  ⟨⟨h.flight, h.wire, h.stuck, h.addrs, h.distinct⟩, h.queued⟩

/-- Behind a front node `Send` starts no write, whatever is in flight. -/
theorem send_behind {q q' : SendQueue ν} {node : Except Fault ν} {x : Exit} (hne : q.sendQue ≠ [])
    (hsend : q.send node = some (x, q')) (ws : List (Queued ν)) :
    q'.writes = q.writes ∧
      { q with writes := ws }.send node = some (x, { q' with writes := ws }) := by
  have hpos : 0 < q.sendQue.length := List.length_pos_of_ne_nil hne
  unfold SendQueue.send at hsend ⊢
  dsimp only at hsend ⊢
  split at hsend
  · rename_i hfull
    cases hsend
    exact ⟨rfl, if_pos hfull⟩
  · rename_i hroom
    rw [if_neg hroom]
    match node, hsend with
    | .error .badArrayNewLength, hsend =>
      cases hsend
      exact ⟨rfl, rfl⟩
    | .ok n, hsend =>
      dsimp only at hsend ⊢
      rw [if_pos hpos]
      cases hsend
      exact ⟨rfl, rfl⟩

end SendQueue

namespace ServerV3Mt

open ServerV3 (Conn NodeRef sendString)

/-- The nodes are those `SendNode` builds of some of the replies, in their order; of all of them, as
long as no more were sent than the queue holds. -/
def Carries (replies : List (Bytes × Short)) (nodes : List (Queued SendNode)) : Prop :=
  ∃ kept, kept.Sublist replies ∧
    List.Forall₂ (fun r n => SendNode.make r.1 (toShort r.1.length) r.2 = .ok n.node) kept nodes ∧
    (replies.length ≤ maxSendQueue + 1 → kept = replies)

theorem Carries.nil : Carries [] [] := ⟨[], List.Sublist.refl _, .nil, fun _ => rfl⟩

/-- A reply is refused by a full queue, or its node is the next one. -/
theorem Carries.send {replies : List (Bytes × Short)} {q q' : SendQueue SendNode}
    (h : Carries replies q.accepted) (hfifo : q.accepted = q.written ++ q.sendQue)
    (r : Bytes × Short) (hsend : sendString r.1 r.2 q = some (.returned, q')) :
    Carries (replies ++ [r]) q'.accepted := by
  obtain ⟨kept, hsub, hbuilt, hall⟩ := h
  obtain ⟨rfl, hfull⟩ | ⟨n, hn, _, _, hpush⟩ := SendQueue.send_cases hsend
  · -- dropped: more has been sent than the queue holds
    have hfull : maxSendQueue < q'.sendQue.length := hfull.resolve_right nofun
    refine ⟨kept, hsub.trans (List.sublist_append_left _ _), hbuilt, fun hle => ?_⟩
    have hlen := hbuilt.length_eq
    rw [hfifo, List.length_append] at hlen
    have hkept := hsub.length_le
    rw [List.length_append, List.length_singleton] at hle
    omega
  · have hacc : q'.accepted = q.accepted ++ [⟨q.nextAddr, n⟩] := by
      rcases hpush with ⟨_, rfl⟩ | ⟨_, rfl⟩ <;> rfl
    refine ⟨kept ++ [r], hsub.append (List.Sublist.refl _), ?_, fun hle => ?_⟩
    · rw [hacc]
      exact List.rel_append hbuilt (.cons hn .nil)
    · rw [List.length_append, List.length_singleton] at hle
      rw [hall (Nat.le_of_succ_le hle)]

/-- The session's write that has completed and whose `HandleWrite` has not come to its pop. -/
def PoolPos.completing : PoolPos → Nat → Option (Queued SendNode)
  | .writing u w, uuid | .writeLocked u w, uuid => if u = uuid then some w else none
  | .idle, _ | .inHandleRead _ _ _ _, _ | .clearing _, _ | .clearLocked _, _ | .erased _, _
  | .written _, _ => none

namespace Machine

variable {size i uuid : Nat} {f : Short × Bytes → Bytes × Short} {m m' : Machine}

def completing (size : Nat) (m : Machine) (uuid : Nat) : Option (Queued SendNode) :=
  (m.pool (ioService size uuid)).completing uuid

/-- The session's send queue, with the completing write among those in flight. -/
def inFlight (size : Nat) (m : Machine) (uuid : Nat) : SendQueue SendNode :=
  { (m.conns uuid).sendQueue with
    writes := (m.completing size uuid).toList ++ (m.conns uuid).sendQueue.writes }

structure Writes (size : Nat) (m : Machine) (uuid : Nat) : Prop where
  fifo : (m.inFlight size uuid).Fifo
  carries : Carries (m.conns uuid).sends (m.conns uuid).sendQueue.accepted

theorem init_writes : Writes size init uuid := ⟨SendQueue.Fifo.fresh, Carries.nil⟩

theorem completing_session {p : PoolPos} {u s : Nat} (h : p.session = some u) (hs : s ≠ u) :
    p.completing s = none := by
  cases p with
  | writing u' w | writeLocked u' w =>
    cases h
    exact if_neg (Ne.symm hs)
  | idle | inHandleRead | clearing | clearLocked | erased | written => rfl

/-- A thread that works on another session completes no write of this one. -/
theorem completing_other {p : PoolPos} {u s : Nat}
    (h : (m.pool i).session = some u ∨ m.pool i = .idle) (hp : p.session = some u ∨ p = .idle)
    (hs : s ≠ u) : (m.moveTo i p).completing size s = m.completing size s := by
  have hnone : ∀ p : PoolPos, p.session = some u ∨ p = .idle → p.completing s = none := by
    rintro p (hp | rfl)
    · exact completing_session hp hs
    · rfl
  by_cases hi : ioService size s = i
  · subst hi
    rw [completing, show (m.moveTo (ioService size s) p).pool (ioService size s) = p from
      Function.update_self .., hnone p hp, completing, hnone _ h]
  · rw [completing, show (m.moveTo i p).pool (ioService size s) = m.pool (ioService size s) from
      Function.update_of_ne hi .., completing]

theorem completing_moveTo {p : PoolPos} :
    (m.moveTo (ioService size uuid) p).completing size uuid = p.completing uuid := by
  rw [completing, show (m.moveTo (ioService size uuid) p).pool (ioService size uuid) = p from
    Function.update_self ..]

/-- The sessions a step does not concern. -/
theorem Writes.of_same (h : Writes size m uuid)
    (hqueue : (m'.conns uuid).sendQueue = (m.conns uuid).sendQueue)
    (hsends : (m'.conns uuid).sends = (m.conns uuid).sends)
    (hcompl : m'.completing size uuid = m.completing size uuid) : Writes size m' uuid where
  fifo := by
    rw [inFlight, hqueue, hcompl]
    exact h.fifo
  carries := by
    rw [hqueue, hsends]
    exact h.carries

/-- A thread that completes the same writes at its new position. -/
theorem completing_move {p : PoolPos} (hpos : ∀ s, (m.pool i).completing s = p.completing s)
    (hpool : m'.pool = (m.moveTo i p).pool) : m'.completing size uuid = m.completing size uuid := by
  rw [completing, completing, hpool]
  by_cases hi : ioService size uuid = i
  · subst hi
    rw [show (m.moveTo (ioService size uuid) p).pool (ioService size uuid) = p from
      Function.update_self .., hpos]
  · rw [show (m.moveTo i p).pool (ioService size uuid) = m.pool (ioService size uuid) from
      Function.update_of_ne hi ..]

/-- … so its move is none of the queue's business. -/
theorem Writes.move {p : PoolPos} (h : Writes size m uuid)
    (hpos : ∀ s, (m.pool i).completing s = p.completing s)
    (hqueue : (m'.conns uuid).sendQueue = (m.conns uuid).sendQueue)
    (hsends : (m'.conns uuid).sends = (m.conns uuid).sends)
    (hpool : m'.pool = (m.moveTo i p).pool) : Writes size m' uuid :=
  h.of_same hqueue hsends (completing_move hpos hpool)

/-- A write completes while its thread is free. -/
theorem Writes.found {j : Nat} {w : Queued SendNode} (h : Writes size m uuid)
    (hpool : m.pool (ioService size uuid) = .idle)
    (hw : (m.conns uuid).sendQueue.writes[j]? = some w) :
    (m.conns uuid).sendQueue.Fifo ∧ j = 0 ∧ (m.conns uuid).sendQueue.writes = [w] := by
  have hfifo : (m.conns uuid).sendQueue.Fifo := by
    have hfifo := h.fifo
    rwa [inFlight, completing, hpool] at hfifo
  obtain ⟨_, hj, hone, _⟩ := hfifo.toInv.handleWrite_cases hw
  exact ⟨hfifo, hj, hone⟩

/-- The completing write is the only one in flight, and the front node's. -/
theorem Writes.completing {w : Queued SendNode} (h : Writes size m uuid)
    (hc : m.completing size uuid = some w) :
    (m.conns uuid).sendQueue.writes = [] ∧ (m.conns uuid).sendQueue.failed = false ∧
      ∃ rest, (m.conns uuid).sendQueue.sendQue = w :: rest := by
  have hw : (m.inFlight size uuid).writes[0]? = some w := by
    rw [inFlight, hc]
    rfl
  obtain ⟨hopen, _, hone, hque⟩ := h.fifo.toInv.handleWrite_cases hw
  refine ⟨?_, hopen, hque⟩
  rw [inFlight, hc] at hone
  exact (List.cons.inj hone).2

/-- So its handler finds a node to pop. -/
theorem Writes.pops {w : Queued SendNode} (h : Writes size m uuid)
    (hc : m.completing size uuid = some w) :
    ∃ es q, (m.conns uuid).sendQueue.handleWrite w false = some (es, q) := by
  obtain ⟨_, _, rest, hque⟩ := h.completing hc
  unfold SendQueue.handleWrite
  rw [if_neg Bool.false_ne_true, hque]
  dsimp only
  cases rest with
  | nil => exact ⟨_, _, rfl⟩
  | cons next rest => exact ⟨_, _, rfl⟩

/-- The pop at the end of `HandleWrite`: with the completing write put back, it is a completion. -/
theorem pop_inFlight {w : Queued SendNode} {es : List Effect} {q : SendQueue SendNode}
    (hc : m.completing size uuid = some w)
    (hdone : (m.conns uuid).sendQueue.handleWrite w false = some (es, q)) :
    (m.inFlight size uuid).step (.handleWrite 0 false) = some q := by
  simp only [SendQueue.step, inFlight, hc, Option.toList_some, List.cons_append,
    List.nil_append, List.getElem?_cons_zero, List.eraseIdx_zero, List.tail_cons]
  show ((m.conns uuid).sendQueue.handleWrite w false).map Prod.snd = some q
  rw [hdone]
  rfl

theorem Writes.written {w : Queued SendNode} {es : List Effect} {q : SendQueue SendNode}
    (h : Writes size m uuid) (hc : m.completing size uuid = some w)
    (hdone : (m.conns uuid).sendQueue.handleWrite w false = some (es, q)) :
    q.Fifo ∧ Carries (m.conns uuid).sends q.accepted := by
  have hstep := pop_inFlight hc hdone
  obtain ⟨_, _, _, _, hacc, _⟩ := h.fifo.toInv.completed hstep
  refine ⟨h.fifo.step hstep, ?_⟩
  rw [hacc]
  exact h.carries

/-- The worker's `Send`, which may come between a completion and its pop: to the queue with the
completing write put back it is a `Send` as well. -/
theorem Writes.send_inFlight {node : Except Fault SendNode} {x : Exit} {q : SendQueue SendNode}
    (h : Writes size m uuid) (hsend : (m.conns uuid).sendQueue.send node = some (x, q)) :
    (m.inFlight size uuid).send node =
      some (x, { q with writes := (m.completing size uuid).toList ++ q.writes }) := by
  rw [inFlight]
  cases hc : m.completing size uuid with
  | none => exact hsend
  | some w =>
    obtain ⟨hnone, _, rest, hque⟩ := h.completing hc
    have hne : (m.conns uuid).sendQueue.sendQue ≠ [] := by
      rw [hque]
      exact List.cons_ne_nil _ _
    obtain ⟨hsame, hbehind⟩ := SendQueue.send_behind hne hsend [w]
    rw [hsame, hnone, Option.toList_some, List.append_nil]
    exact hbehind

theorem Writes.send {r : Bytes × Short} {q : SendQueue SendNode} (h : Writes size m uuid)
    (hsend : sendString r.1 r.2 (m.conns uuid).sendQueue = some (.returned, q))
    (hqueue : (m'.conns uuid).sendQueue = q)
    (hsends : (m'.conns uuid).sends = (m.conns uuid).sends ++ [r])
    (hcompl : m'.completing size uuid = m.completing size uuid) : Writes size m' uuid where
  fifo := by
    rw [inFlight, hqueue, hcompl]
    exact h.fifo.send (h.send_inFlight hsend)
  carries := by
    rw [hqueue, hsends]
    exact h.carries.send h.fifo.queued r hsend

/-- A step of another session's handler, or of its reply. -/
theorem Writes.update {c' : Conn} {u : Nat} (h : Writes size m uuid) (hs : uuid ≠ u)
    (hconns : m'.conns = Function.update m.conns u c')
    (hcompl : m'.completing size uuid = m.completing size uuid) : Writes size m' uuid :=
  h.of_same (by rw [hconns, Function.update_of_ne hs]) (by rw [hconns, Function.update_of_ne hs])
    hcompl

/-- A handler of the session `u` begins, on its queue as `q`. -/
theorem Writes.begin {u : Nat} {c' : Conn} {p : PoolPos} (h : ∀ s, Writes size m s)
    (hpool : m.pool (ioService size u) = .idle) (hp : p.session = some u)
    (hsends : c'.sends = (m.conns u).sends)
    (hacc : c'.sendQueue.accepted = (m.conns u).sendQueue.accepted)
    (hfifo : { c'.sendQueue with
      writes := (p.completing u).toList ++ c'.sendQueue.writes }.Fifo) (s : Nat) :
    Writes size ((m.setConn u c').moveTo (ioService size u) p) s := by
  by_cases hs : s = u
  · subst hs
    have hconn : ((m.setConn s c').moveTo (ioService size s) p).conns s = c' :=
      Function.update_self ..
    refine ⟨?_, ?_⟩
    · rw [inFlight, hconn, completing_moveTo (m := m.setConn s c')]
      exact hfifo
    · rw [hconn, hsends, hacc]
      exact (h s).carries
  · exact (h s).update hs rfl (completing_other (m := m.setConn u c') (Or.inr hpool) (Or.inl hp) hs)

theorem step_writes {a : Act} (h : ∀ s, Writes size m s) (hhome : m.AtHome size)
    (hstep : m.step size f a = some m') (s : Nat) : Writes size m' s := by
  obtain ⟨hspec, _⟩ := step_cases hstep
  have hidle : ∀ {u : Nat}, m.pool (ioService size u) = .idle → (m.conns u).sendQueue.Fifo := by
    intro u hpool
    have hfifo := (h u).fifo
    rwa [inFlight, completing, hpool] at hfifo
  cases hspec with
  | accept pos =>
    have hqueue : ∀ s, (m.accepted.conns s).sendQueue = (m.conns s).sendQueue :=
      field_update Conn.sendQueue rfl
    have hsends : ∀ s, (m.accepted.conns s).sends = (m.conns s).sends :=
      field_update Conn.sends rfl
    exact (h s).of_same (hqueue s) (hsends s) rfl
  | acceptError | acceptLock | acceptInsert | acceptUnlock => exact (h s).of_same rfl rfl rfl
  | @read u chunk free listens ne le =>
    obtain ⟨hpool, _⟩ := Threads.free_idle free
    refine Writes.begin (p := .inHandleRead u (readBuffer chunk) 0 chunk.length) h hpool rfl ?_ ?_
      ?_ s
    · rfl
    · rfl
    · exact hidle hpool
  | @readError u free listens =>
    obtain ⟨hpool, _⟩ := Threads.free_idle free
    refine Writes.begin (p := .clearing u) h hpool rfl ?_ ?_ ?_ s
    · rfl
    · rfl
    · exact (hidle hpool).close true
  | @writeError u j w es q free found done =>
    obtain ⟨hpool, _⟩ := Threads.free_idle free
    have hstep : (m.conns u).sendQueue.step (.handleWrite j true) = some q := by
      simp only [SendQueue.step, found, done, Option.map_some]
    obtain ⟨_, _, _, _, hacc, _⟩ := (hidle hpool).toInv.completed hstep
    refine Writes.begin (p := .clearing u) h hpool rfl ?_ ?_ ?_ s
    · rfl
    · exact hacc
    · exact (hidle hpool).step hstep
  | @write u j w free found =>
    obtain ⟨hpool, _⟩ := Threads.free_idle free
    obtain ⟨hfifo, rfl, hone⟩ := (h u).found hpool found
    refine Writes.begin (p := .writing u w) h hpool rfl ?_ ?_ ?_ s
    · rfl
    · rfl
    · have hback : (PoolPos.writing u w).completing u = some w := if_pos rfl
      dsimp only
      rw [hback, hone, Option.toList_some, List.eraseIdx_zero, List.tail_cons, List.append_nil,
        ← hone]
      exact hfifo
  | @turn i u n data copyLen turn logic pos idle left body posted =>
    have hqueue : ∀ s, ((m.afterTurn i u data turn logic).conns s).sendQueue =
        (m.conns s).sendQueue := field_update Conn.sendQueue rfl
    have hsends : ∀ s, ((m.afterTurn i u data turn logic).conns s).sends = (m.conns s).sends :=
      field_update Conn.sends rfl
    refine (h s).move (i := i) (p := nextPos u data turn) (fun v => ?_) (hqueue s) (hsends s) rfl
    rw [pos]
    unfold nextPos
    split
    · rfl
    · split <;> rfl
  | passEnd pos idle =>
    exact (h s).move (fun v => by rw [pos]; rfl) rfl rfl rfl
  | clearLock pos idle free =>
    exact (h s).move (fun v => by rw [pos]; rfl) rfl rfl rfl
  | clearErase pos idle =>
    exact (h s).move (fun v => by rw [pos]; rfl) rfl rfl rfl
  | clearUnlock pos idle =>
    exact (h s).move (fun v => by rw [pos]; rfl) rfl rfl rfl
  | writeLock pos idle free =>
    exact (h s).move (fun v => by rw [pos]; rfl) rfl rfl rfl
  | @written i u w es q pos idle done =>
    obtain ⟨rfl, _⟩ := hhome.handlers i u (by rw [pos]; rfl)
    by_cases hs : s = u
    · subst hs
      have hc : m.completing size s = some w := by
        rw [completing, pos]
        exact if_pos rfl
      obtain ⟨hfifo, hcarries⟩ := (h s).written hc done
      have hconn : ((m.setConn s { m.conns s with sendQueue := q }).moveTo (ioService size s)
          (.written s)).conns s = { m.conns s with sendQueue := q } := Function.update_self ..
      refine ⟨?_, ?_⟩
      · rw [inFlight, hconn, completing_moveTo (m := m.setConn s _)]
        exact hfifo
      · rw [hconn]
        exact hcarries
    · refine (h s).update hs rfl (completing_other (m := m.setConn u _) (Or.inl ?_) (Or.inl rfl) hs)
      show (m.pool _).session = _
      rw [pos]
      rfl
  | writeUnlock pos idle =>
    exact (h s).move (fun v => by rw [pos]; rfl) rfl rfl rfl
  | @send n u msg d q pos sender sent =>
    by_cases hs : s = u
    · subst hs
      exact (h s).send sent (congrArg Conn.sendQueue (Function.update_self s _ m.conns))
        (congrArg Conn.sends (Function.update_self s _ m.conns)) rfl
    · exact (h s).update hs rfl rfl
  | writeFailed | sendLock | sendFailed | sendUnlock | callbackReturn | queue =>
    exact (h s).of_same rfl rfl rfl

theorem reachable_writes (h : (system size f).Reachable m) (uuid : Nat) : Writes size m uuid := by
  have hall : (system size f).Reachable m ∧ ∀ s, Writes size m s := by
    refine ⟨h, ?_⟩
    induction h with
    | init => exact fun _ => init_writes
    | step hr hstep ih => exact fun s => step_writes ih (reachable_atHome hr) hstep s
  exact hall.2 uuid

/-- **The send queue between threads.** In every interleaving of the worker's `Send` with the pool
threads' `HandleWrite`: a session has at most one write in flight or completing, it is the front
node's, and there is one as long as there is a front node and no write has failed; the handler of a
completion never meets an empty queue; the wire carries the accepted nodes in order, each once; and
these are the nodes of the replies, in the order they were sent. -/
theorem wire_protocol (h : (system size f).Reachable m) (uuid : Nat) :
    (m.inFlight size uuid).writes.length ≤ 1 ∧
      (∀ w ∈ (m.inFlight size uuid).writes, (m.conns uuid).sendQueue.sendQue.head? = some w) ∧
      ((m.conns uuid).sendQueue.failed = false →
        ((m.inFlight size uuid).writes ≠ [] ↔ (m.conns uuid).sendQueue.sendQue ≠ [])) ∧
      (∀ i w, m.pool i = .writeLocked uuid w →
        ∃ es q, (m.conns uuid).sendQueue.handleWrite w false = some (es, q)) ∧
      (m.conns uuid).sendQueue.accepted =
        (m.conns uuid).sendQueue.written ++ (m.conns uuid).sendQueue.sendQue ∧
      (m.conns uuid).sendQueue.started <+: (m.conns uuid).sendQueue.accepted ∧
      ((m.conns uuid).sendQueue.accepted.map Queued.addr).Nodup ∧
      Carries (m.conns uuid).sends (m.conns uuid).sendQueue.accepted := by
  have hw := reachable_writes h uuid
  have hinv := hw.fifo.toInv
  refine ⟨hinv.writes_length_le, fun w hw => hinv.head_of_mem_writes hw,
    fun hf => hinv.writes_ne_nil_iff hf, ?_, hw.fifo.queued, hw.fifo.started_accepted,
    hinv.distinct, hw.carries⟩
  intro i w hpos
  obtain ⟨rfl, _⟩ := (reachable_atHome h).handlers i uuid (by rw [hpos]; rfl)
  exact hw.pops (by rw [completing, hpos]; exact if_pos rfl)

/-- Two requests in one chunk. The second is in its callback when the write of the first reply
completes, and `Send` gets to the lock before `HandleWrite` does. -/
def sendBetween : List Act :=
  [.handleAccept false, .handleRead 0 [3, 0xe9, 0, 1, 0x61, 3, 0xe9, 0, 1, 0x62], .pool 0, .pool 0,
    .pool 0, .pool 0, .pool 0, .pool 0, .pool 0, .pool 0, .pool 0, .pool 0, .pool 0, .worker,
    .worker, .worker, .worker, .worker, .worker, .worker, .worker, .worker, .worker, .worker,
    .handleWrite 0 0 false, .worker, .worker]

theorem wire_protocol_between :
    ∃ m, (system 1 fun msg => (msg.2, msg.1)).run init sendBetween = some m ∧
      (m.conns 0).sendQueue.writes = [] ∧ (m.conns 0).sendQueue.sendQue.length = 2 ∧
      (m.inFlight 1 0).writes ≠ [] ∧ Carries (m.conns 0).sends (m.conns 0).sendQueue.accepted := by
  obtain ⟨m, hm, hnone, htwo, hopen⟩ : ∃ m,
      (system 1 fun msg => (msg.2, msg.1)).run init sendBetween = some m ∧
        (m.conns 0).sendQueue.writes = [] ∧ (m.conns 0).sendQueue.sendQue.length = 2 ∧
        (m.conns 0).sendQueue.failed = false := ⟨_, rfl, rfl, rfl, rfl⟩
  obtain ⟨_, _, hflight, _, _, _, _, hcarries⟩ := wire_protocol (.of_run hm) 0
  refine ⟨m, hm, hnone, htwo, (hflight hopen).mpr fun hempty => ?_, hcarries⟩
  rw [hempty] at htwo
  cases htwo

end Machine
end ServerV3Mt
end AsyncEchoServer
