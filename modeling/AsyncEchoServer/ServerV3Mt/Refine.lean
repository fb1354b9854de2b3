import AsyncEchoServer.ServerV3.Serve
import AsyncEchoServer.ServerV3Mt.Wire
import AsyncEchoServer.ServerV3Mt.Work

/-!
# `ServerV3Mt/Refine.lean` — nothing that the single-threaded server does not do

The multi-thread server was made of the single-threaded one to be faster. Here is that it does
nothing else: whatever its threads do, a run of the single-threaded server keeps in step with it, in
which every session has been sent the same replies, on part of the same bytes, and has the same send
queue, so the same on the wire (`Follows`).

What a step of the multi-thread server shows of a session is little (`Shows`): more bytes have been
received, a reply has been sent, or a write has been completed. To the first the single-threaded
server does nothing. To the second it is given the session's bytes up to the request that has just
been answered, and left to itself (`ServerV3/Serve.lean`). A completing write counts as one in
flight until its node is off the queue (`inFlight`), and then it is delivered. `_b_close` is left
out, since the two servers set it in different steps and nothing reads it.
-/

set_option autoImplicit false

namespace AsyncEchoServer

namespace SendQueue

variable {ν : Type} {q p p' : SendQueue ν}

/-- `Send` does not look at `_b_close`, … -/
theorem send_close (q : SendQueue ν) (node : Except Fault ν) (b : Bool) :
    SendQueue.send node { q with bClose := b } =
      (q.send node).map fun out => (out.1, { out.2 with bClose := b }) := by
  unfold SendQueue.send
  dsimp only
  by_cases hfull : maxSendQueue < q.sendQue.length
  · rw [if_pos hfull, if_pos hfull]
    rfl
  · rw [if_neg hfull, if_neg hfull]
    cases node with
    | error e => cases e <;> rfl
    | ok n =>
      dsimp only
      by_cases hpos : 0 < q.sendQue.length
      · rw [if_pos hpos, if_pos hpos]
        rfl
      · rw [if_neg hpos, if_neg hpos]
        unfold asyncWrite push
        dsimp only
        cases q.sendQue <;> rfl

/-- … nor does `HandleWrite`. -/
theorem handleWrite_close (q : SendQueue ν) (w : Queued ν) (b : Bool) :
    SendQueue.handleWrite w false { q with bClose := b } =
      (q.handleWrite w false).map fun out => (out.1, { out.2 with bClose := b }) := by
  unfold SendQueue.handleWrite
  rw [if_neg Bool.false_ne_true, if_neg Bool.false_ne_true]
  dsimp only
  cases q.sendQue with
  | nil => rfl
  | cons front rest => cases rest <;> rfl

/-- The same queue, but for `_b_close`. -/
def Alike (q p : SendQueue ν) : Prop := { q with bClose := p.bClose } = p

theorem Alike.refl (q : SendQueue ν) : q.Alike q := rfl

theorem Alike.writes (h : q.Alike p) : q.writes = p.writes := by
  unfold Alike at h
  rw [← h]

theorem Alike.close (h : q.Alike p) (b : Bool) : q.Alike { p with bClose := b } := by
  unfold Alike at h ⊢
  rw [← h]

theorem Alike.send {node : Except Fault ν} {x : Exit} (h : q.Alike p)
    (hsend : p.send node = some (x, p')) : ∃ q', q.send node = some (x, q') ∧ q'.Alike p' := by
  rw [← h, send_close] at hsend
  obtain ⟨⟨y, q'⟩, hq, heq⟩ := Option.map_eq_some_iff.mp hsend
  cases heq
  exact ⟨q', hq, rfl⟩

theorem Alike.step {i : Nat} {error : Bool} (h : q.Alike p)
    (hstep : p.step (.handleWrite i error) = some p') :
    ∃ q', q.step (.handleWrite i error) = some q' ∧ q'.Alike p' := by
  rw [← h] at hstep
  simp only [SendQueue.step] at hstep ⊢
  cases hw : q.writes[i]? with
  | none =>
    rw [hw] at hstep
    cases hstep
  | some w =>
    rw [hw] at hstep
    dsimp only at hstep ⊢
    cases error with
    | true =>
      cases hstep
      exact ⟨_, rfl, rfl⟩
    | false =>
      have hclose := handleWrite_close { q with writes := q.writes.eraseIdx i } w p.bClose
      rw [show SendQueue.handleWrite w false
        { q with bClose := p.bClose, writes := q.writes.eraseIdx i } = _ from hclose] at hstep
      obtain ⟨⟨es, q₁⟩, hout, rfl⟩ := Option.map_eq_some_iff.mp hstep
      obtain ⟨⟨es', q'⟩, hdone, heq⟩ := Option.map_eq_some_iff.mp hout
      cases heq
      exact ⟨q', by rw [hdone]; rfl, rfl⟩

end SendQueue

namespace ServerV3Mt
namespace Machine

open ServerV3 (Conn ref sendString sent sentAll sent_eq_some replies replies_prefix)

variable {size i uuid : Nat} {f : Short × Bytes → Bytes × Short} {m m' : Machine}

/-! ## What a step shows -/

/-- What a session shows to the outside. -/
def outside (size : Nat) (m : Machine) (uuid : Nat) :
    Bytes × List (Bytes × Short) × SendQueue SendNode :=
  ((m.conns uuid).received, (m.conns uuid).sends, m.inFlight size uuid)

theorem outside_eq {b : Bytes} {rs : List (Bytes × Short)} {q : SendQueue SendNode}
    (h : m.outside size uuid = (b, rs, q)) :
    (m.conns uuid).received = b ∧ (m.conns uuid).sends = rs ∧ m.inFlight size uuid = q := by
  obtain ⟨hrecv, hrest⟩ := Prod.mk.inj h
  exact ⟨hrecv, Prod.mk.inj hrest⟩

/-- What can be seen of a step. -/
inductive Shows : Bytes × List (Bytes × Short) × SendQueue SendNode →
    Bytes × List (Bytes × Short) × SendQueue SendNode → Prop where
  /-- nothing, or that the socket is closed -/
  | closed {b : Bytes} {rs : List (Bytes × Short)} {q : SendQueue SendNode} (bClose : Bool) :
      Shows (b, rs, q) (b, rs, { q with bClose := bClose })
  | received {b : Bytes} {rs : List (Bytes × Short)} {q : SendQueue SendNode} (chunk : Bytes) :
      Shows (b, rs, q) (b ++ chunk, rs, q)
  | sent {b : Bytes} {rs : List (Bytes × Short)} {q q' : SendQueue SendNode} {r : Bytes × Short}
      (h : sendString r.1 r.2 q = some (.returned, q')) : Shows (b, rs, q) (b, rs ++ [r], q')
  | written {b : Bytes} {rs : List (Bytes × Short)} {q q' : SendQueue SendNode} (error : Bool)
      (h : q.step (.handleWrite 0 error) = some q') : Shows (b, rs, q) (b, rs, q')

/-- A step that shows nothing. -/
theorem outside_same (hconn : (m'.conns uuid).outside = (m.conns uuid).outside)
    (hcompl : m'.completing size uuid = m.completing size uuid) :
    m'.outside size uuid = m.outside size uuid := by
  obtain ⟨hrecv, hsends, hqueue⟩ := Conn.outside_eq hconn
  rw [outside, outside, inFlight, inFlight, hrecv, hsends, hqueue, hcompl]

/-- It is one session that a step shows something of. -/
def ShowsOf (size : Nat) (m m' : Machine) (uuid : Nat) : Prop :=
  Shows (m.outside size uuid) (m'.outside size uuid) ∧
    ∀ s, s ≠ uuid → m'.outside size s = m.outside size s

theorem shows_nothing (h : ∀ s, m'.outside size s = m.outside size s) :
    ∃ uuid, ShowsOf size m m' uuid := by
  refine ⟨0, ?_, fun s _ => h s⟩
  rw [h]
  exact .closed (m.inFlight size 0).bClose

/-- A thread that completes the same writes at its new position. -/
theorem shows_move {p : PoolPos} (hpos : ∀ s, (m.pool i).completing s = p.completing s)
    (hconns : ∀ s, (m'.conns s).outside = (m.conns s).outside)
    (hpool : m'.pool = (m.moveTo i p).pool) : ∃ uuid, ShowsOf size m m' uuid :=
  shows_nothing fun s => outside_same (hconns s) (completing_move hpos hpool)

/-- The other sessions, in a step of `u`'s handler. -/
theorem outside_other {u s : Nat} {c' : Conn} {p : PoolPos} (hs : s ≠ u)
    (h : (m.pool i).session = some u ∨ m.pool i = .idle) (hp : p.session = some u ∨ p = .idle) :
    ((m.setConn u c').moveTo i p).outside size s = m.outside size s := by
  have hconn : ((m.setConn u c').moveTo i p).conns s = m.conns s := Function.update_of_ne hs ..
  exact outside_same (congrArg Conn.outside hconn)
    (completing_other (m := m.setConn u c') h hp hs)

/-- … and the session itself. -/
theorem outside_self {c' : Conn} {p : PoolPos} :
    ((m.setConn uuid c').moveTo (ioService size uuid) p).outside size uuid =
      (c'.received, c'.sends,
        { c'.sendQueue with writes := (p.completing uuid).toList ++ c'.sendQueue.writes }) := by
  have hconn : ((m.setConn uuid c').moveTo (ioService size uuid) p).conns uuid = c' :=
    Function.update_self ..
  rw [outside, inFlight, hconn, completing_moveTo (m := m.setConn uuid c')]

/-- A handler of the session begins on a thread that is free. -/
theorem shows_begin {c' : Conn} {p : PoolPos} (hpool : m.pool (ioService size uuid) = .idle)
    (hp : p.session = some uuid) (h : Shows (m.conns uuid).outside (c'.received, c'.sends,
      { c'.sendQueue with writes := (p.completing uuid).toList ++ c'.sendQueue.writes })) :
    ∃ u, ShowsOf size m ((m.setConn uuid c').moveTo (ioService size uuid) p) u := by
  refine ⟨uuid, ?_, fun s hs => outside_other hs (Or.inr hpool) (Or.inl hp)⟩
  have hidle : m.outside size uuid = (m.conns uuid).outside := by
    rw [outside, inFlight, completing, hpool]
    rfl
  rw [outside_self, hidle]
  exact h

/-- The worker's `Send` comes back, whatever the session's thread is doing. -/
theorem outside_sent {q : SendQueue SendNode} {r : Bytes × Short} {pos : SendPos} :
    ({ m.setConn uuid { m.conns uuid with
        sendQueue := q, sends := (m.conns uuid).sends ++ [r] } with sender := pos } :
      Machine).outside size uuid =
      ((m.conns uuid).received, (m.conns uuid).sends ++ [r],
        { q with writes := (m.completing size uuid).toList ++ q.writes }) := by
  have hconn : (m.setConn uuid { m.conns uuid with
      sendQueue := q, sends := (m.conns uuid).sends ++ [r] }).conns uuid = { m.conns uuid with
      sendQueue := q, sends := (m.conns uuid).sends ++ [r] } := Function.update_self ..
  rw [outside, inFlight]
  dsimp only
  rw [hconn]
  rfl

/-- **What a step shows.** -/
theorem step_shows {a : Act} (h : (system size f).Reachable m)
    (hstep : m.step size f a = some m') : ∃ uuid, ShowsOf size m m' uuid := by
  have hhome := reachable_atHome h
  obtain ⟨hspec, _⟩ := step_cases hstep
  cases hspec with
  | accept pos =>
    have hsame : ∀ s, (m.accepted.conns s).outside = (m.conns s).outside :=
      field_update Conn.outside rfl
    exact shows_nothing fun s => outside_same (hsame s) rfl
  | @read u chunk free listens ne le =>
    exact shows_begin (Threads.free_idle free).1 rfl (.received chunk)
  | @readError u free listens => exact shows_begin (Threads.free_idle free).1 rfl (.closed true)
  | @writeError u j w es q free found done =>
    obtain ⟨hpool, _⟩ := Threads.free_idle free
    obtain ⟨_, rfl, _⟩ := (reachable_writes h u).found hpool found
    refine shows_begin hpool rfl (.written true ?_)
    simp only [SendQueue.step, found, done, Option.map_some]
    rfl
  | @write u j w free found =>
    obtain ⟨hpool, _⟩ := Threads.free_idle free
    obtain ⟨_, rfl, hone⟩ := (reachable_writes h u).found hpool found
    -- off asio's list, and at once among the completing ones
    have hback : (PoolPos.writing u w).completing u = some w := if_pos rfl
    have hsame : { (m.conns u).sendQueue with
        writes := [w] ++ (m.conns u).sendQueue.writes.eraseIdx 0 } = (m.conns u).sendQueue := by
      rw [hone, List.eraseIdx_zero, List.tail_cons, List.append_nil, ← hone]
    refine shows_begin hpool rfl ?_
    rw [hback]
    show Shows _ (_, _, { (m.conns u).sendQueue with
      writes := [w] ++ (m.conns u).sendQueue.writes.eraseIdx 0 })
    rw [hsame]
    exact .closed (m.conns u).sendQueue.bClose
  | @turn i u n data copyLen turn logic pos idle left body posted =>
    have hsame : ∀ s, ((m.afterTurn i u data turn logic).conns s).outside = (m.conns s).outside :=
      field_update Conn.outside rfl
    refine shows_move (i := i) (p := nextPos u data turn) (fun v => ?_) hsame rfl
    rw [pos]
    unfold nextPos
    split
    · rfl
    · split <;> rfl
  | passEnd pos idle => exact shows_move (fun v => by rw [pos]; rfl) (fun _ => rfl) rfl
  | clearLock pos idle free => exact shows_move (fun v => by rw [pos]; rfl) (fun _ => rfl) rfl
  | clearErase pos idle => exact shows_move (fun v => by rw [pos]; rfl) (fun _ => rfl) rfl
  | clearUnlock pos idle => exact shows_move (fun v => by rw [pos]; rfl) (fun _ => rfl) rfl
  | writeLock pos idle free => exact shows_move (fun v => by rw [pos]; rfl) (fun _ => rfl) rfl
  | writeUnlock pos idle => exact shows_move (fun v => by rw [pos]; rfl) (fun _ => rfl) rfl
  | @written i u w es q pos idle done =>
    have hsession : (m.pool i).session = some u := by
      rw [pos]
      rfl
    obtain ⟨rfl, _⟩ := hhome.handlers i u hsession
    refine ⟨u, ?_, fun s hs => outside_other hs (Or.inl hsession) (Or.inl rfl)⟩
    have hc : m.completing size u = some w := by
      rw [completing, pos]
      exact if_pos rfl
    rw [outside_self, outside]
    exact .written false (pop_inFlight hc done)
  | @send n u msg d q pos sender sent =>
    refine ⟨u, ?_, fun s hs => outside_same ?_ rfl⟩
    · rw [outside_sent]
      exact .sent ((reachable_writes h u).send_inFlight sent)
    · exact congrArg Conn.outside (Function.update_of_ne hs _ m.conns)
  | acceptError | acceptLock | acceptInsert | acceptUnlock | writeFailed | sendLock | sendFailed |
    sendUnlock | callbackReturn | queue => exact shows_nothing fun s => outside_same rfl rfl

/-! ## In step -/

/-- The single-threaded server `v` is in step with `m`. -/
structure Follows (size : Nat) (f : Short × Bytes → Bytes × Short) (m : Machine)
    (v : ServerV3.Machine) : Prop where
  serving : v.Serving f
  /-- it has received part of the same bytes, up to the end of a message -/
  received : ∀ s, (v.conns s).received <+: (m.conns s).received
  whole : ∀ s, (ref.parse (v.conns s).received).tail = .pending []
  sends : ∀ s, (v.conns s).sends = (m.conns s).sends
  queue : ∀ s, (v.conns s).sendQueue.Alike (m.inFlight size s)

variable {v v' : ServerV3.Machine}

theorem init_follows : Follows size f init .init where
  serving := ServerV3.Machine.init_serving
  received _ := List.prefix_rfl
  whole _ := by rw [ServerV3.Machine.init, Lib.Format.parse_nil]
  sends _ := rfl
  queue _ := .refl _

/-- The sessions that nothing has been seen of stay in step. -/
theorem Follows.of_outside (h : Follows size f m v) (hserving : v'.Serving f)
    (hother : ∀ s, s ≠ uuid → m'.outside size s = m.outside size s)
    (hother' : ∀ s, s ≠ uuid → (v'.conns s).outside = (v.conns s).outside)
    (hreceived : (v'.conns uuid).received <+: (m'.conns uuid).received)
    (hwhole : (ref.parse (v'.conns uuid).received).tail = .pending [])
    (hsends : (v'.conns uuid).sends = (m'.conns uuid).sends)
    (hqueue : (v'.conns uuid).sendQueue.Alike (m'.inFlight size uuid)) : Follows size f m' v' := by
  have hall : ∀ s, (v'.conns s).received <+: (m'.conns s).received ∧
      (ref.parse (v'.conns s).received).tail = .pending [] ∧
      (v'.conns s).sends = (m'.conns s).sends ∧
      (v'.conns s).sendQueue.Alike (m'.inFlight size s) := by
    intro s
    by_cases hs : s = uuid
    · subst hs
      exact ⟨hreceived, hwhole, hsends, hqueue⟩
    · obtain ⟨hrecv, hsent, hflight⟩ := outside_eq (hother s hs)
      obtain ⟨hrecv', hsent', hqueue'⟩ := Conn.outside_eq (hother' s hs)
      rw [hrecv, hsent, hflight, hrecv', hsent', hqueue']
      exact ⟨h.received s, h.whole s, h.sends s, h.queue s⟩
  exact ⟨hserving, fun s => (hall s).1, fun s => (hall s).2.1, fun s => (hall s).2.2.1,
    fun s => (hall s).2.2.2⟩

/-- The bytes to give to the single-threaded server, so that it answers as well what has just been
answered. -/
theorem Follows.next_bytes {r : Bytes × Short} (h : Follows size f m v) (hi : Inv size f m')
    (hrecv : (m'.conns uuid).received = (m.conns uuid).received)
    (hsends : (m'.conns uuid).sends = (m.conns uuid).sends ++ [r]) :
    ∃ b, (v.conns uuid).received ++ b <+: (m'.conns uuid).received ∧
      (ref.parse ((v.conns uuid).received ++ b)).tail = .pending [] ∧
      replies f (ref.parse ((v.conns uuid).received ++ b)).msgs =
        (v.conns uuid).sends ++ [r] := by
  obtain ⟨rest, hrest⟩ := h.received uuid
  rw [← hrecv] at hrest
  obtain ⟨hle, hreplied⟩ := hi.sends_eq uuid
  rw [framed, ← hrest] at hle hreplied
  have hanswered := h.serving.answered uuid
  rw [ServerV3.Machine.framed] at hanswered
  -- more is answered there than here
  have hmore : (ref.parse (v.conns uuid).received).msgs.length ≤ m'.repliedOf uuid := by
    by_contra hless
    obtain ⟨new, hnew⟩ := Lib.Format.msgs_append (F := ref) (v.conns uuid).received rest
    rw [hnew, List.take_append_of_le_length (by omega)] at hreplied
    have hpre := replies_prefix (f := f)
      (List.take_prefix (m'.repliedOf uuid) (ref.parse (v.conns uuid).received).msgs)
    have hlen := hpre.length_le
    rw [show replies f (List.take _ _) = _ from hreplied.symm, ← hanswered, h.sends uuid, hsends,
      List.length_append, List.length_singleton] at hlen
    omega
  obtain ⟨b, post, hb, hparse⟩ := Lib.Format.exists_cut_from (h.whole uuid) hmore hle
  refine ⟨b, ?_, by rw [hparse], ?_⟩
  · rw [← hrest, hb, ← List.append_assoc]
    exact List.prefix_append _ _
  · rw [hparse, h.sends uuid, ← hsends, hreplied]
    rfl

/-- **A step of the multi-thread server is followed.** -/
theorem Follows.step {a : Act} (h : Follows size f m v) (hr : (system size f).Reachable m)
    (hneg : m'.Unbroken) (hstep : m.step size f a = some m') :
    ∃ bs v', (ServerV3.Machine.system f).run v bs = some v' ∧ Follows size f m' v' := by
  obtain ⟨uuid, hshows, hother⟩ := step_shows hr hstep
  have hi : Inv size f m' := reachable_data (hr.step (a := a) hstep) hneg
  generalize hbefore : m.outside size uuid = before at hshows
  generalize hafter : m'.outside size uuid = after at hshows
  cases hshows with
  | @closed b rs q bClose =>
    cases hbefore
    obtain ⟨hrecv, hsends, hqueue⟩ := outside_eq hafter
    refine ⟨[], v, rfl, h.of_outside h.serving hother (fun _ _ => rfl) ?_ (h.whole uuid) ?_ ?_⟩
    · rw [hrecv]
      exact h.received uuid
    · rw [hsends]
      exact h.sends uuid
    · rw [hqueue]
      exact (h.queue uuid).close bClose
  | @received b rs q chunk =>
    cases hbefore
    obtain ⟨hrecv, hsends, hqueue⟩ := outside_eq hafter
    refine ⟨[], v, rfl, h.of_outside h.serving hother (fun _ _ => rfl) ?_ (h.whole uuid) ?_ ?_⟩
    · rw [hrecv]
      exact (h.received uuid).trans (List.prefix_append _ _)
    · rw [hsends]
      exact h.sends uuid
    · rw [hqueue]
      exact h.queue uuid
  | @sent b rs q q' r hsend =>
    cases hbefore
    obtain ⟨hrecv, hsends, hqueue⟩ := outside_eq hafter
    obtain ⟨b, hpre, htail, hreplies⟩ := h.next_bytes hi hrecv hsends
    obtain ⟨q₁, hsend₁, halike⟩ := (h.queue uuid).send hsend
    have hall : sentAll (v.conns uuid).sendQueue [r] = some q₁ := by
      refine ServerV3.sentAll_cons.mpr ⟨q₁, sent_eq_some.mpr hsend₁, rfl⟩
    obtain ⟨bs, v', hrun, hserving, hself, hother'⟩ :=
      h.serving.feed ⟨[], htail⟩ hreplies hall
    obtain ⟨hrecv', hsends', hqueue'⟩ := Conn.outside_eq hself
    refine ⟨bs, v', hrun, h.of_outside hserving hother hother' ?_ ?_ ?_ ?_⟩
    · rw [hrecv']
      exact hpre
    · rw [hrecv']
      exact htail
    · rw [hsends', hsends, h.sends uuid]
    · rw [hqueue', hqueue]
      exact halike
  | @written b rs q q' error hdone =>
    cases hbefore
    obtain ⟨hrecv, hsends, hqueue⟩ := outside_eq hafter
    obtain ⟨q₁, hdone₁, halike⟩ := (h.queue uuid).step hdone
    obtain ⟨v', hwrite, hserving, hself, hother'⟩ := h.serving.handleWrite hdone₁
    obtain ⟨hrecv', hsends', hqueue'⟩ := Conn.outside_eq hself
    refine ⟨[.handleWrite uuid 0 error], v', Lib.System.run_one hwrite,
      h.of_outside hserving hother hother' ?_ ?_ ?_ ?_⟩
    · rw [hrecv', hrecv]
      exact h.received uuid
    · rw [hrecv']
      exact h.whole uuid
    · rw [hsends', hsends]
      exact h.sends uuid
    · rw [hqueue', hqueue]
      exact halike

/-- The simulation. When a header has declared a negative length, nothing is said any more. -/
def toSingleThread (size : Nat) (f : Short × Bytes → Bytes × Short) :
    Lib.System.Simulation (system size f) (ServerV3.Machine.system f) where
  rel m v := m.Unbroken → Follows size f m v
  init _ := init_follows
  step {m m' v a} hr _ hrel hstep := by
    by_cases hneg : m'.Unbroken
    · obtain ⟨bs, v', hrun, hfollows⟩ :=
        (hrel (unbroken_before hstep hneg)).step hr hneg hstep
      exact ⟨bs, v', hrun, fun _ => hfollows⟩
    · exact ⟨[], v, rfl, fun h => absurd h hneg⟩

/-- **The multi-thread server does nothing that the single-threaded one does not.** To every run on
streams without negative lengths, with any number of pool threads and in any interleaving, there is
a run of the single-threaded server that ends in step with it; and from there, whatever the
multi-thread server goes on to do, the single-threaded one can go on to stay in step. -/
theorem refines_single_thread (h : (system size f).Reachable m) (hneg : m.Unbroken) :
    ∃ v, (ServerV3.Machine.system f).Reachable v ∧ Follows size f m v ∧
      ∀ as m', (system size f).run m as = some m' → m'.Unbroken →
        ∃ bs v', (ServerV3.Machine.system f).run v bs = some v' ∧ Follows size f m' v' := by
  obtain ⟨v, hv, hrel⟩ := (toSingleThread size f).reachable h
  refine ⟨v, hv, hrel hneg, fun as m' hrun hneg' => ?_⟩
  obtain ⟨bs, v', hrun', hrel'⟩ := (toSingleThread size f).run h hv hrel hrun
  exact ⟨bs, v', hrun', hrel' hneg'⟩

/-- Two requests in one chunk, and the second reply is sent while the write of the first completes:
the single-threaded server has been sent both as well, with the first write in flight. -/
theorem refines_single_thread_between :
    ∃ m, (system 1 fun msg => (msg.2, msg.1)).run init sendBetween = some m ∧
      (m.conns 0).sendQueue.writes = [] ∧
      ∃ v, (ServerV3.Machine.system fun msg => (msg.2, msg.1)).Reachable v ∧
        (v.conns 0).sends = [([0x61], 1001), ([0x62], 1001)] ∧
        (v.conns 0).sendQueue.writes.length = 1 := by
  obtain ⟨m, hm, hnone, hsends, hflight, h₀, hrest⟩ : ∃ m,
      (system 1 fun msg => (msg.2, msg.1)).run init sendBetween = some m ∧
        (m.conns 0).sendQueue.writes = [] ∧
        (m.conns 0).sends = [([0x61], 1001), ([0x62], 1001)] ∧
        (m.inFlight 1 0).writes.length = 1 ∧
        (m.conns 0).received = [3, 0xe9, 0, 1, 0x61, 3, 0xe9, 0, 1, 0x62] ∧
        ∀ s, (m.conns (s + 1)).received = [] := ⟨_, rfl, rfl, rfl, rfl, rfl, fun _ => rfl⟩
  have hparse : ref.parse [3, 0xe9, 0, 1, 0x61, 3, 0xe9, 0, 1, 0x62] =
      ⟨[(1001, [0x61]), (1001, [0x62])], .pending []⟩ := by decide
  obtain ⟨hneg, _⟩ := framed_first h₀ hrest hparse
  obtain ⟨v, hv, hfollows, _⟩ := refines_single_thread (.of_run hm) hneg
  have hqueue := (hfollows.queue 0).writes
  exact ⟨m, hm, hnone, v, hv, (hfollows.sends 0).trans hsends, by rw [hqueue, hflight]⟩

end Machine
end ServerV3Mt
end AsyncEchoServer
