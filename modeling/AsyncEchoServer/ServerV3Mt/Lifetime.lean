import AsyncEchoServer.Lib.Shared
import AsyncEchoServer.ServerV3Mt.Quiet

/-!
# `ServerV3Mt/Lifetime.lean` — how long a session lives

A `CSession` lives as long as somebody holds a `shared_ptr` to it. `Owned` lists the holders: the
handler of `async_accept` and a running `HandleAccept`, `_sessions`, the handlers of its outstanding
reads and writes, the pool thread that runs one of them (`shared_self`), and its `LogicNode`s, down
to the callback's `session`. `CServer` and `LogicSystem` keep no other pointer to a session, but a
handler, the worker and `Send` work on it through a bare `this`.

That this is safe is `destroyed_for_good`: whatever a thread works on is owned at that moment
(`Handles`), nobody gets a reference to a destroyed session, and its `_send_lock` is free when it
goes. The induction over runs is `Lib/Shared.lean`.

A session is also to be destroyed some day. At rest only I/O that is outstanding keeps it
(`Resting.destroyed_iff`), unless it is in `_sessions` and nobody will come back to take it out.
That no session ends up like this comes down to one step of the acceptor: `sessions_released` is
exact.
-/

set_option autoImplicit false

namespace AsyncEchoServer

namespace LogicSystem

variable {ν κ : Type} {find : ν → Option κ} {v : Variant} {s s' : LogicSystem ν κ} {n : ν}

/-- The node in the worker's `msg_node`. -/
def WorkerPos.node : WorkerPos ν κ → Option ν
  | .running n _ _ | .toPop n _ => some n
  | .top | .testing | .toWait | .waiting | .woken | .dispatch | .drain | .exited => none

/-- A node that is on its way through the logic system. -/
inductive Refers (s : LogicSystem ν κ) (n : ν) : Prop where
  | posting {i : Nat} (mem : n ∈ s.pendingPost i)
  | queued (mem : n ∈ s.msgQueue)
  | taken (pos : WorkerPos.node s.worker = some n)

theorem Woken.node (h : Woken s s') : WorkerPos.node s'.worker = WorkerPos.node s.worker := by
  rcases h with heq | ⟨hwait, hwoken⟩
  · rw [heq]
  · rw [hwait, hwoken]
    rfl

/-- The worker takes its node from the queue. -/
theorem workerStep_node (h : s.workerStep find = some s') (hn : WorkerPos.node s'.worker = some n) :
    s.Refers n := by
  cases workerStep_cases h with
  | call pos que | skip pos que =>
    cases hn
    exact .queued (by rw [que]; exact List.mem_cons_self)
  | returned pos =>
    cases hn
    exact .taken (by rw [pos]; rfl)
  | lock | idle | ready | wait | sawStop | pop | popDrain | exit => cases hn

/-- **Nodes come in by `PostMsgToQue`**, and no other way. -/
theorem step_refers {a : Act ν} (h : step v find s a = some s') (hr : s'.Refers n) :
    s.Refers n ∨ ∃ i, a = .post i n := by
  by_cases hpost : ∃ i k, a = .post i k
  · obtain ⟨i, k, rfl⟩ := hpost
    obtain ⟨_, hself, hque, _, hworker, hothers⟩ := post_pending h
    cases hr with
    | @posting j mem =>
      by_cases hj : j = i
      · rw [hj, hself, List.mem_singleton] at mem
        exact Or.inr ⟨i, by rw [mem]⟩
      · exact Or.inl (.posting (by rwa [← hothers j hj]))
    | queued mem => exact Or.inl (.queued (by rwa [← hque]))
    | taken pos => exact Or.inl (.taken (by rwa [← hworker]))
  have hpost : ∀ i k, a ≠ .post i k := fun i k heq => hpost ⟨i, k, heq⟩
  refine Or.inl ?_
  by_cases hprod : ∃ i, a = .producer i
  · obtain ⟨i, rfl⟩ := hprod
    obtain ⟨hpend, hothers⟩ := producerStep_pending h
    cases hr with
    | @posting j mem =>
      by_cases hj : j = i
      · subst hj
        cases hpend with
        | stays pend que post => exact .posting (by rwa [← pend])
        | pushed k pend done que post =>
          rw [done] at mem
          cases mem
      · exact .posting (by rwa [← hothers j hj])
    | queued mem =>
      cases hpend with
      | stays pend que post => exact .queued (by rwa [← que])
      | pushed k pend done que post =>
        rw [que, List.mem_append, List.mem_singleton] at mem
        rcases mem with mem | rfl
        · exact .queued mem
        · exact .posting (by rw [pend]; exact List.mem_singleton_self n)
    | taken pos => exact .taken ((producerStep_aside h).worker.node.symm.trans pos)
  · obtain ⟨hpend, _, hque⟩ := step_pending h hpost fun i heq => hprod ⟨i, heq⟩
    cases hr with
    | @posting j mem => exact .posting (by rwa [← hpend j])
    | queued mem => exact .queued (hque n mem)
    | taken pos =>
      by_cases hw : a = .worker
      · subst hw
        exact workerStep_node h pos
      · have hwoken : Woken s s' := by
          by_cases hd : a = .destructor
          · subst hd
            exact (destructorStep_aside h).1
          · exact (step_aside h hw hd).worker
        exact .taken (hwoken.node.symm.trans pos)

end LogicSystem

namespace ServerV3Mt

open ServerV3 (Conn NodeRef ref findCallBack)

/-- The session `HandleAccept` was called with. -/
def AcceptPos.session : AcceptPos → Option Nat
  | .accepting => none
  | .started uuid | .locked uuid | .inserted uuid => some uuid

namespace Machine

variable {size uuid : Nat} {f : Short × Bytes → Bytes × Short} {m m' : Machine}

/-- `StartAccept` has made the session. -/
def Made (m : Machine) (uuid : Nat) : Prop :=
  uuid < m.fresh ∨ m.acceptor = .accepting ∧ uuid = m.fresh

/-- Somebody holds a `shared_ptr` to the session. -/
inductive Owned (m : Machine) (uuid : Nat) : Prop where
  /-- the handler that waits for a connection -/
  | waiting (pos : m.acceptor = .accepting) (fresh : uuid = m.fresh)
  /-- `new_session` of the running `HandleAccept` -/
  | accepting (pos : m.acceptor.session = some uuid)
  | registered (mem : uuid ∈ m.sessions)
  /-- the handler of an outstanding read -/
  | reading (reads : (m.conns uuid).reads ≠ 0)
  /-- … or write -/
  | writing (writes : (m.conns uuid).sendQueue.writes ≠ [])
  /-- `shared_self` of a running handler -/
  | handler {i : Nat} (pos : (m.pool i).session = some uuid)
  /-- the `LogicNode` of one of its messages -/
  | node {n : NodeRef} (refers : m.logic.Refers n) (session : n.1 = uuid)
  /-- `session` of the running callback -/
  | callback {n : NodeRef} {c : CallBackArgs} {d : Bool} (pos : m.logic.worker = .running n c d)
      (session : c.1 = uuid)

/-- The session whose members a step works on. -/
def touches (m : Machine) : Act → Option Nat
  | .handleAccept _ => some m.fresh
  | .acceptor => m.acceptor.session
  | .handleRead uuid _ | .handleReadError uuid | .handleWrite uuid _ _ => some uuid
  | .pool i =>
    match m.logic.producers i with
    | .idle => (m.pool i).session
    | _ => none
  | .worker =>
    match m.logic.worker with
    | .running _ c _ => some c.1
    | _ => none
  | .spurious | .destructor => none

/-- What a step that works on the session `v` has to do with sessions: it owns that one, leaves the
others alone and gives nobody a reference to them. -/
structure Handles (m m' : Machine) (v : Option Nat) : Prop where
  owns : ∀ uuid, v = some uuid → m.Owned uuid
  kept : ∀ uuid, m.Made uuid → m'.Made uuid
  conn : ∀ uuid, v ≠ some uuid → m'.conns uuid = m.conns uuid
  lock : ∀ uuid, v ≠ some uuid → m'.sendLocks uuid = m.sendLocks uuid
  passed : ∀ uuid, v ≠ some uuid → m.Made uuid → m'.Owned uuid → m.Owned uuid

theorem Made.of_fresh (h : m.Made uuid) (hacc : m'.acceptor = m.acceptor)
    (hfresh : m'.fresh = m.fresh) : m'.Made uuid := by
  unfold Made
  rwa [hacc, hfresh]

/-- A reference that is there was there before, when the step has made none. -/
theorem Owned.pass (h : m'.Owned uuid)
    (hwait : m'.acceptor = .accepting → uuid = m'.fresh → m.Owned uuid)
    (haccept : m'.acceptor.session = some uuid → m.Owned uuid)
    (hmem : uuid ∈ m'.sessions → m.Owned uuid) (hconn : m'.conns uuid = m.conns uuid)
    (hpool : ∀ i, (m'.pool i).session = some uuid → (m.pool i).session = some uuid)
    (hnode : ∀ n, n.1 = uuid → m'.logic.Refers n → m.logic.Refers n)
    (hcall : ∀ n c d, m'.logic.worker = .running n c d → c.1 = uuid → m.Owned uuid) :
    m.Owned uuid := by
  cases h with
  | waiting pos fresh => exact hwait pos fresh
  | accepting pos => exact haccept pos
  | registered mem => exact hmem mem
  | reading reads => exact .reading (by rwa [← hconn])
  | writing writes => exact .writing (by rwa [← hconn])
  | handler pos => exact .handler (hpool _ pos)
  | node refers session => exact .node (hnode _ session refers) session
  | callback pos session => exact hcall _ _ _ pos session

variable {v : Option Nat}

/-- A step that leaves the acceptor and the logic queue as they are. -/
theorem Handles.of_same (howns : ∀ uuid, v = some uuid → m.Owned uuid)
    (hacc : m'.acceptor = m.acceptor) (hfresh : m'.fresh = m.fresh) (hlogic : m'.logic = m.logic)
    (hmem : ∀ uuid ∈ m'.sessions, uuid ∈ m.sessions)
    (hconn : ∀ uuid, v ≠ some uuid → m'.conns uuid = m.conns uuid)
    (hlock : ∀ uuid, v ≠ some uuid → m'.sendLocks uuid = m.sendLocks uuid)
    (hpool : ∀ uuid, v ≠ some uuid → ∀ i, (m'.pool i).session = some uuid →
      (m.pool i).session = some uuid) : Handles m m' v where
  owns := howns
  kept uuid h := h.of_fresh hacc hfresh
  conn := hconn
  lock := hlock
  passed uuid hne hmade h := by
    refine h.pass (fun pos fresh => .waiting (hacc.symm.trans pos) (fresh.trans hfresh))
      (fun pos => .accepting (by rwa [← hacc])) (fun mem => .registered (hmem uuid mem))
      (hconn uuid hne) (hpool uuid hne) ?_ ?_
    · intro n _ hr
      rwa [hlogic] at hr
    · intro n c d hw hc
      exact .callback (by rwa [hlogic] at hw) hc

/-- The session of the connection that has been changed is the one that is worked on. -/
theorem conn_setConn {u : Nat} {c : Conn} (hne : some u ≠ some uuid) :
    (m.setConn u c).conns uuid = m.conns uuid :=
  Function.update_of_ne (fun heq => hne (by rw [heq])) ..

theorem lock_setSendLock {u : Nat} {t : Option Thread} (hne : some u ≠ some uuid) :
    (m.setSendLock u t).sendLocks uuid = m.sendLocks uuid :=
  Function.update_of_ne (fun heq => hne (by rw [heq])) ..

/-- A pool thread moves within the handler of `u`, into it or out of it. -/
theorem session_moveTo {i j u : Nat} {p : PoolPos} (hp : p.session = some u ∨ p = .idle)
    (hne : some u ≠ some uuid) (h : ((m.moveTo i p).pool j).session = some uuid) :
    (m.pool j).session = some uuid := by
  by_cases hj : j = i
  · rw [hj, show (m.moveTo i p).pool i = p from Function.update_self ..] at h
    rcases hp with hp | rfl
    · exact absurd (hp.symm.trans h) hne
    · cases h
  · rwa [show (m.moveTo i p).pool j = m.pool j from Function.update_of_ne hj ..] at h

/-- A step of a handler of `u`, on thread `i`. -/
theorem Handles.handler {i u : Nat} {p : PoolPos} (howns : m.Owned u)
    (hp : p.session = some u ∨ p = .idle) (hpool : m'.pool = (m.moveTo i p).pool)
    (hrest : m'.acceptor = m.acceptor ∧ m'.fresh = m.fresh ∧ m'.logic = m.logic)
    (hmem : ∀ uuid ∈ m'.sessions, uuid ∈ m.sessions)
    (hconn : ∀ uuid, some u ≠ some uuid → m'.conns uuid = m.conns uuid)
    (hlock : ∀ uuid, some u ≠ some uuid → m'.sendLocks uuid = m.sendLocks uuid) :
    Handles m m' (some u) := by
  obtain ⟨hacc, hfresh, hlogic⟩ := hrest
  refine .of_same (fun uuid h => ?_) hacc hfresh hlogic hmem hconn hlock fun uuid hne j h => ?_
  · cases h
    exact howns
  · rw [hpool] at h
    exact session_moveTo hp hne h

/-- … or of the callback it runs. -/
theorem Handles.callback {n : NodeRef} {c : CallBackArgs} {d : Bool}
    (hpos : m.logic.worker = .running n c d) (hpool : m'.pool = m.pool)
    (hrest : m'.acceptor = m.acceptor ∧ m'.fresh = m.fresh ∧ m'.logic = m.logic)
    (hmem : m'.sessions = m.sessions)
    (hconn : ∀ uuid, some c.1 ≠ some uuid → m'.conns uuid = m.conns uuid)
    (hlock : ∀ uuid, some c.1 ≠ some uuid → m'.sendLocks uuid = m.sendLocks uuid) :
    Handles m m' (some c.1) := by
  obtain ⟨hacc, hfresh, hlogic⟩ := hrest
  refine .of_same (fun uuid h => .callback hpos (Option.some.inj h)) hacc hfresh hlogic
    (fun uuid h => by rwa [← hmem]) hconn hlock fun uuid _ j h => by rwa [← hpool]

/-- A step of the logic queue that is no call of `PostMsgToQue`. -/
theorem Handles.logicStep {b : LogicSystem.Act NodeRef} {sender : SendPos}
    {logic : LogicSystem NodeRef CallBackArgs} (howns : ∀ uuid, v = some uuid → m.Owned uuid)
    (hstep : m.logicStep b = some logic) (hpost : ∀ i n, b ≠ .post i n) :
    Handles m { m with logic := logic, sender := sender } v where
  owns := howns
  kept uuid h := h
  conn uuid _ := rfl
  lock uuid _ := rfl
  passed uuid _ _ h := by
    refine h.pass (fun hpos hfresh => .waiting hpos hfresh) (fun hpos => .accepting hpos)
      (fun hmem => .registered hmem) rfl (fun _ hpos => hpos) ?_ ?_
    · intro n _ hr
      rcases LogicSystem.step_refers hstep hr with hr | ⟨i, rfl⟩
      · exact hr
      · exact absurd rfl (hpost i n)
    · intro n c d hw hc
      by_cases hb : b = .worker
      · -- a callback is called with the session of its node
        subst hb
        obtain ⟨hmem, hfind⟩ := LogicSystem.workerStep_running hstep hw
        exact .node (.queued hmem) ((findCallBack_fst hfind).symm.trans hc)
      · exact .callback (LogicSystem.step_worker_running hstep hb hw) hc

/-- A pass of `HandleRead`, with the call of `PostMsgToQue` in it. -/
theorem Handles.turn {i u : Nat} {data : Bytes} {turn : Turn Short}
    {logic : LogicSystem NodeRef CallBackArgs} (hpos : (m.pool i).session = some u)
    (hpost : m.postTurn i u turn = some logic) :
    Handles m (m.afterTurn i u data turn logic) (some u) where
  owns uuid h := .handler (hpos.trans h)
  kept uuid h := h
  conn uuid hne := conn_setConn hne
  lock uuid _ := rfl
  passed uuid hne _ h := by
    have hlogic : (∀ n, n.1 = uuid → logic.Refers n → m.logic.Refers n) ∧
        logic.worker = m.logic.worker := by
      unfold postTurn at hpost
      split at hpost
      · cases hpost
        exact ⟨fun _ _ hr => hr, rfl⟩
      · refine ⟨fun n hn hr => ?_, (LogicSystem.post_pending hpost).2.2.2.2.1⟩
        rcases LogicSystem.step_refers hpost hr with hr | ⟨j, heq⟩
        · exact hr
        · cases heq
          exact absurd (congrArg some hn) hne
    refine h.pass (fun hpos hfresh => .waiting hpos hfresh) (fun hpos => .accepting hpos)
      (fun hmem => .registered hmem) (conn_setConn hne)
      (fun j pos => session_moveTo (m := m.setConn u _) (nextPos_session u data turn) hne pos)
      hlogic.1 ?_
    intro n c d hw hc
    exact .callback (hlogic.2.symm.trans hw) hc

/-- A step of the acceptor, which has the session `v` in hand. -/
theorem Handles.accept (howns : ∀ uuid, v = some uuid → m.Owned uuid)
    (hkept : ∀ uuid, m.Made uuid → m'.Made uuid)
    (hwait : ∀ uuid, m.Made uuid → m'.acceptor = .accepting → uuid = m'.fresh → m.Owned uuid)
    (haccept : ∀ uuid, v ≠ some uuid → m'.acceptor.session = some uuid → m.Owned uuid)
    (hmem : ∀ uuid, v ≠ some uuid → uuid ∈ m'.sessions → uuid ∈ m.sessions)
    (hconn : ∀ uuid, v ≠ some uuid → m'.conns uuid = m.conns uuid)
    (hrest : m'.pool = m.pool ∧ m'.logic = m.logic ∧ m'.sendLocks = m.sendLocks) :
    Handles m m' v where
  owns := howns
  kept := hkept
  conn := hconn
  lock uuid _ := congrFun hrest.2.2 uuid
  passed uuid hne hmade h := by
    obtain ⟨hpool, hlogic, _⟩ := hrest
    refine h.pass (hwait uuid hmade) (haccept uuid hne)
      (fun h => .registered (hmem uuid hne h)) (hconn uuid hne) (fun i h => by rwa [← hpool])
      (fun n _ hr => by rwa [← hlogic]) fun n c d hw hc => .callback (by rwa [← hlogic]) hc

theorem touches_pool {i : Nat} (h : m.logic.producers i = .idle) :
    m.touches (.pool i) = (m.pool i).session := by
  simp only [touches, h]

theorem touches_worker {n : NodeRef} {c : CallBackArgs} {d : Bool}
    (h : m.logic.worker = .running n c d) : m.touches .worker = some c.1 := by
  simp only [touches, h]

theorem QueueAct.touches {a : Act} {b : LogicSystem.Act NodeRef} (h : QueueAct m a b) :
    m.touches a = none := by
  cases h with
  | producer calling =>
    simp only [Machine.touches]
  | worker out =>
    simp only [Machine.touches]
  | spurious | destructor => rfl

/-- Behind `StartAccept` there is one more session. -/
theorem Made.fresh (h : m.Made uuid) (hfresh : m'.fresh = m.fresh + 1) : m'.Made uuid := by
  refine Or.inl ?_
  rcases h with hlt | ⟨_, heq⟩ <;> omega

/-- While the acceptor is in `HandleAccept`, the next session is not made. -/
theorem Made.lt (h : m.Made uuid) (hout : m.acceptor ≠ .accepting) : uuid < m.fresh :=
  h.resolve_right fun hacc => hout hacc.1

/-- **A thread owns the session it works on**, and hands out no other. -/
theorem step_handles {a : Act} (hstep : m.step size f a = some m') :
    Handles m m' (m.touches a) := by
  obtain ⟨hspec, _⟩ := step_cases hstep
  have hhandler : ∀ {i u : Nat}, (m.pool i).session = some u → m.logic.producers i = .idle →
      m.touches (.pool i) = some u ∧ m.Owned u :=
    fun hpos hidle => ⟨(touches_pool hidle).trans hpos, .handler hpos⟩
  have hwrites : ∀ {u j : Nat} {w : Queued SendNode},
      (m.conns u).sendQueue.writes[j]? = some w → m.Owned u :=
    fun found => .writing (List.ne_nil_of_mem (List.mem_of_getElem? found))
  cases hspec with
  | accept pos =>
    refine .accept (fun uuid h => .waiting pos (Option.some.inj h).symm)
      (fun uuid h => h.fresh rfl) ?_ ?_ (fun _ _ h => h) (fun uuid hne => conn_setConn hne)
      ⟨rfl, rfl, rfl⟩
    · intro uuid _ hacc
      cases hacc
    · intro uuid hne hacc
      exact absurd hacc hne
  | acceptError pos =>
    refine .accept (fun uuid h => .waiting pos (Option.some.inj h).symm)
      (fun uuid h => h.fresh rfl) ?_ (fun _ _ h => .accepting h) (fun _ _ h => h) (fun _ _ => rfl)
      ⟨rfl, rfl, rfl⟩
    -- the session `StartAccept` makes now was not made
    intro uuid hmade _ hfresh
    have hfresh : uuid = m.fresh + 1 := hfresh
    rcases hmade with hlt | ⟨_, heq⟩ <;> omega
  | acceptLock pos free =>
    have hout : m.acceptor ≠ .accepting := by rw [pos]; nofun
    refine .accept (fun uuid h => .accepting h) (fun uuid h => Or.inl (h.lt hout)) ?_ ?_
      (fun _ _ h => h) (fun _ _ => rfl) ⟨rfl, rfl, rfl⟩
    · intro uuid _ hacc
      cases hacc
    · intro uuid _ hacc
      exact .accepting (by rw [pos]; exact hacc)
  | @acceptInsert u pos =>
    have hout : m.acceptor ≠ .accepting := by rw [pos]; nofun
    have hsession : m.acceptor.session = some u := by rw [pos]; rfl
    refine .accept (fun uuid h => .accepting h) (fun uuid h => Or.inl (h.lt hout)) ?_ ?_ ?_
      (fun _ _ => rfl) ⟨rfl, rfl, rfl⟩
    · intro uuid _ hacc
      cases hacc
    · intro uuid _ hacc
      exact .accepting (hsession.trans hacc)
    · intro uuid hne hmem
      rcases Finset.mem_insert.mp hmem with rfl | hmem
      · exact absurd hsession hne
      · exact hmem
  | acceptUnlock pos =>
    have hout : m.acceptor ≠ .accepting := by rw [pos]; nofun
    refine .accept (fun uuid h => .accepting h) (fun uuid h => Or.inl (h.lt hout)) ?_ ?_
      (fun _ _ h => h) (fun _ _ => rfl) ⟨rfl, rfl, rfl⟩
    · intro uuid hmade _ hfresh
      exact absurd hfresh (Nat.ne_of_lt (hmade.lt hout))
    · intro uuid _ hacc
      cases hacc
  | read free listens ne le | readError free listens =>
    exact .handler (.reading listens) (Or.inl rfl) rfl ⟨rfl, rfl, rfl⟩ (fun _ h => h)
      (fun _ hne => conn_setConn hne) fun _ _ => rfl
  | writeError free found done =>
    exact .handler (hwrites found) (Or.inl rfl) rfl ⟨rfl, rfl, rfl⟩ (fun _ h => h)
      (fun _ hne => conn_setConn hne) fun _ _ => rfl
  | write free found =>
    exact .handler (hwrites found) (Or.inl rfl) rfl ⟨rfl, rfl, rfl⟩ (fun _ h => h)
      (fun _ hne => conn_setConn hne) fun _ _ => rfl
  | @turn i u n data copyLen turn logic pos idle left body posted =>
    have hsession : (m.pool i).session = some u := by rw [pos]; rfl
    rw [(hhandler hsession idle).1]
    exact .turn hsession posted
  | @passEnd i u data copyLen pos idle =>
    obtain ⟨htouches, howns⟩ := hhandler (i := i) (u := u) (by rw [pos]; rfl) idle
    rw [htouches]
    exact .handler howns (Or.inr rfl) rfl ⟨rfl, rfl, rfl⟩ (fun _ h => h) (fun _ _ => rfl)
      fun _ _ => rfl
  | @clearLock i u pos idle =>
    obtain ⟨htouches, howns⟩ := hhandler (i := i) (u := u) (by rw [pos]; rfl) idle
    rw [htouches]
    exact .handler howns (Or.inl rfl) rfl ⟨rfl, rfl, rfl⟩ (fun _ h => h) (fun _ _ => rfl)
      fun _ _ => rfl
  | @clearErase i u pos idle =>
    obtain ⟨htouches, howns⟩ := hhandler (i := i) (u := u) (by rw [pos]; rfl) idle
    rw [htouches]
    exact .handler howns (Or.inl rfl) rfl ⟨rfl, rfl, rfl⟩ (fun _ h => Finset.mem_of_mem_erase h)
      (fun _ _ => rfl) fun _ _ => rfl
  | @clearUnlock i u pos idle =>
    obtain ⟨htouches, howns⟩ := hhandler (i := i) (u := u) (by rw [pos]; rfl) idle
    rw [htouches]
    exact .handler howns (Or.inr rfl) rfl ⟨rfl, rfl, rfl⟩ (fun _ h => h) (fun _ _ => rfl)
      fun _ _ => rfl
  | @writeLock i u w pos idle free =>
    obtain ⟨htouches, howns⟩ := hhandler (i := i) (u := u) (by rw [pos]; rfl) idle
    rw [htouches]
    exact .handler howns (Or.inl rfl) rfl ⟨rfl, rfl, rfl⟩ (fun _ h => h) (fun _ _ => rfl)
      fun _ hne => lock_setSendLock hne
  | @written i u w es q pos idle done =>
    obtain ⟨htouches, howns⟩ := hhandler (i := i) (u := u) (by rw [pos]; rfl) idle
    rw [htouches]
    exact .handler howns (Or.inl rfl) rfl ⟨rfl, rfl, rfl⟩ (fun _ h => h)
      (fun _ hne => conn_setConn hne) fun _ _ => rfl
  | @writeFailed i u w pos idle fails =>
    obtain ⟨htouches, howns⟩ := hhandler (i := i) (u := u) (by rw [pos]; rfl) idle
    rw [htouches]
    refine .handler (i := i) (p := m.pool i) howns (Or.inl (by rw [pos]; rfl)) ?_ ⟨rfl, rfl, rfl⟩
      (fun _ h => h) (fun _ _ => rfl) fun _ _ => rfl
    exact (Function.update_eq_self i m.pool).symm
  | @writeUnlock i u pos idle =>
    obtain ⟨htouches, howns⟩ := hhandler (i := i) (u := u) (by rw [pos]; rfl) idle
    rw [htouches]
    exact .handler howns (Or.inr rfl) rfl ⟨rfl, rfl, rfl⟩ (fun _ h => h) (fun _ _ => rfl)
      fun _ hne => lock_setSendLock hne
  | sendLock pos sender free | sendUnlock pos sender =>
    rw [touches_worker pos]
    exact .callback pos rfl ⟨rfl, rfl, rfl⟩ rfl (fun _ _ => rfl) fun _ hne => lock_setSendLock hne
  | send pos sender sent =>
    rw [touches_worker pos]
    exact .callback pos rfl ⟨rfl, rfl, rfl⟩ rfl (fun _ hne => conn_setConn hne) fun _ _ => rfl
  | sendFailed pos sender fails dead =>
    rw [touches_worker pos]
    exact .callback pos rfl ⟨rfl, rfl, rfl⟩ rfl (fun _ _ => rfl) fun _ _ => rfl
  | callbackReturn pos sender step =>
    rw [touches_worker pos]
    exact .logicStep (fun uuid h => .callback pos (Option.some.inj h)) step nofun
  | queue act step =>
    rw [act.touches]
    refine .logicStep (fun _ h => by cases h) step fun j n heq => ?_
    subst heq
    cases act

/-! ## Who keeps a session -/

/-- The last `shared_ptr` to the session is gone. -/
def Destroyed (m : Machine) (uuid : Nat) : Prop := m.Made uuid ∧ ¬ m.Owned uuid

/-- At rest a session is kept by `_sessions`, and by the I/O that is outstanding. -/
theorem Resting.destroyed_iff (h : m.Resting) (hd : m.Dispatches f) (hlt : uuid < m.fresh) :
    m.Destroyed uuid ↔ uuid ∉ m.sessions ∧ (m.conns uuid).reads = 0 ∧
      (m.conns uuid).sendQueue.writes = [] := by
  constructor
  · rintro ⟨_, hfree⟩
    refine ⟨fun hmem => hfree (.registered hmem), ?_, ?_⟩
    · by_contra hreads
      exact hfree (.reading hreads)
    · by_contra hwrites
      exact hfree (.writing hwrites)
  · rintro ⟨hmem, hreads, hwrites⟩
    refine ⟨Or.inl hlt, fun howned => ?_⟩
    cases howned with
    | waiting pos fresh => exact absurd fresh (Nat.ne_of_lt hlt)
    | accepting pos =>
      rw [h.accepting] at pos
      cases pos
    | registered mem => exact hmem mem
    | reading reads => exact reads hreads
    | writing writes => exact writes hwrites
    | @handler i pos =>
      rw [(Threads.free_idle (h.free i)).1] at pos
      cases pos
    | node refers session =>
      cases refers with
      | @posting i mem =>
        simp only [LogicSystem.pendingPost, (Threads.free_idle (h.free i)).2] at mem
        cases mem
      | queued mem =>
        rw [h.empty hd] at mem
        cases mem
      | taken pos =>
        rw [h.waiting] at pos
        cases pos
    | callback pos =>
      rw [h.waiting] at pos
      cases pos

/-- A client connects and hangs up at once. -/
def hangsUp : List Act :=
  [.handleAccept false, .acceptor, .acceptor, .acceptor, .handleReadError 0, .pool 0, .pool 0,
    .pool 0, .worker, .worker, .worker]

theorem hangsUp_run : ∃ m, (system 2 fun msg => (msg.2, msg.1)).run init hangsUp = some m ∧
    m.Resting ∧ m.fresh = 1 ∧ m.sessions = ∅ ∧ m.Unbroken ∧ (m.conns 0).reads = 0 ∧
      (m.conns 0).sendQueue.writes = [] := by
  obtain ⟨m, hm, hacc, hpool, hprod, hw, hfresh, hses, hrecv, h₀⟩ : ∃ m,
      (system 2 fun msg => (msg.2, msg.1)).run init hangsUp = some m ∧ m.acceptor = .accepting ∧
        (∀ i, m.pool i = .idle) ∧ (∀ i, m.logic.producers i = .idle) ∧ m.logic.worker = .waiting ∧
        m.fresh = 1 ∧ m.sessions = ∅ ∧ (∀ s, (m.conns s).received = []) ∧
        (m.conns 0).reads = 0 ∧ (m.conns 0).sendQueue.writes = [] :=
    ⟨_, rfl, rfl, fun i => (by cases i <;> rfl), fun _ => rfl, rfl, rfl, by decide,
      fun s => (by cases s <;> rfl), rfl, rfl⟩
  refine ⟨m, hm, ⟨hacc, fun i => ?_, hw⟩, hfresh, hses, fun s => ?_, h₀⟩
  · simp only [Threads.free, hpool i, hprod i]
  · rw [hrecv s, Lib.Format.parse_nil]
    nofun

/-! ## Destroyed for good -/

/-- The sessions as objects with shared owners. -/
def lifetimes (size : Nat) (f : Short × Bytes → Bytes × Short) :
    Lib.System.Shared (system size f) Nat (Conn × Option Thread) where
  made := Made
  owned := Owned
  body m uuid := (m.conns uuid, m.sendLocks uuid)
  kept hstep hmade := (step_handles hstep).kept _ hmade
  passed {m m' a uuid} _ hstep hmade howned := by
    have hhandles := step_handles hstep
    by_cases hv : m.touches a = some uuid
    · exact hhandles.owns uuid hv
    · exact hhandles.passed uuid hv hmade howned
  used {m m' a uuid} _ hstep _ hne := by
    have hhandles := step_handles hstep
    by_contra hfree
    have hv : m.touches a ≠ some uuid := fun h => hfree (hhandles.owns uuid h)
    exact hne (Prod.ext (hhandles.conn uuid hv) (hhandles.lock uuid hv))

/-- Whoever holds the `_send_lock` of a session holds the session. -/
theorem Owned.of_lock (hi : m.toThreads.Inv) (hheld : m.sendLocks uuid ≠ none) : m.Owned uuid := by
  obtain ⟨t, ht⟩ := Option.ne_none_iff_exists'.mp hheld
  have hin := hi.send uuid t ht
  cases t with
  | acceptor => exact hin.elim
  | pool i =>
    have hpos : (m.pool i).inSend = some uuid := hin
    refine .handler (i := i) ?_
    cases hp : m.pool i with
    | writeLocked u w | written u =>
      rw [hp] at hpos
      exact hpos
    | idle | inHandleRead | clearing | clearLocked | erased | writing =>
      rw [hp] at hpos
      cases hpos
  | worker =>
    obtain ⟨_, n, msg, d, hrun⟩ := hin
    exact .callback hrun rfl

/-- **A session is destroyed once, and for good.** In every run, and for every session: a step works
on it only while somebody holds a `shared_ptr` to it, and no other step alters it; from the moment
the last one is gone, nobody gets another and nothing about the session changes, and nobody holds
its `_send_lock`; and that moment comes at most once. -/
theorem destroyed_for_good {as : List Act} (hrun : (system size f).run init as = some m)
    (uuid : Nat) :
    (∀ pre a s s', pre ++ [a] <+: as → (system size f).run init pre = some s →
      s.step size f a = some s' →
        (s.touches a = some uuid → s.Owned uuid) ∧
        (s.touches a ≠ some uuid → s'.conns uuid = s.conns uuid ∧
          s'.sendLocks uuid = s.sendLocks uuid)) ∧
    (∀ pre s, pre <+: as → (system size f).run init pre = some s → s.Destroyed uuid →
      m.Destroyed uuid ∧ m.conns uuid = s.conns uuid ∧ m.sendLocks uuid = none) ∧
    ∀ pre pre', (lifetimes size f).DestroysAt as pre uuid →
      (lifetimes size f).DestroysAt as pre' uuid → pre = pre' := by
  refine ⟨fun pre a s s' _ _ hstep => ?_, fun pre s hpre hs hd => ?_,
    fun pre pre' => Lib.System.Shared.destroyed_once⟩
  · have hhandles := step_handles hstep
    exact ⟨hhandles.owns uuid, fun hv => ⟨hhandles.conn uuid hv, hhandles.lock uuid hv⟩⟩
  · obtain ⟨rest, rfl⟩ := hpre
    rw [Lib.System.run_append, hs] at hrun
    obtain ⟨hd', hbody⟩ := Lib.System.Shared.destroyed_run (S := lifetimes size f)
      (.of_run hs) hd hrun
    refine ⟨hd', congrArg Prod.fst hbody, ?_⟩
    by_contra hheld
    exact hd'.2 (.of_lock (reachable_inv (.run (.of_run hs) hrun)) hheld)

theorem destroyed_for_good_hangsUp : ∃ s m,
    (system 2 fun msg => (msg.2, msg.1)).run init hangsUp = some s ∧
      (system 2 fun msg => (msg.2, msg.1)).run init (hangsUp ++ [.handleAccept false]) = some m ∧
      s.Destroyed 0 ∧ m.Destroyed 0 ∧ m.sendLocks 0 = none := by
  obtain ⟨s, hs, hrest, hfresh, hses, hneg, hio⟩ := hangsUp_run
  have hd : s.Destroyed 0 := by
    rw [hrest.destroyed_iff (reachable_data (.of_run hs) hneg).dispatches (by rw [hfresh]; decide)]
    exact ⟨by rw [hses]; exact Finset.notMem_empty 0, hio⟩
  have hm : (system 2 fun msg => (msg.2, msg.1)).run init (hangsUp ++ [.handleAccept false]) =
      some _ := rfl
  obtain ⟨hd', _, hlock⟩ :=
    (destroyed_for_good hm 0).2.1 hangsUp s (List.prefix_append _ _) hs hd
  exact ⟨s, _, hs, hm, hd, hd', hlock⟩

/-! ## Who comes back to it -/

end Machine

/-- The session whose `HandleRead` the thread is in, or that it is about to take out of
`_sessions`. -/
def PoolPos.attends : PoolPos → Option Nat
  | .inHandleRead uuid _ _ _ | .clearing uuid | .clearLocked uuid => some uuid
  | .idle | .erased _ | .writing _ _ | .writeLocked _ _ | .written _ => none

namespace Machine

variable {size uuid : Nat} {f : Short × Bytes → Bytes × Short} {m m' : Machine}

/-- A read of the session is outstanding, or a thread is at work on it that will start one or clear
the session. -/
def Attended (size : Nat) (m : Machine) (uuid : Nat) : Prop :=
  (m.conns uuid).reads ≠ 0 ∨ (m.pool (ioService size uuid)).attends = some uuid

/-- No session is left in `_sessions` that nobody comes back to. -/
def Attends (size : Nat) (m : Machine) : Prop := ∀ uuid ∈ m.sessions, m.Attended size uuid

/-- If the step is the acceptor's insert, somebody will still come back to the session: a read is
outstanding, or a thread is at work on it. This is not the same as to come before a `ClearSession`:
after a failed write the session is cleared while its read is still outstanding, and an insert
behind that is taken out again when the read fails. -/
def InTime (size : Nat) (m : Machine) : Act → Prop
  | .acceptor => ∀ uuid, m.acceptor = .locked uuid → m.Attended size uuid
  | _ => True

/-- A thread moves that did not attend to the session. -/
theorem Attended.move {i : Nat} {p : PoolPos} (h : m.Attended size uuid)
    (hfrom : (m.pool i).attends ≠ some uuid) (hpool : m'.pool = (m.moveTo i p).pool)
    (hreads : (m'.conns uuid).reads = (m.conns uuid).reads) : m'.Attended size uuid := by
  rcases h with hread | hpos
  · exact Or.inl (by rwa [hreads])
  · refine Or.inr ?_
    have hne : ioService size uuid ≠ i := fun heq => hfrom (by rwa [← heq])
    rw [hpool, show (m.moveTo i p).pool (ioService size uuid) = m.pool (ioService size uuid) from
      Function.update_of_ne hne ..]
    exact hpos

/-- … or moves on to attend to it. -/
theorem Attended.of_move {p : PoolPos} (hp : p.attends = some uuid)
    (hpool : m'.pool = (m.moveTo (ioService size uuid) p).pool) : m'.Attended size uuid := by
  refine Or.inr ?_
  rw [hpool, show (m.moveTo (ioService size uuid) p).pool (ioService size uuid) = p from
    Function.update_self ..]
  exact hp

theorem Attended.of_same (h : m.Attended size uuid) (hpool : m'.pool = m.pool)
    (hreads : (m'.conns uuid).reads = (m.conns uuid).reads) : m'.Attended size uuid := by
  unfold Attended
  rwa [hpool, hreads]

end Machine

/-- A pass arms the next read, or leaves its thread with the session. -/
theorem Own.attends {heap : Heap Short} {c : Conn} {nodes : List Nat} {data : Bytes} {copyLen : Int}
    {n : Nat} {turn : Turn Short} (uuid : Nat) (h : Own heap c (some (data, copyLen, n)) nodes)
    (hneg : (ref.parse c.received).tail ≠ .broken)
    (hturn : loopBody receiver data
      { heap := heap, session := c.session, copyLen := copyLen, bytesTransferred := n } = turn) :
    armed turn.1 = 1 ∨ (nextPos uuid data turn).attends = some uuid := by
  obtain ⟨done, _, hstage⟩ := h.parsed
  cases hstage with
  | reading parse coupled remains more reads =>
    have hspec := loopBody_spec ServerV3.receiver_reads coupled remains
    rw [show loopBody ServerV3.receiver data _ = _ from hturn] at hspec
    rw [parse] at hneg
    cases hspec with
    | wait next del arm | last next del msg full arm => exact Or.inl arm
    | more => exact Or.inr rfl
    | reject next del arm clr =>
      refine Or.inr ?_
      simp only [nextPos, clr]
      rfl
    | broken next => exact absurd (Lib.Format.parse_broken next ▸ rfl) hneg

namespace Machine

variable {size uuid : Nat} {f : Short × Bytes → Bytes × Short} {m m' : Machine}

/-- A pass on the session's own thread. -/
theorem attended_turn {i u n : Nat} {data : Bytes} {copyLen : Int} {turn : Turn Short}
    {logic : LogicSystem NodeRef CallBackArgs} (h : m.Attended size uuid) (hr : m.Receives size)
    (hhome : m.AtHome size) (hneg : m.Unbroken) (hpos : m.pool i = .inHandleRead u data copyLen n)
    (hturn : loopBody receiver data (m.loopAt u copyLen n) = turn) :
    (m.afterTurn i u data turn logic).Attended size uuid := by
  obtain ⟨rfl, _⟩ := hhome.handlers i u (by rw [hpos]; rfl)
  by_cases hs : uuid = u
  · subst hs
    have hown := hr.own uuid
    rw [pos, hpos, show (PoolPos.inHandleRead uuid data copyLen n).net.at uuid =
      some (data, copyLen, n) from ServerV3.NetPos.at_self ..] at hown
    rcases hown.attends uuid (hneg uuid) hturn with harm | hnext
    · refine Or.inl ?_
      show (Function.update m.conns uuid (connAfter (m.conns uuid) turn) uuid).reads ≠ 0
      rw [Function.update_self]
      show (m.conns uuid).reads + armed turn.1 ≠ 0
      omega
    · exact .of_move hnext rfl
  · refine h.move ?_ (p := nextPos u data turn) rfl
      (congrArg Conn.reads (Function.update_of_ne hs ..))
    rw [hpos]
    exact fun heq => hs (Option.some.inj heq).symm

/-- **Somebody comes back to every registered session**, as long as somebody does when it is
registered. -/
theorem step_attends {a : Act} (h : m.Attends size) (hr : m.Receives size) (hhome : m.AtHome size)
    (hneg : m.Unbroken) (hc : m.InTime size a) (hstep : m.step size f a = some m') :
    m'.Attends size := by
  obtain ⟨hspec, _⟩ := step_cases hstep
  intro uuid hmem
  have haway : ∀ {i : Nat} {p : PoolPos}, m.pool i = p → p.attends = none →
      (m.pool i).attends ≠ some uuid := by
    intro i p hpos hnone heq
    rw [hpos, hnone] at heq
    cases heq
  have hfree : ∀ {i : Nat}, m.free i = true → (m.pool i).attends ≠ some uuid :=
    fun hfree => haway (Threads.free_idle hfree).1 rfl
  have hreads : ∀ {u : Nat} {c : Conn}, c.reads = (m.conns u).reads →
      ((m.setConn u c).conns uuid).reads = (m.conns uuid).reads :=
    fun h => field_update Conn.reads h uuid
  cases hspec with
  | accept pos =>
    rcases h uuid hmem with hread | hpos
    · refine Or.inl ?_
      show (Function.update m.conns m.fresh _ uuid).reads ≠ 0
      by_cases hs : uuid = m.fresh
      · rw [hs, Function.update_self]
        exact Nat.succ_ne_zero _
      · rwa [Function.update_of_ne hs]
    · exact Or.inr hpos
  | @acceptInsert u pos =>
    rcases Finset.mem_insert.mp hmem with rfl | hmem
    · exact (hc uuid pos).of_same rfl rfl
    · exact (h uuid hmem).of_same rfl rfl
  | @read u chunk free listens ne le =>
    by_cases hs : uuid = u
    · subst hs
      exact .of_move (p := .inHandleRead uuid (readBuffer chunk) 0 chunk.length) rfl rfl
    · exact (h uuid hmem).move (hfree free) rfl (congrArg Conn.reads (Function.update_of_ne hs ..))
  | @readError u free listens =>
    by_cases hs : uuid = u
    · subst hs
      exact .of_move (p := .clearing uuid) rfl rfl
    · exact (h uuid hmem).move (hfree free) rfl (congrArg Conn.reads (Function.update_of_ne hs ..))
  | writeError free found done => exact (h uuid hmem).move (hfree free) rfl (hreads rfl)
  | write free found => exact (h uuid hmem).move (hfree free) rfl (hreads rfl)
  | turn pos idle left body posted => exact attended_turn (h uuid hmem) hr hhome hneg pos body
  | @passEnd i u data copyLen pos idle =>
    obtain ⟨rfl, _⟩ := hhome.handlers i u (by rw [pos]; rfl)
    have hown := hr.own u
    rw [Machine.pos, pos, show (PoolPos.inHandleRead u data copyLen 0).net.at u =
      some (data, copyLen, 0) from ServerV3.NetPos.at_self ..] at hown
    exact absurd hown.bytes_left (Nat.lt_irrefl 0)
  | @clearLock i u pos idle free =>
    obtain ⟨rfl, _⟩ := hhome.handlers i u (by rw [pos]; rfl)
    by_cases hs : uuid = u
    · subst hs
      exact .of_move (p := .clearLocked uuid) rfl rfl
    · refine (h uuid hmem).move ?_ (p := .clearLocked u) rfl rfl
      rw [pos]
      exact fun heq => hs (Option.some.inj heq).symm
  | @clearErase i u pos idle =>
    obtain ⟨hne, hmem⟩ := Finset.mem_erase.mp hmem
    refine (h uuid hmem).move ?_ (p := .erased u) rfl rfl
    rw [pos]
    exact fun heq => hne (Option.some.inj heq).symm
  | clearUnlock pos | writeUnlock pos =>
    exact (h uuid hmem).move (haway pos rfl) (p := .idle) rfl rfl
  | @writeLock i u w pos idle free =>
    exact (h uuid hmem).move (haway pos rfl) (p := .writeLocked u w) rfl rfl
  | @written i u w es q pos idle done =>
    exact (h uuid hmem).move (haway pos rfl) (p := .written u) rfl (hreads rfl)
  | send pos sender sent => exact (h uuid hmem).of_same rfl (hreads rfl)
  | acceptError | acceptLock | acceptUnlock | writeFailed | sendLock | sendFailed | sendUnlock |
    callbackReturn | queue => exact (h uuid hmem).of_same rfl rfl

/-- … and an insert of a session that nobody will come back to leaves one behind. -/
theorem not_attends_of_late {a : Act} (hc : ¬ m.InTime size a)
    (hstep : m.step size f a = some m') : ¬ m'.Attends size := by
  obtain ⟨hspec, _⟩ := step_cases hstep
  intro hall
  apply hc
  cases hspec with
  | @acceptInsert u pos =>
    intro uuid hpos
    cases pos.symm.trans hpos
    exact (hall u (Finset.mem_insert_self ..)).of_same rfl rfl
  | acceptLock pos | acceptUnlock pos =>
    intro uuid hpos
    cases pos.symm.trans hpos
  | @queue a b logic act step => cases act <;> trivial
  | _ => trivial

/-- At rest, a session that somebody comes back to is being read from. -/
theorem Resting.reads_of_attended (h : m.Resting) (ha : m.Attended size uuid) :
    (m.conns uuid).reads ≠ 0 := by
  refine ha.resolve_right fun hpos => ?_
  rw [(Threads.free_idle (h.free _)).1] at hpos
  cases hpos

/-- **Sessions are released.** On streams without negative lengths, a run never has a session in
`_sessions` that nobody comes back to, exactly when at every insert of the acceptor a read of the
session is outstanding, or a thread is at work on it that will start one or has not come to its
erase. And then, wherever the threads are at rest while the process and the singleton live, the
sessions that are not destroyed are the ones with a read or a write outstanding, and no others. -/
theorem sessions_released {as : List Act} (hrun : (system size f).run init as = some m)
    (hneg : m.Unbroken) :
    ((∀ pre s, pre <+: as → (system size f).run init pre = some s → s.Attends size) ↔
      ∀ pre a s, pre ++ [a] <+: as → (system size f).run init pre = some s → s.InTime size a) ∧
    (m.Attends size → m.fate = .alive → m.logic.destructor = .alive → m.Quiet size f →
      ∀ uuid < m.fresh, m.Destroyed uuid ↔
        (m.conns uuid).reads = 0 ∧ (m.conns uuid).sendQueue.writes = []) := by
  constructor
  · refine Lib.System.run_good_prefix_iff (M := system size f) (G := Unbroken)
      (fun hstep hG => unbroken_before hstep hG) (fun _ h => absurd h (Finset.notMem_empty _))
      (fun hr hG hI hC hstep => ?_) (fun hC hstep => not_attends_of_late hC hstep) hrun hneg
    have hbefore := unbroken_before hstep hG
    exact step_attends hI (reachable_data hr hbefore).receives (reachable_atHome hr) hbefore hC
      hstep
  · intro hattends halive hlives hquiet uuid hlt
    have hreach : (system size f).Reachable m := .of_run hrun
    have hrest := quiet_resting hreach hneg halive hlives hquiet
    rw [hrest.destroyed_iff (reachable_data hreach hneg).dispatches hlt]
    refine ⟨And.right, fun hio => ⟨fun hmem => ?_, hio⟩⟩
    exact hrest.reads_of_attended (hattends uuid hmem) hio.1

theorem sessions_released_hangsUp : ∃ m,
    (system 2 fun msg => (msg.2, msg.1)).run init hangsUp = some m ∧
      ((∀ pre s, pre <+: hangsUp →
        (system 2 fun msg => (msg.2, msg.1)).run init pre = some s → s.Attends 2) ↔
        ∀ pre a s, pre ++ [a] <+: hangsUp →
          (system 2 fun msg => (msg.2, msg.1)).run init pre = some s → s.InTime 2 a) ∧
      (m.fate = .alive → m.logic.destructor = .alive →
        m.Quiet 2 (fun msg => (msg.2, msg.1)) → m.Destroyed 0) := by
  obtain ⟨m, hm, _, hfresh, hses, hneg, hio⟩ := hangsUp_run
  obtain ⟨hiff, hreleased⟩ := sessions_released hm hneg
  have hattends : m.Attends 2 := by
    intro uuid hmem
    rw [hses] at hmem
    exact absurd hmem (Finset.notMem_empty uuid)
  exact ⟨m, hm, hiff, fun halive hlives hquiet =>
    (hreleased hattends halive hlives hquiet 0 (by rw [hfresh]; decide)).mpr hio⟩

end Machine
end ServerV3Mt
end AsyncEchoServer
