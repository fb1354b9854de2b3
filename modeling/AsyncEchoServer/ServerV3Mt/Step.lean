import AsyncEchoServer.Logic.Threads
import AsyncEchoServer.ServerV3Mt.Machine

/-!
# `ServerV3Mt/Step.lean` — what a step of the multi-thread server can do

`StepSpec` is the machine's step function read backwards, data included: for every step what it
finds and what it leaves. What has to be known of all threads at once (`ServerV3Mt/Receive.lean`,
`ServerV3Mt/Wire.lean`, `ServerV3Mt/Work.lean`, `ServerV3Mt/Stop.lean`) starts from it, and none of
them looks at the step function again.
-/

set_option autoImplicit false

namespace AsyncEchoServer
namespace ServerV3Mt

open ServerV3 (Conn NodeRef findCallBack sendString)

/-- The session whose handler the thread is in. -/
def PoolPos.session : PoolPos → Option Nat
  | .idle => none
  | .inHandleRead uuid _ _ _ => some uuid
  | .clearing uuid | .clearLocked uuid | .erased uuid => some uuid
  | .writing uuid _ | .writeLocked uuid _ | .written uuid => some uuid

/-- A session nothing has happened to. -/
def untouched : Conn where
  session := .fresh receiver
  reads := 0
  sendQueue := .fresh
  received := []
  sends := []

namespace Machine

variable {size i : Nat} {f : Short × Bytes → Bytes × Short} {m m' : Machine}

/-- The machine behind `Start()`. -/
def accepted (m : Machine) : Machine :=
  { m.setConn m.fresh { m.conns m.fresh with reads := (m.conns m.fresh).reads + 1 } with
    acceptor := .started m.fresh
    fresh := m.fresh + 1 }

/-- The call of `PostMsgToQue` in a pass on thread `i`, if it has handed over a node. -/
def postTurn (m : Machine) (i uuid : Nat) (turn : Turn Short) :
    Option (LogicSystem NodeRef CallBackArgs) :=
  match delivered turn.1 with
  | [] => some m.logic
  | p :: _ => m.logicStep (.post i (uuid, p))

/-- The session of a running `HandleRead` behind a pass. -/
def connAfter (c : Conn) (turn : Turn Short) : Conn :=
  { c with session := (Turn.after turn).session, reads := c.reads + armed turn.1 }

/-- What becomes of the process in a pass. -/
def fateAfter (m : Machine) (turn : Turn Short) : Fate :=
  match turn.2 with
  | .leave (_, .undefined) => .undefined
  | _ => m.fate

/-- The machine behind a pass of `uuid`'s `HandleRead` on thread `i`. -/
def afterTurn (m : Machine) (i uuid : Nat) (data : Bytes) (turn : Turn Short)
    (logic : LogicSystem NodeRef CallBackArgs) : Machine :=
  { (m.setConn uuid (connAfter (m.conns uuid) turn)).moveTo i (nextPos uuid data turn) with
    heap := (Turn.after turn).heap
    logic := logic
    fate := m.fateAfter turn }

/-- A step of the queue that is no call of `PostMsgToQue` and no return from a callback. -/
inductive QueueAct (m : Machine) : Act → LogicSystem.Act NodeRef → Prop where
  | producer {i : Nat} (calling : m.logic.producers i ≠ .idle) :
      QueueAct m (.pool i) (.producer i)
  | worker (out : ∀ n c d, m.logic.worker ≠ .running n c d) : QueueAct m .worker .worker
  | spurious : QueueAct m .spurious .spurious
  | destructor : QueueAct m .destructor .destructor

/-- The steps of the machine, each with what it finds and what it leaves. -/
inductive StepSpec (size : Nat) (f : Short × Bytes → Bytes × Short) (m : Machine) :
    Act → Machine → Prop where
  | accept (pos : m.acceptor = .accepting) : StepSpec size f m (.handleAccept false) m.accepted
  | acceptError (pos : m.acceptor = .accepting) :
      StepSpec size f m (.handleAccept true) { m with fresh := m.fresh + 1 }
  | acceptLock {uuid : Nat} (pos : m.acceptor = .started uuid) (free : m.mutex = none) :
      StepSpec size f m .acceptor { m with acceptor := .locked uuid, mutex := some .acceptor }
  | acceptInsert {uuid : Nat} (pos : m.acceptor = .locked uuid) : StepSpec size f m .acceptor
      { m with acceptor := .inserted uuid, sessions := insert uuid m.sessions }
  | acceptUnlock {uuid : Nat} (pos : m.acceptor = .inserted uuid) :
      StepSpec size f m .acceptor { m with acceptor := .accepting, mutex := none }
  | read {uuid : Nat} {chunk : Bytes} (free : m.free (ioService size uuid) = true)
      (listens : (m.conns uuid).reads ≠ 0) (ne : chunk ≠ []) (le : chunk.length ≤ maxLength) :
      StepSpec size f m (.handleRead uuid chunk)
        ((m.setConn uuid { m.conns uuid with
            reads := (m.conns uuid).reads - 1
            received := (m.conns uuid).received ++ chunk }).moveTo (ioService size uuid)
          (.inHandleRead uuid (readBuffer chunk) 0 chunk.length))
  | readError {uuid : Nat} (free : m.free (ioService size uuid) = true)
      (listens : (m.conns uuid).reads ≠ 0) : StepSpec size f m (.handleReadError uuid)
        ((m.setConn uuid { m.conns uuid with
            reads := (m.conns uuid).reads - 1
            sendQueue := { (m.conns uuid).sendQueue with bClose := true } }).moveTo
          (ioService size uuid) (.clearing uuid))
  | writeError {uuid j : Nat} {w : Queued SendNode} {es : List Effect} {q : SendQueue SendNode}
      (free : m.free (ioService size uuid) = true)
      (found : (m.conns uuid).sendQueue.writes[j]? = some w)
      (done : { (m.conns uuid).sendQueue with
        writes := (m.conns uuid).sendQueue.writes.eraseIdx j }.handleWrite w true = some (es, q)) :
      StepSpec size f m (.handleWrite uuid j true)
        ((m.setConn uuid { m.conns uuid with sendQueue := q }).moveTo (ioService size uuid)
          (.clearing uuid))
  | write {uuid j : Nat} {w : Queued SendNode} (free : m.free (ioService size uuid) = true)
      (found : (m.conns uuid).sendQueue.writes[j]? = some w) :
      StepSpec size f m (.handleWrite uuid j false)
        ((m.setConn uuid { m.conns uuid with
            sendQueue := { (m.conns uuid).sendQueue with
              writes := (m.conns uuid).sendQueue.writes.eraseIdx j } }).moveTo
          (ioService size uuid) (.writing uuid w))
  | turn {i uuid n : Nat} {data : Bytes} {copyLen : Int} {turn : Turn Short}
      {logic : LogicSystem NodeRef CallBackArgs} (pos : m.pool i = .inHandleRead uuid data copyLen n)
      (idle : m.logic.producers i = .idle) (left : 0 < n)
      (body : loopBody receiver data (m.loopAt uuid copyLen n) = turn)
      (posted : m.postTurn i uuid turn = some logic) :
      StepSpec size f m (.pool i) (m.afterTurn i uuid data turn logic)
  | passEnd {i uuid : Nat} {data : Bytes} {copyLen : Int}
      (pos : m.pool i = .inHandleRead uuid data copyLen 0)
      (idle : m.logic.producers i = .idle) : StepSpec size f m (.pool i) (m.moveTo i .idle)
  | clearLock {i uuid : Nat} (pos : m.pool i = .clearing uuid)
      (idle : m.logic.producers i = .idle) (free : m.mutex = none) : StepSpec size f m (.pool i)
        { m.moveTo i (.clearLocked uuid) with mutex := some (.pool i) }
  | clearErase {i uuid : Nat} (pos : m.pool i = .clearLocked uuid)
      (idle : m.logic.producers i = .idle) : StepSpec size f m (.pool i)
        { m.moveTo i (.erased uuid) with sessions := m.sessions.erase uuid }
  | clearUnlock {i uuid : Nat} (pos : m.pool i = .erased uuid)
      (idle : m.logic.producers i = .idle) : StepSpec size f m (.pool i)
        { m.moveTo i .idle with mutex := none }
  | writeLock {i uuid : Nat} {w : Queued SendNode} (pos : m.pool i = .writing uuid w)
      (idle : m.logic.producers i = .idle) (free : m.sendLocks uuid = none) :
      StepSpec size f m (.pool i)
        ((m.moveTo i (.writeLocked uuid w)).setSendLock uuid (some (.pool i)))
  | written {i uuid : Nat} {w : Queued SendNode} {es : List Effect} {q : SendQueue SendNode}
      (pos : m.pool i = .writeLocked uuid w) (idle : m.logic.producers i = .idle)
      (done : (m.conns uuid).sendQueue.handleWrite w false = some (es, q)) :
      StepSpec size f m (.pool i)
        ((m.setConn uuid { m.conns uuid with sendQueue := q }).moveTo i (.written uuid))
  | writeFailed {i uuid : Nat} {w : Queued SendNode} (pos : m.pool i = .writeLocked uuid w)
      (idle : m.logic.producers i = .idle)
      (fails : (m.conns uuid).sendQueue.handleWrite w false = none) :
      StepSpec size f m (.pool i) { m with fate := .undefined }
  | writeUnlock {i uuid : Nat} (pos : m.pool i = .written uuid)
      (idle : m.logic.producers i = .idle) : StepSpec size f m (.pool i)
        ((m.moveTo i .idle).setSendLock uuid none)
  | sendLock {n : NodeRef} {uuid : Nat} {msg : Short × Bytes} {d : Bool}
      (pos : m.logic.worker = .running n (uuid, msg) d) (sender : m.sender = .atLock)
      (free : m.sendLocks uuid = none) : StepSpec size f m .worker
        { m.setSendLock uuid (some .worker) with sender := .locked }
  | send {n : NodeRef} {uuid : Nat} {msg : Short × Bytes} {d : Bool} {q : SendQueue SendNode}
      (pos : m.logic.worker = .running n (uuid, msg) d) (sender : m.sender = .locked)
      (sent : sendString (f msg).1 (f msg).2 (m.conns uuid).sendQueue = some (.returned, q)) :
      StepSpec size f m .worker
        { m.setConn uuid { m.conns uuid with
            sendQueue := q
            sends := (m.conns uuid).sends ++ [f msg] } with
          sender := .sent }
  | sendFailed {n : NodeRef} {uuid : Nat} {msg : Short × Bytes} {d : Bool} {fate : Fate}
      (pos : m.logic.worker = .running n (uuid, msg) d) (sender : m.sender = .locked)
      (fails : ∀ q, sendString (f msg).1 (f msg).2 (m.conns uuid).sendQueue ≠
        some (.returned, q)) (dead : fate ≠ .alive) :
      StepSpec size f m .worker { m with fate := fate }
  | sendUnlock {n : NodeRef} {uuid : Nat} {msg : Short × Bytes} {d : Bool}
      (pos : m.logic.worker = .running n (uuid, msg) d) (sender : m.sender = .sent) :
      StepSpec size f m .worker { m.setSendLock uuid none with sender := .returned }
  | callbackReturn {n : NodeRef} {c : CallBackArgs} {d : Bool}
      {logic : LogicSystem NodeRef CallBackArgs} (pos : m.logic.worker = .running n c d)
      (sender : m.sender = .returned) (step : m.logicStep .worker = some logic) :
      StepSpec size f m .worker { m with logic := logic, sender := .atLock }
  | queue {a : Act} {b : LogicSystem.Act NodeRef} {logic : LogicSystem NodeRef CallBackArgs}
      (act : QueueAct m a b) (step : m.logicStep b = some logic) :
      StepSpec size f m a { m with logic := logic }

theorem acceptorStep_cases (h : m.acceptorStep = some m') : StepSpec size f m .acceptor m' := by
  unfold acceptorStep at h
  cases hpos : m.acceptor with
  | accepting =>
    rw [hpos] at h
    cases h
  | started uuid =>
    simp only [hpos, Option.ite_none_right_eq_some] at h
    obtain ⟨hfree, hm⟩ := h
    cases hm
    exact .acceptLock hpos hfree
  | locked uuid =>
    rw [hpos] at h
    cases h
    exact .acceptInsert hpos
  | inserted uuid =>
    rw [hpos] at h
    cases h
    exact .acceptUnlock hpos

theorem handleWrite_cases {uuid j : Nat} {error : Bool}
    (h : m.handleWrite size uuid j error = some m') :
    StepSpec size f m (.handleWrite uuid j error) m' := by
  simp only [Machine.handleWrite] at h
  cases hw : (m.conns uuid).sendQueue.writes[j]? with
  | none =>
    rw [hw] at h
    cases h
  | some w =>
    simp only [hw, Option.ite_none_right_eq_some] at h
    obtain ⟨hfree, h⟩ := h
    cases error with
    | true =>
      rw [if_pos rfl] at h
      obtain ⟨⟨es, q⟩, hdone, rfl⟩ := Option.map_eq_some_iff.mp h
      exact .writeError hfree hw hdone
    | false =>
      rw [if_neg Bool.false_ne_true] at h
      cases h
      exact .write hfree hw

theorem pass_cases {uuid n : Nat} {data : Bytes} {copyLen : Int}
    (hpos : m.pool i = .inHandleRead uuid data copyLen n) (hidle : m.logic.producers i = .idle)
    (h : m.pass i uuid data copyLen n = some m') : StepSpec size f m (.pool i) m' := by
  unfold Machine.pass at h
  split at h
  · rename_i hleft
    obtain ⟨logic, hpost, rfl⟩ := Option.map_eq_some_iff.mp h
    exact .turn hpos hidle hleft rfl hpost
  · rename_i hleft
    obtain rfl : n = 0 := Nat.eq_zero_of_not_pos hleft
    cases h
    exact .passEnd hpos hidle

theorem poolStep_cases (h : m.poolStep i = some m') : StepSpec size f m (.pool i) m' := by
  unfold Machine.poolStep at h
  split at h
  · rename_i hidle
    cases hpos : m.pool i with
    | idle =>
      rw [hpos] at h
      cases h
    | inHandleRead uuid data copyLen n =>
      rw [hpos] at h
      exact pass_cases hpos hidle h
    | clearing uuid =>
      simp only [hpos, Option.ite_none_right_eq_some] at h
      obtain ⟨hfree, hm⟩ := h
      cases hm
      exact .clearLock hpos hidle hfree
    | clearLocked uuid =>
      rw [hpos] at h
      cases h
      exact .clearErase hpos hidle
    | erased uuid =>
      rw [hpos] at h
      cases h
      exact .clearUnlock hpos hidle
    | writing uuid w =>
      simp only [hpos, Option.ite_none_right_eq_some] at h
      obtain ⟨hfree, hm⟩ := h
      cases hm
      exact .writeLock hpos hidle hfree
    | writeLocked uuid w =>
      simp only [hpos] at h
      split at h
      · rename_i es q hdone
        cases h
        exact .written hpos hidle hdone
      · rename_i hfails
        cases h
        exact .writeFailed hpos hidle hfails
    | written uuid =>
      rw [hpos] at h
      cases h
      exact .writeUnlock hpos hidle
  · rename_i hcalling
    obtain ⟨logic, hstep, rfl⟩ := Option.map_eq_some_iff.mp h
    exact .queue (.producer fun hidle => hcalling hidle) hstep

theorem workerStep_cases (h : m.workerStep f = some m') : StepSpec size f m .worker m' := by
  unfold Machine.workerStep at h
  split at h
  · rename_i n uuid msg d hw
    split at h
    · rename_i hs
      simp only [Option.ite_none_right_eq_some] at h
      obtain ⟨hfree, hm⟩ := h
      cases hm
      exact .sendLock hw hs hfree
    · rename_i hs
      dsimp only at h
      split at h
      · rename_i q hsend
        cases h
        exact .send hw hs hsend
      · rename_i hsend
        cases h
        exact .sendFailed hw hs (fun q' hq' => by rw [hsend] at hq'; cases hq') nofun
      · rename_i hsend
        cases h
        exact .sendFailed hw hs (fun q' hq' => by rw [hsend] at hq'; cases hq') nofun
      · rename_i hsend
        cases h
        exact .sendFailed hw hs (fun q' hq' => by rw [hsend] at hq'; cases hq') nofun
    · rename_i hs
      cases h
      exact .sendUnlock hw hs
    · rename_i hs
      obtain ⟨logic, hstep, rfl⟩ := Option.map_eq_some_iff.mp h
      exact .callbackReturn hw hs hstep
  · rename_i hrun
    obtain ⟨logic, hstep, rfl⟩ := Option.map_eq_some_iff.mp h
    exact .queue (.worker fun n c d hw => hrun n c.1 c.2 d hw) hstep

/-- **What a step of the machine can do.** -/
theorem step_cases {a : Act} (h : m.step size f a = some m') :
    StepSpec size f m a m' ∧ m.fate = .alive := by
  unfold step at h
  split at h
  · rename_i halive
    refine ⟨?_, halive⟩
    cases a with
    | handleAccept error =>
      simp only [Machine.handleAccept] at h
      split at h
      · rename_i hpos
        cases h
        exact .acceptError hpos
      · rename_i hpos
        cases h
        exact .accept hpos
      · cases h
    | acceptor => exact acceptorStep_cases h
    | handleRead uuid chunk =>
      simp only [Machine.handleRead, Option.ite_none_right_eq_some] at h
      obtain ⟨⟨hfree, hlistens, hne, hle⟩, hm⟩ := h
      cases hm
      exact .read hfree hlistens hne hle
    | handleReadError uuid =>
      simp only [Machine.handleReadError, Option.ite_none_right_eq_some] at h
      obtain ⟨⟨hfree, hlistens⟩, hm⟩ := h
      cases hm
      exact .readError hfree hlistens
    | handleWrite uuid j error => exact handleWrite_cases h
    | pool j => exact poolStep_cases h
    | worker => exact workerStep_cases h
    | spurious =>
      obtain ⟨logic, hstep, rfl⟩ := Option.map_eq_some_iff.mp h
      exact .queue .spurious hstep
    | destructor =>
      obtain ⟨logic, hstep, rfl⟩ := Option.map_eq_some_iff.mp h
      exact .queue .destructor hstep
  · cases h

/-! ## Who works on what -/

/-- A thread works only on sessions that are served on it, and nobody works on a session that has
not been accepted. -/
structure AtHome (size : Nat) (m : Machine) : Prop where
  handlers : ∀ i uuid, (m.pool i).session = some uuid → ioService size uuid = i ∧ uuid < m.fresh
  pending : ∀ i, ∀ n ∈ m.logic.pendingPost i, ioService size n.1 = i ∧ n.1 < m.fresh
  queued : ∀ n ∈ m.logic.msgQueue, n.1 < m.fresh
  running : ∀ n c d, m.logic.worker = .running n c d → c.1 < m.fresh
  untouched : ∀ s, m.fresh ≤ s → m.conns s = untouched

theorem init_atHome : AtHome size init where
  handlers _ _ h := by cases h
  pending _ n hn := absurd hn List.not_mem_nil
  queued n hn := absurd hn List.not_mem_nil
  running _ _ _ h := by cases h
  untouched _ _ := rfl

theorem findCallBack_fst {heap : Heap Short} {n : NodeRef} {c : CallBackArgs}
    (h : findCallBack heap n = some c) : c.1 = n.1 := by
  obtain ⟨node, _, hcall⟩ := Option.bind_eq_some_iff.mp h
  unfold LogicNode.findCallBack at hcall
  split at hcall <;> cases hcall
  rfl

/-- Thread `i` moves to a position in which it works on the session it worked on, or on none. -/
theorem AtHome.moveTo {p : PoolPos} (h : m.AtHome size)
    (hp : ∀ uuid, p.session = some uuid → ioService size uuid = i ∧ uuid < m.fresh) :
    ∀ j uuid, ((m.moveTo i p).pool j).session = some uuid →
      ioService size uuid = j ∧ uuid < m.fresh := by
  intro j uuid hj
  by_cases hji : j = i
  · subst hji
    exact hp uuid (by rwa [show (m.moveTo j p).pool j = p from Function.update_self ..] at hj)
  · exact h.handlers j uuid
      (by rwa [show (m.moveTo i p).pool j = m.pool j from Function.update_of_ne hji ..] at hj)

/-- … and changes that session, which is not a new one. -/
theorem AtHome.update (h : m.AtHome size) {uuid : Nat} (hlt : uuid < m.fresh) (c : Conn) :
    ∀ s, m.fresh ≤ s → Function.update m.conns uuid c s = ServerV3Mt.untouched := by
  intro s hs
  rw [Function.update_of_ne (Nat.ne_of_gt (Nat.lt_of_lt_of_le hlt hs))]
  exact h.untouched s hs

/-- A session with a read outstanding has been accepted. -/
theorem AtHome.lt_of_reads (h : m.AtHome size) {uuid : Nat} (hreads : (m.conns uuid).reads ≠ 0) :
    uuid < m.fresh := by
  by_contra hge
  rw [h.untouched uuid (Nat.not_lt.mp hge)] at hreads
  exact hreads rfl

theorem AtHome.lt_of_writes (h : m.AtHome size) {uuid j : Nat} {w : Queued SendNode}
    (hw : (m.conns uuid).sendQueue.writes[j]? = some w) : uuid < m.fresh := by
  by_contra hge
  rw [h.untouched uuid (Nat.not_lt.mp hge)] at hw
  cases hw

/-- A step of the logic queue that is no call of `PostMsgToQue`. -/
theorem AtHome.logicStep {b : LogicSystem.Act NodeRef} {sender : SendPos}
    {logic : LogicSystem NodeRef CallBackArgs} (h : m.AtHome size)
    (hstep : m.logicStep b = some logic) (hpost : ∀ i n, b ≠ .post i n) :
    AtHome size { m with logic := logic, sender := sender } where
  handlers := h.handlers
  untouched := h.untouched
  pending j n hn := by
    by_cases hb : ∃ i, b = .producer i
    · obtain ⟨i, rfl⟩ := hb
      have hprod : m.logic.producerStep .unlockFirst i = some logic := hstep
      obtain ⟨hpend, hothers⟩ := LogicSystem.producerStep_pending hprod
      by_cases hji : j = i
      · subst hji
        cases hpend with
        | stays pend que post => exact h.pending j n (by rwa [← pend])
        | pushed k pend done que post =>
          rw [show ({ m with logic := logic, sender := sender } : Machine).logic.pendingPost j = []
            from done] at hn
          exact absurd hn List.not_mem_nil
      · exact h.pending j n (by rwa [← hothers j hji])
    · obtain ⟨hpend, _⟩ := LogicSystem.step_pending hstep hpost fun i heq => hb ⟨i, heq⟩
      exact h.pending j n (by rwa [← hpend j])
  queued n hn := by
    by_cases hb : ∃ i, b = .producer i
    · obtain ⟨i, rfl⟩ := hb
      have hprod : m.logic.producerStep .unlockFirst i = some logic := hstep
      obtain ⟨hpend, _⟩ := LogicSystem.producerStep_pending hprod
      cases hpend with
      | stays pend que post => exact h.queued n (by rwa [← que])
      | pushed k pend done que post =>
        rw [show ({ m with logic := logic, sender := sender } : Machine).logic.msgQueue = _
          from que, List.mem_append, List.mem_singleton] at hn
        rcases hn with hn | rfl
        · exact h.queued n hn
        · exact (h.pending i n (by rw [pend]; exact List.mem_singleton_self n)).2
    · obtain ⟨_, _, hque⟩ := LogicSystem.step_pending hstep hpost fun i heq => hb ⟨i, heq⟩
      exact h.queued n (hque n hn)
  running n c d hw := by
    by_cases hb : b = .worker
    · subst hb
      obtain ⟨hmem, hfind⟩ := LogicSystem.workerStep_running hstep hw
      rw [findCallBack_fst hfind]
      exact h.queued n hmem
    · exact h.running n c d (LogicSystem.step_worker_running hstep hb hw)

/-- A pass, with the call of `PostMsgToQue` in it. -/
theorem AtHome.turn {uuid : Nat} {data : Bytes} {turn : Turn Short}
    {logic : LogicSystem NodeRef CallBackArgs} (h : m.AtHome size)
    (hpos : (m.pool i).session = some uuid) (hpost : m.postTurn i uuid turn = some logic) :
    AtHome size (m.afterTurn i uuid data turn logic) := by
  obtain ⟨hhome, hlt⟩ := h.handlers i uuid hpos
  have hnext : ∀ u, (nextPos uuid data turn).session = some u →
      ioService size u = i ∧ u < m.fresh := by
    intro u hu
    have hself : u = uuid := by
      unfold nextPos at hu
      split at hu
      · exact (Option.some.inj hu).symm
      · split at hu
        · exact (Option.some.inj hu).symm
        · cases hu
    rw [hself]
    exact ⟨hhome, hlt⟩
  have hlogic : (∀ j, ∀ n ∈ logic.pendingPost j, ioService size n.1 = j ∧ n.1 < m.fresh) ∧
      logic.msgQueue = m.logic.msgQueue ∧ logic.worker = m.logic.worker := by
    unfold postTurn at hpost
    split at hpost
    · cases hpost
      exact ⟨h.pending, rfl, rfl⟩
    · obtain ⟨_, hself, hque, _, hworker, hothers⟩ := LogicSystem.post_pending hpost
      refine ⟨fun j n hn => ?_, hque, hworker⟩
      by_cases hji : j = i
      · rw [hji, hself, List.mem_singleton] at hn
        rw [hn, hji]
        exact ⟨hhome, hlt⟩
      · exact h.pending j n (by rwa [← hothers j hji])
  obtain ⟨hpend, hque, hworker⟩ := hlogic
  exact
    { handlers := h.moveTo hnext
      pending := hpend
      queued := fun n hn => h.queued n (hque ▸ hn)
      running := fun n c d hw => h.running n c d (hworker.symm.trans hw)
      untouched := h.update hlt _ }

/-- A step that leaves the queue as it is. -/
theorem AtHome.of_logic (h : m.AtHome size) (hlogic : m'.logic = m.logic)
    (hfresh : m.fresh ≤ m'.fresh)
    (hhandlers : ∀ j uuid, (m'.pool j).session = some uuid →
      ioService size uuid = j ∧ uuid < m.fresh)
    (huntouched : ∀ s, m'.fresh ≤ s → m'.conns s = ServerV3Mt.untouched) : m'.AtHome size where
  handlers j uuid hj :=
    ⟨(hhandlers j uuid hj).1, Nat.lt_of_lt_of_le (hhandlers j uuid hj).2 hfresh⟩
  pending j n hn := by
    rw [hlogic] at hn
    exact ⟨(h.pending j n hn).1, Nat.lt_of_lt_of_le (h.pending j n hn).2 hfresh⟩
  queued n hn := by
    rw [hlogic] at hn
    exact Nat.lt_of_lt_of_le (h.queued n hn) hfresh
  running n c d hw := by
    rw [hlogic] at hw
    exact Nat.lt_of_lt_of_le (h.running n c d hw) hfresh
  untouched := huntouched

/-- A pool thread that has finished with its session, or goes on with it. -/
theorem AtHome.goesOn {uuid : Nat} {p : PoolPos} (h : m.AtHome size)
    (hpos : (m.pool i).session = some uuid) (hp : ∀ u, p.session = some u → u = uuid) :
    ∀ j u, ((m.moveTo i p).pool j).session = some u → ioService size u = j ∧ u < m.fresh := by
  refine h.moveTo fun u hu => ?_
  rw [hp u hu]
  exact h.handlers i uuid hpos

theorem step_atHome {a : Act} (h : m.AtHome size) (hstep : m.step size f a = some m') :
    m'.AtHome size := by
  obtain ⟨hspec, _⟩ := step_cases hstep
  have hstarts : ∀ {uuid : Nat} {p : PoolPos}, uuid < m.fresh →
      (∀ u, p.session = some u → u = uuid) → ∀ j u,
        ((m.moveTo (ioService size uuid) p).pool j).session = some u →
          ioService size u = j ∧ u < m.fresh := by
    intro uuid p hlt hp
    refine h.moveTo fun u hu => ?_
    rw [hp u hu]
    exact ⟨rfl, hlt⟩
  cases hspec with
  | accept pos =>
    refine h.of_logic rfl (Nat.le_succ _) h.handlers fun s hs => ?_
    show Function.update m.conns m.fresh _ s = _
    rw [Function.update_of_ne (Nat.ne_of_gt hs)]
    exact h.untouched s (Nat.le_of_succ_le hs)
  | acceptError pos =>
    exact h.of_logic rfl (Nat.le_succ _) h.handlers
      fun s hs => h.untouched s (Nat.le_of_succ_le hs)
  | acceptLock pos free => exact h.of_logic rfl (Nat.le_refl _) h.handlers h.untouched
  | acceptInsert pos => exact h.of_logic rfl (Nat.le_refl _) h.handlers h.untouched
  | acceptUnlock pos => exact h.of_logic rfl (Nat.le_refl _) h.handlers h.untouched
  | read free listens ne le =>
    have hlt := h.lt_of_reads listens
    exact h.of_logic rfl (Nat.le_refl _)
      (hstarts hlt fun u hu => (Option.some.inj hu).symm) (h.update hlt _)
  | readError free listens =>
    have hlt := h.lt_of_reads listens
    exact h.of_logic rfl (Nat.le_refl _)
      (hstarts hlt fun u hu => (Option.some.inj hu).symm) (h.update hlt _)
  | writeError free found done =>
    have hlt := h.lt_of_writes found
    exact h.of_logic rfl (Nat.le_refl _)
      (hstarts hlt fun u hu => (Option.some.inj hu).symm) (h.update hlt _)
  | write free found =>
    have hlt := h.lt_of_writes found
    exact h.of_logic rfl (Nat.le_refl _)
      (hstarts hlt fun u hu => (Option.some.inj hu).symm) (h.update hlt _)
  | turn pos idle left body posted => exact h.turn (by rw [pos]; rfl) posted
  | passEnd pos idle =>
    exact h.of_logic rfl (Nat.le_refl _)
      (h.goesOn (by rw [pos]; rfl) fun u hu => by cases hu) h.untouched
  | clearLock pos idle free =>
    exact h.of_logic rfl (Nat.le_refl _)
      (h.goesOn (by rw [pos]; rfl) fun u hu => (Option.some.inj hu).symm) h.untouched
  | clearErase pos idle =>
    exact h.of_logic rfl (Nat.le_refl _)
      (h.goesOn (by rw [pos]; rfl) fun u hu => (Option.some.inj hu).symm) h.untouched
  | clearUnlock pos idle =>
    exact h.of_logic rfl (Nat.le_refl _)
      (h.goesOn (by rw [pos]; rfl) fun u hu => by cases hu) h.untouched
  | writeLock pos idle free =>
    exact h.of_logic rfl (Nat.le_refl _)
      (h.goesOn (by rw [pos]; rfl) fun u hu => (Option.some.inj hu).symm) h.untouched
  | @written i uuid w es q pos idle done =>
    have hses : (m.pool i).session = some uuid := by rw [pos]; rfl
    exact h.of_logic rfl (Nat.le_refl _)
      (h.goesOn hses fun u hu => (Option.some.inj hu).symm) (h.update (h.handlers i uuid hses).2 _)
  | writeFailed pos idle fails => exact h.of_logic rfl (Nat.le_refl _) h.handlers h.untouched
  | writeUnlock pos idle =>
    exact h.of_logic rfl (Nat.le_refl _)
      (h.goesOn (by rw [pos]; rfl) fun u hu => by cases hu) h.untouched
  | sendLock pos sender free => exact h.of_logic rfl (Nat.le_refl _) h.handlers h.untouched
  | send pos sender sent =>
    exact h.of_logic rfl (Nat.le_refl _) h.handlers (h.update (h.running _ _ _ pos) _)
  | sendFailed pos sender fails dead =>
    exact h.of_logic rfl (Nat.le_refl _) h.handlers h.untouched
  | sendUnlock pos sender => exact h.of_logic rfl (Nat.le_refl _) h.handlers h.untouched
  | callbackReturn pos sender step => exact h.logicStep step nofun
  | queue act step =>
    refine h.logicStep step fun j n heq => ?_
    subst heq
    cases act

theorem reachable_atHome (h : (system size f).Reachable m) : m.AtHome size :=
  h.invariant (I := AtHome size) init_atHome step_atHome

end Machine
end ServerV3Mt
end AsyncEchoServer
