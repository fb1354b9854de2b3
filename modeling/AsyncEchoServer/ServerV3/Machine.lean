import AsyncEchoServer.Logic.Handover
import AsyncEchoServer.Logic.Process

/-!
# `ServerV3/Machine.lean` — the single-threaded server as one machine

The network thread runs the handlers of all sessions, one at a time; the worker runs `DealMsg`;
they share the message nodes and the logic queue. A `HandleRead` takes a step for every pass of
its loop, and one for every step of the `PostMsgtoQueue` a pass calls, so the worker can get in
between any two of them. Whatever the network thread still has to do of a call is at
`producers 0`, and no handler goes on before that is `idle`.

A `LogicNode` is two pointers: the session, by its uuid, and the message node, by its address.
What the worker calls back with is read off the node when it gets there. The JSON part of the
callback is a parameter `f` here, from a message to the text and id of its reply.

The sessions are there from the start: one that has not been accepted yet is one that has not
received anything.
-/

set_option autoImplicit false

namespace AsyncEchoServer
namespace ServerV3

/-- A session's uuid, and the address of a message node. -/
abbrev NodeRef := Nat × Nat

/-- What a session is to both threads. -/
structure Conn where
  session : Session
  /-- reads outstanding -/
  reads : Nat
  sendQueue : SendQueue SendNode
  /-- the bytes received so far -/
  received : Bytes
  /-- the replies `Send` was called with -/
  sends : List (Bytes × Short)

/-- Where the network thread is. -/
inductive NetPos where
  /-- in `io_context::run` -/
  | idle
  /-- at the head of the loop of a session's `HandleRead` -/
  | inHandleRead (uuid : Nat) (data : Bytes) (copyLen : Int) (bytesTransferred : Nat)

/-- Where a pass leaves the network thread. -/
def nextPos (uuid : Nat) (data : Bytes) (turn : Turn Short) : NetPos :=
  match turn.2 with
  | .again l => .inHandleRead uuid data l.copyLen l.bytesTransferred
  | .leave _ => .idle

structure Machine where
  heap : Heap Short
  conns : Nat → Conn
  net : NetPos
  logic : LogicSystem NodeRef CallBackArgs
  fate : Fate

/-- Look up `_function_call_back` for a node, and what the callback is called with. -/
def findCallBack (heap : Heap Short) (n : NodeRef) : Option CallBackArgs :=
  heap[n.2]?.bind fun node => LogicNode.findCallBack { session := n.1, recvNode := node }

namespace Machine

/-- `Start()` has been called on every session. -/
def init : Machine where
  heap := []
  conns := fun _ =>
    { session := .fresh receiver, reads := 1, sendQueue := .fresh, received := [], sends := [] }
  net := .idle
  logic := .init
  fate := .alive

def setConn (m : Machine) (uuid : Nat) (c : Conn) : Machine :=
  { m with conns := Function.update m.conns uuid c }

def logicStep (m : Machine) (a : LogicSystem.Act NodeRef) :
    Option (LogicSystem NodeRef CallBackArgs) :=
  LogicSystem.step .notifyUnderLock (findCallBack m.heap) m.logic a

/-- No handler is running, and no call of `PostMsgtoQueue`. -/
def networkFree (m : Machine) : Bool :=
  match m.net, m.logic.producers 0 with
  | .idle, .idle => true
  | _, _ => false

/-- A read of the session completes with a chunk. -/
def handleRead (uuid : Nat) (chunk : Bytes) (m : Machine) : Option Machine :=
  let c := m.conns uuid
  if m.networkFree = true ∧ c.reads ≠ 0 ∧ chunk ≠ [] ∧ chunk.length ≤ maxLength then
    some { m.setConn uuid { c with reads := c.reads - 1, received := c.received ++ chunk } with
      net := .inHandleRead uuid (readBuffer chunk) 0 chunk.length }
  else none

/-- … or with an error. -/
def handleReadError (uuid : Nat) (m : Machine) : Option Machine :=
  let c := m.conns uuid
  if m.networkFree = true ∧ c.reads ≠ 0 then some (m.setConn uuid { c with reads := c.reads - 1 })
  else none

/-- The next pass of the running `HandleRead`. -/
def pass (m : Machine) : Option Machine :=
  match m.net, m.logic.producers 0 with
  | .inHandleRead uuid data copyLen bytesTransferred, .idle =>
    if 0 < bytesTransferred then
      let c := m.conns uuid
      let turn := loopBody receiver data
        { heap := m.heap, session := c.session, copyLen := copyLen,
          bytesTransferred := bytesTransferred }
      let l := Turn.after turn
      let logic :=
        match delivered turn.1 with
        | [] => some m.logic
        | p :: _ => m.logicStep (.post 0 (uuid, p))
      logic.map fun logic =>
        { heap := l.heap
          conns := Function.update m.conns uuid
            { c with session := l.session, reads := c.reads + armed turn.1 }
          net := nextPos uuid data turn
          logic := logic
          fate :=
            match turn.2 with
            | .leave (_, .threw) => .terminated
            | .leave (_, .undefined) => .undefined
            | _ => m.fate }
    else some { m with net := .idle }
  | _, _ => none

/-- A write of the session's completes. -/
def handleWrite (uuid i : Nat) (error : Bool) (m : Machine) : Option Machine :=
  let c := m.conns uuid
  if m.networkFree = true then
    (c.sendQueue.step (.handleWrite i error)).map fun q => m.setConn uuid { c with sendQueue := q }
  else none

/-- The next step of the worker; in a callback, its `Send` and return. -/
def workerStep (f : Short × Bytes → Bytes × Short) (m : Machine) : Option Machine :=
  match m.logic.worker with
  | .running _ (uuid, msg) _ =>
    let c := m.conns uuid
    let reply := f msg
    match sendString reply.1 reply.2 c.sendQueue with
    | some (.returned, q) =>
      (m.logicStep .worker).map fun logic =>
        { m.setConn uuid { c with sendQueue := q, sends := c.sends ++ [reply] } with
          logic := logic }
    | some (.threw, _) => some { m with fate := .terminated }
    | some (.undefined, _) | none => some { m with fate := .undefined }
  | _ => (m.logicStep .worker).map fun logic => { m with logic := logic }

inductive Act where
  | handleRead (uuid : Nat) (chunk : Bytes)
  | handleReadError (uuid : Nat)
  | pass
  | handleWrite (uuid i : Nat) (error : Bool)
  /-- the next step of the network thread in `PostMsgtoQueue` -/
  | post
  | worker
  | spurious
  | destructor

def step (f : Short × Bytes → Bytes × Short) (m : Machine) (a : Act) : Option Machine :=
  if m.fate = .alive then
    match a with
    | .handleRead uuid chunk => m.handleRead uuid chunk
    | .handleReadError uuid => m.handleReadError uuid
    | .pass => m.pass
    | .handleWrite uuid i error => m.handleWrite uuid i error
    | .post => (m.logicStep (.producer 0)).map fun logic => { m with logic := logic }
    | .worker => m.workerStep f
    | .spurious => (m.logicStep .spurious).map fun logic => { m with logic := logic }
    | .destructor => (m.logicStep .destructor).map fun logic => { m with logic := logic }
  else none

def system (f : Short × Bytes → Bytes × Short) : Lib.System Machine Act where
  init := init
  step := step f

/-! ## What a step can do -/

variable {f : Short × Bytes → Bytes × Short} {m m' : Machine}

/-- The variables of a running `HandleRead`. -/
def loopAt (m : Machine) (uuid : Nat) (copyLen : Int) (n : Nat) : Loop Short where
  heap := m.heap
  session := (m.conns uuid).session
  copyLen := copyLen
  bytesTransferred := n

/-- The call of `PostMsgtoQueue` in a pass, if it has handed over a node. -/
def postTurn (m : Machine) (uuid : Nat) (turn : Turn Short) :
    Option (LogicSystem NodeRef CallBackArgs) :=
  match delivered turn.1 with
  | [] => some m.logic
  | p :: _ => m.logicStep (.post 0 (uuid, p))

/-- The session of a running `HandleRead` behind a pass. -/
def connAfter (c : Conn) (turn : Turn Short) : Conn :=
  { c with session := (Turn.after turn).session, reads := c.reads + armed turn.1 }

/-- What becomes of the process in a pass. -/
def fateAfter (m : Machine) (turn : Turn Short) : Fate :=
  match turn.2 with
  | .leave (_, .threw) => .terminated
  | .leave (_, .undefined) => .undefined
  | _ => m.fate

/-- A step of the queue that is no call of `PostMsgtoQueue`. -/
def queueAct : Act → Option (LogicSystem.Act NodeRef)
  | .post => some (.producer 0)
  | .worker => some .worker
  | .spurious => some .spurious
  | .destructor => some .destructor
  | .handleRead _ _ | .handleReadError _ | .pass | .handleWrite _ _ _ => none

/-- The steps of the machine, each with what it finds and what it leaves. -/
inductive StepSpec (f : Short × Bytes → Bytes × Short) (m : Machine) : Act → Machine → Prop where
  | read {uuid : Nat} {chunk : Bytes} (free : m.networkFree = true)
      (listens : (m.conns uuid).reads ≠ 0) (ne : chunk ≠ []) (le : chunk.length ≤ maxLength) :
      StepSpec f m (.handleRead uuid chunk)
        { m.setConn uuid { m.conns uuid with
            reads := (m.conns uuid).reads - 1
            received := (m.conns uuid).received ++ chunk } with
          net := .inHandleRead uuid (readBuffer chunk) 0 chunk.length }
  | readError {uuid : Nat} (free : m.networkFree = true) (listens : (m.conns uuid).reads ≠ 0) :
      StepSpec f m (.handleReadError uuid)
        (m.setConn uuid { m.conns uuid with reads := (m.conns uuid).reads - 1 })
  | turn {uuid n : Nat} {data : Bytes} {copyLen : Int} {turn : Turn Short}
      {logic : LogicSystem NodeRef CallBackArgs} (pos : m.net = .inHandleRead uuid data copyLen n)
      (idle : m.logic.producers 0 = .idle) (left : 0 < n)
      (body : loopBody receiver data (m.loopAt uuid copyLen n) = turn)
      (posted : m.postTurn uuid turn = some logic) :
      StepSpec f m .pass
        { heap := (Turn.after turn).heap
          conns := Function.update m.conns uuid (connAfter (m.conns uuid) turn)
          net := nextPos uuid data turn
          logic := logic
          fate := m.fateAfter turn }
  | passEnd {uuid : Nat} {data : Bytes} {copyLen : Int}
      (pos : m.net = .inHandleRead uuid data copyLen 0) (idle : m.logic.producers 0 = .idle) :
      StepSpec f m .pass { m with net := .idle }
  | write {uuid i : Nat} {error : Bool} {q : SendQueue SendNode} (free : m.networkFree = true)
      (done : (m.conns uuid).sendQueue.step (.handleWrite i error) = some q) :
      StepSpec f m (.handleWrite uuid i error)
        (m.setConn uuid { m.conns uuid with sendQueue := q })
  | replied {n : NodeRef} {uuid : Nat} {msg : Short × Bytes} {d : Bool} {q : SendQueue SendNode}
      {logic : LogicSystem NodeRef CallBackArgs} (pos : m.logic.worker = .running n (uuid, msg) d)
      (sent : sendString (f msg).1 (f msg).2 (m.conns uuid).sendQueue = some (.returned, q))
      (step : m.logicStep .worker = some logic) :
      StepSpec f m .worker
        { m.setConn uuid { m.conns uuid with
            sendQueue := q
            sends := (m.conns uuid).sends ++ [f msg] } with
          logic := logic }
  | sendFailed {n : NodeRef} {uuid : Nat} {msg : Short × Bytes} {d : Bool} {fate : Fate}
      (pos : m.logic.worker = .running n (uuid, msg) d)
      (fails : ∀ q, sendString (f msg).1 (f msg).2 (m.conns uuid).sendQueue ≠
        some (.returned, q)) : StepSpec f m .worker { m with fate := fate }
  | queue {a : Act} {b : LogicSystem.Act NodeRef} {logic : LogicSystem NodeRef CallBackArgs}
      (act : queueAct a = some b) (out : a = .worker → ∀ n c d, m.logic.worker ≠ .running n c d)
      (step : m.logicStep b = some logic) : StepSpec f m a { m with logic := logic }

theorem pass_cases (h : m.pass = some m') : StepSpec f m .pass m' := by
  unfold Machine.pass at h
  split at h
  · rename_i uuid data copyLen n hnet hidle
    split at h
    · rename_i hleft
      obtain ⟨logic, hpost, rfl⟩ := Option.map_eq_some_iff.mp h
      exact .turn hnet hidle hleft rfl hpost
    · rename_i hleft
      obtain rfl : n = 0 := Nat.eq_zero_of_not_pos hleft
      cases h
      exact .passEnd hnet hidle
  · cases h

theorem workerStep_cases (h : m.workerStep f = some m') : StepSpec f m .worker m' := by
  unfold Machine.workerStep at h
  split at h
  · rename_i n uuid msg d hw
    dsimp only at h
    split at h
    · rename_i q hsend
      obtain ⟨logic, hstep, rfl⟩ := Option.map_eq_some_iff.mp h
      exact .replied hw hsend hstep
    · rename_i q hsend
      cases h
      exact .sendFailed hw fun q' hq' => by rw [hsend] at hq'; cases hq'
    · rename_i q hsend
      cases h
      exact .sendFailed hw fun q' hq' => by rw [hsend] at hq'; cases hq'
    · rename_i hsend
      cases h
      exact .sendFailed hw fun q' hq' => by rw [hsend] at hq'; cases hq'
  · rename_i hrun
    obtain ⟨logic, hstep, rfl⟩ := Option.map_eq_some_iff.mp h
    exact .queue rfl (fun _ n c d hw => hrun n c.1 c.2 d hw) hstep

theorem step_cases {a : Act} (h : step f m a = some m') : StepSpec f m a m' ∧ m.fate = .alive := by
  unfold step at h
  split at h
  · rename_i halive
    refine ⟨?_, halive⟩
    cases a with
    | handleRead uuid chunk =>
      simp only [Machine.handleRead] at h
      split at h
      · rename_i hguard
        cases h
        exact .read hguard.1 hguard.2.1 hguard.2.2.1 hguard.2.2.2
      · cases h
    | handleReadError uuid =>
      simp only [Machine.handleReadError] at h
      split at h
      · rename_i hguard
        cases h
        exact .readError hguard.1 hguard.2
      · cases h
    | pass => exact pass_cases h
    | handleWrite uuid i error =>
      simp only [Machine.handleWrite] at h
      split at h
      · rename_i hfree
        obtain ⟨q, hq, rfl⟩ := Option.map_eq_some_iff.mp h
        exact .write hfree hq
      · cases h
    | worker => exact workerStep_cases h
    | post | spurious | destructor =>
      obtain ⟨logic, hstep, rfl⟩ := Option.map_eq_some_iff.mp h
      exact .queue rfl nofun hstep
  · cases h

end Machine
end ServerV3
end AsyncEchoServer
