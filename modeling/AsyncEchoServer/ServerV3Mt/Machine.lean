import Mathlib.Data.Finset.Basic
import AsyncEchoServer.ServerV3.Machine

/-!
# `ServerV3Mt/Machine.lean` — the multi-thread server as one machine

Three kinds of threads. The acceptor runs `HandleAccept`. A pool thread runs the handlers of the
sessions whose socket is on its `io_context`, one at a time. The worker runs `DealMsg`, and in it
the callback, and in that `Send`. Each takes one step at a time; a step is what happens between two
operations on a mutex, or one pass of the loop of `HandleRead`.

The mutexes are `LogicSystem::_mutex`, which is part of the logic queue, `CServer::_mutex`, and a
`_send_lock` for every session. A thread is in a critical section by its position, and the mutexes
are kept apart from the positions: that the two agree is a theorem (`ServerV3Mt/Locking.lean`).

The JSON part of the callback is a parameter `f`, as in `ServerV3/Machine.lean`.
-/

set_option autoImplicit false

namespace AsyncEchoServer
namespace ServerV3Mt

open ServerV3 (Conn NodeRef findCallBack sendString)

/-- Where the acceptor is in `HandleAccept`. -/
inductive AcceptPos where
  /-- `async_accept` is outstanding -/
  | accepting
  /-- behind `Start()` -/
  | started (uuid : Nat)
  | locked (uuid : Nat)
  /-- behind the insert, still holding `_mutex` -/
  | inserted (uuid : Nat)
  deriving Repr, DecidableEq

inductive Thread where
  | acceptor
  | pool (i : Nat)
  | worker
  deriving Repr, DecidableEq

/-- Where a pool thread is; what it still has to do of a `PostMsgToQue` is in the logic queue. -/
inductive PoolPos where
  /-- no handler is running -/
  | idle
  /-- at the head of the loop of a session's `HandleRead` -/
  | inHandleRead (uuid : Nat) (data : Bytes) (copyLen : Int) (bytesTransferred : Nat)
  /-- at the lock of `ClearSession` -/
  | clearing (uuid : Nat)
  | clearLocked (uuid : Nat)
  /-- behind the erase, still holding `CServer::_mutex` -/
  | erased (uuid : Nat)
  /-- at the lock of `HandleWrite`, for the write of `w` -/
  | writing (uuid : Nat) (w : Queued SendNode)
  | writeLocked (uuid : Nat) (w : Queued SendNode)
  /-- at the end of `HandleWrite`, still holding `_send_lock` -/
  | written (uuid : Nat)

/-- Where the worker is in the callback it is running. -/
inductive SendPos where
  /-- on its way to the lock of `Send` -/
  | atLock
  | locked
  /-- at the end of `Send`, still holding `_send_lock` -/
  | sent
  /-- out of `Send` -/
  | returned
  deriving Repr, DecidableEq

/-- Where the threads are, and who holds what. -/
structure Threads where
  acceptor : AcceptPos
  pool : Nat → PoolPos
  /-- the logic queue, with the worker and every pool thread's call of `PostMsgToQue` -/
  logic : LogicSystem NodeRef CallBackArgs
  sender : SendPos
  /-- who holds `CServer::_mutex` -/
  mutex : Option Thread
  /-- who holds each session's `_send_lock` -/
  sendLocks : Nat → Option Thread

structure Machine extends Threads where
  heap : Heap Short
  conns : Nat → Conn
  /-- the keys of `_sessions` -/
  sessions : Finset Nat
  /-- the uuid of the session that `StartAccept` has made -/
  fresh : Nat
  fate : Fate

/-- `GetIOService` deals the `size` `io_context`s out in turn. -/
def ioService (size uuid : Nat) : Nat := uuid % size

/-- Where a pass leaves a pool thread. -/
def nextPos (uuid : Nat) (data : Bytes) (turn : Turn Short) : PoolPos :=
  match turn.2 with
  | .again l => .inHandleRead uuid data l.copyLen l.bytesTransferred
  | .leave _ => if 0 < cleared turn.1 then .clearing uuid else .idle

/-- The thread runs no handler, and is in no `PostMsgToQue`. -/
def Threads.free (s : Threads) (i : Nat) : Bool :=
  match s.pool i, s.logic.producers i with
  | .idle, .idle => true
  | _, _ => false

namespace Machine

def init : Machine where
  acceptor := .accepting
  pool := fun _ => .idle
  logic := .init
  sender := .atLock
  mutex := none
  sendLocks := fun _ => none
  heap := []
  conns := fun _ =>
    { session := .fresh receiver, reads := 0, sendQueue := .fresh, received := [], sends := [] }
  sessions := ∅
  fresh := 0
  fate := .alive

def setConn (m : Machine) (uuid : Nat) (c : Conn) : Machine :=
  { m with conns := Function.update m.conns uuid c }

def moveTo (m : Machine) (i : Nat) (pos : PoolPos) : Machine :=
  { m with pool := Function.update m.pool i pos }

def setSendLock (m : Machine) (uuid : Nat) (t : Option Thread) : Machine :=
  { m with sendLocks := Function.update m.sendLocks uuid t }

def logicStep (m : Machine) (a : LogicSystem.Act NodeRef) :
    Option (LogicSystem NodeRef CallBackArgs) :=
  LogicSystem.step .unlockFirst (findCallBack m.heap) m.logic a

/-- `async_accept` completes: `Start()`; or an error, and the session is given up. -/
def handleAccept (error : Bool) (m : Machine) : Option Machine :=
  let c := m.conns m.fresh
  match m.acceptor, error with
  | .accepting, true => some { m with fresh := m.fresh + 1 }
  | .accepting, false =>
    some { m.setConn m.fresh { c with reads := c.reads + 1 } with
      acceptor := .started m.fresh
      fresh := m.fresh + 1 }
  | _, _ => none

/-- The next step of `HandleAccept`. -/
def acceptorStep (m : Machine) : Option Machine :=
  match m.acceptor with
  | .accepting => none
  | .started uuid =>
    if m.mutex = none then some { m with acceptor := .locked uuid, mutex := some .acceptor }
    else none
  | .locked uuid =>
    some { m with acceptor := .inserted uuid, sessions := insert uuid m.sessions }
  | .inserted _ => some { m with acceptor := .accepting, mutex := none }

/-- A read of the session completes with a chunk, on the thread of its socket. -/
def handleRead (size uuid : Nat) (chunk : Bytes) (m : Machine) : Option Machine :=
  let c := m.conns uuid
  let i := ioService size uuid
  if m.free i = true ∧ c.reads ≠ 0 ∧ chunk ≠ [] ∧ chunk.length ≤ maxLength then
    some ((m.setConn uuid
      { c with reads := c.reads - 1, received := c.received ++ chunk }).moveTo i
        (.inHandleRead uuid (readBuffer chunk) 0 chunk.length))
  else none

/-- … or with an error: `Close()`, and on to `ClearSession`. -/
def handleReadError (size uuid : Nat) (m : Machine) : Option Machine :=
  let c := m.conns uuid
  let i := ioService size uuid
  if m.free i = true ∧ c.reads ≠ 0 then
    some ((m.setConn uuid { c with
      reads := c.reads - 1
      sendQueue := { c.sendQueue with bClose := true } }).moveTo i (.clearing uuid))
  else none

/-- A write of the session completes. Without an error `HandleWrite` goes for the lock. -/
def handleWrite (size uuid i : Nat) (error : Bool) (m : Machine) : Option Machine :=
  let c := m.conns uuid
  let t := ioService size uuid
  match c.sendQueue.writes[i]? with
  | none => none
  | some w =>
    let q := { c.sendQueue with writes := c.sendQueue.writes.eraseIdx i }
    if m.free t = true then
      if error then
        (q.handleWrite w true).map fun out =>
          (m.setConn uuid { c with sendQueue := out.2 }).moveTo t (.clearing uuid)
      else some ((m.setConn uuid { c with sendQueue := q }).moveTo t (.writing uuid w))
    else none

/-- The variables of a running `HandleRead`. -/
def loopAt (m : Machine) (uuid : Nat) (copyLen : Int) (n : Nat) : Loop Short where
  heap := m.heap
  session := (m.conns uuid).session
  copyLen := copyLen
  bytesTransferred := n

/-- A pass of `HandleRead` on thread `i`. An exception ends in its `catch`. -/
def pass (i uuid : Nat) (data : Bytes) (copyLen : Int) (n : Nat) (m : Machine) :
    Option Machine :=
  if 0 < n then
    let c := m.conns uuid
    let turn := loopBody receiver data (m.loopAt uuid copyLen n)
    let l := Turn.after turn
    let logic :=
      match delivered turn.1 with
      | [] => some m.logic
      | p :: _ => m.logicStep (.post i (uuid, p))
    logic.map fun logic =>
      { (m.setConn uuid { c with session := l.session, reads := c.reads + armed turn.1 }).moveTo i
          (nextPos uuid data turn) with
        heap := l.heap
        logic := logic
        fate :=
          match turn.2 with
          | .leave (_, .undefined) => .undefined
          | _ => m.fate }
  else some (m.moveTo i .idle)

/-- The next step of pool thread `i`. -/
def poolStep (i : Nat) (m : Machine) : Option Machine :=
  match m.logic.producers i with
  | .idle =>
    match m.pool i with
    | .idle => none
    | .inHandleRead uuid data copyLen n => m.pass i uuid data copyLen n
    | .clearing uuid =>
      if m.mutex = none then some { m.moveTo i (.clearLocked uuid) with mutex := some (.pool i) }
      else none
    | .clearLocked uuid =>
      some { m.moveTo i (.erased uuid) with sessions := m.sessions.erase uuid }
    | .erased _ => some { m.moveTo i .idle with mutex := none }
    | .writing uuid w =>
      if m.sendLocks uuid = none then
        some ((m.moveTo i (.writeLocked uuid w)).setSendLock uuid (some (.pool i)))
      else none
    | .writeLocked uuid w =>
      match (m.conns uuid).sendQueue.handleWrite w false with
      | some (_, q) =>
        some ((m.setConn uuid { m.conns uuid with sendQueue := q }).moveTo i (.written uuid))
      -- `front()` or `pop()` of an empty queue
      | none => some { m with fate := .undefined }
    | .written uuid => some ((m.moveTo i .idle).setSendLock uuid none)
  | _ => (m.logicStep (.producer i)).map fun logic => { m with logic := logic }

/-- The next step of the worker. -/
def workerStep (f : Short × Bytes → Bytes × Short) (m : Machine) : Option Machine :=
  match m.logic.worker with
  | .running _ (uuid, msg) _ =>
    match m.sender with
    | .atLock =>
      if m.sendLocks uuid = none then
        some { m.setSendLock uuid (some .worker) with sender := .locked }
      else none
    | .locked =>
      let c := m.conns uuid
      let reply := f msg
      match sendString reply.1 reply.2 c.sendQueue with
      | some (.returned, q) =>
        some { m.setConn uuid { c with sendQueue := q, sends := c.sends ++ [reply] } with
          sender := .sent }
      | some (.threw, _) => some { m with fate := .terminated }
      | some (.undefined, _) | none => some { m with fate := .undefined }
    | .sent => some { m.setSendLock uuid none with sender := .returned }
    | .returned =>
      (m.logicStep .worker).map fun logic => { m with logic := logic, sender := .atLock }
  | _ => (m.logicStep .worker).map fun logic => { m with logic := logic }

inductive Act where
  /-- `async_accept` completes -/
  | handleAccept (error : Bool)
  | acceptor
  /-- a read of the session completes -/
  | handleRead (uuid : Nat) (chunk : Bytes)
  | handleReadError (uuid : Nat)
  /-- its `i`-th outstanding write completes -/
  | handleWrite (uuid i : Nat) (error : Bool)
  | pool (i : Nat)
  | worker
  | spurious
  | destructor

def step (size : Nat) (f : Short × Bytes → Bytes × Short) (m : Machine) (a : Act) :
    Option Machine :=
  if m.fate = .alive then
    match a with
    | .handleAccept error => m.handleAccept error
    | .acceptor => m.acceptorStep
    | .handleRead uuid chunk => m.handleRead size uuid chunk
    | .handleReadError uuid => m.handleReadError size uuid
    | .handleWrite uuid i error => m.handleWrite size uuid i error
    | .pool i => m.poolStep i
    | .worker => m.workerStep f
    | .spurious => (m.logicStep .spurious).map fun logic => { m with logic := logic }
    | .destructor => (m.logicStep .destructor).map fun logic => { m with logic := logic }
  else none

def system (size : Nat) (f : Short × Bytes → Bytes × Short) : Lib.System Machine Act where
  init := init
  step := step size f

end Machine
end ServerV3Mt
end AsyncEchoServer
