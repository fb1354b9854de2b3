import Mathlib.Data.Fintype.Fin
import AsyncEchoServer.Lib.LockOrder
import AsyncEchoServer.Logic.Decoupling
import AsyncEchoServer.ServerV3Mt.Machine
import AsyncEchoServer.Session.Exits

/-!
# `ServerV3Mt/Locking.lean` — the threads of the multi-thread server do not deadlock

Only the worker asks for a mutex while it holds one: `Send` takes the session's `_send_lock` inside
`LogicSystem::_mutex`. Every other thread takes one mutex at a time, a pool thread because no
handler goes on before its `PostMsgToQue` is back. So with `LogicSystem::_mutex` below the others
every thread takes mutexes in order, and the rest is `Lib/LockOrder.lean`.

What a thread holds has to be known from its position, which is an invariant. It does not depend on
the data: `Threads.Step` is what a step of the machine can do to positions and mutexes.
-/

set_option autoImplicit false

namespace AsyncEchoServer

namespace LogicSystem

variable {ν κ : Type} {find : ν → Option κ} {v : Variant} {s s' : LogicSystem ν κ}

theorem notifyOne_running {n : ν} {c : κ} {d : Bool} (hw : s.worker = .running n c d) :
    s.notifyOne.worker = .running n c d := by
  unfold notifyOne
  rw [hw]
  exact hw

/-- Nobody but the worker ends its callback. -/
theorem step_running {a : Act ν} (h : step v find s a = some s') (ha : a ≠ .worker) {n : ν} {c : κ}
    {d : Bool} (hw : s.worker = .running n c d) : s'.worker = .running n c d := by
  cases a with
  | worker => exact absurd rfl ha
  | spurious =>
    simp only [step, hw] at h
    cases h
  | post i n =>
    simp only [step] at h
    split at h <;> cases h
    exact hw
  | producer i =>
    cases producerStep_cases h with
    | notify | notifyAfter => exact notifyOne_running hw
    | lock | push | first | later | unlock | unlockFirst => exact hw
  | destructor =>
    cases destructorStep_cases h with
    | notify => exact notifyOne_running hw
    | stop | join => exact hw

/-- The call itself moves its own thread only. -/
theorem step_post {i : Nat} {n : ν} (h : step v find s (.post i n) = some s') :
    s' = s.move i (.entered n) := by
  simp only [step] at h
  split at h <;> cases h
  rfl

end LogicSystem

namespace ServerV3Mt

open ServerV3 (NodeRef findCallBack)

/-! ## Positions and mutexes -/

inductive Mutex where
  /-- `LogicSystem::_mutex` -/
  | queue
  /-- `CServer::_mutex` -/
  | server
  /-- a session's `_send_lock` -/
  | sendLock (uuid : Nat)
  deriving Repr, DecidableEq

def AcceptPos.inServer : AcceptPos → Bool
  | .locked _ | .inserted _ => true
  | .accepting | .started _ => false

def PoolPos.inServer : PoolPos → Bool
  | .clearLocked _ | .erased _ => true
  | .idle | .inHandleRead _ _ _ _ | .clearing _ => false
  | .writing _ _ | .writeLocked _ _ | .written _ => false

/-- The session whose `_send_lock` the thread has taken. -/
def PoolPos.inSend : PoolPos → Option Nat
  | .writeLocked uuid _ | .written uuid => some uuid
  | .idle | .inHandleRead _ _ _ _ | .clearing _ | .clearLocked _ | .erased _ | .writing _ _ => none

/-- The thread may be in a call of `PostMsgToQue`: it is not on its way to another mutex. -/
def PoolPos.calls : PoolPos → Bool
  | .idle | .inHandleRead _ _ _ _ => true
  | .clearing _ | .clearLocked _ | .erased _ | .writing _ _ | .writeLocked _ _ | .written _ => false

theorem PoolPos.calls_outside {p : PoolPos} (h : p.calls = true) :
    p.inServer = false ∧ p.inSend = none := by
  cases p <;> first | exact ⟨rfl, rfl⟩ | cases h

def SendPos.inSend : SendPos → Bool
  | .locked | .sent => true
  | .atLock | .returned => false

namespace Threads

/-- The thread is inside a critical section of `CServer::_mutex`. -/
def inServer (s : Threads) : Thread → Prop
  | .acceptor => s.acceptor.inServer = true
  | .pool i => (s.pool i).inServer = true
  | .worker => False

/-- … of the session's `_send_lock`. -/
def inSend (s : Threads) (uuid : Nat) : Thread → Prop
  | .acceptor => False
  | .pool i => (s.pool i).inSend = some uuid
  | .worker => s.sender.inSend = true ∧ ∃ n msg d, s.logic.worker = .running n (uuid, msg) d

def owner : Owner → Thread
  | .worker => .worker
  | .producer i => .pool i

/-- Who waits for what, and who holds what. -/
def locks (s : Threads) : Lib.Locks Thread Mutex where
  wants
    | .acceptor =>
      match s.acceptor with
      | .started _ => some .server
      | _ => none
    | .pool i =>
      match s.logic.producers i, s.pool i with
      | .entered _, _ => some .queue
      | .idle, .clearing _ => some .server
      | .idle, .writing uuid _ => some (.sendLock uuid)
      | _, _ => none
    | .worker =>
      match s.logic.worker, s.sender with
      | .top, _ | .woken, _ => some .queue
      | .running _ (uuid, _) _, .atLock => some (.sendLock uuid)
      | _, _ => none
  holder
    | .queue => s.logic.mutex.map owner
    | .server => s.mutex
    | .sendLock uuid => s.sendLocks uuid

def moveTo (s : Threads) (i : Nat) (p : PoolPos) : Threads :=
  { s with pool := Function.update s.pool i p }

/-- What a step of the machine does to positions and mutexes. -/
inductive Step (s : Threads) : Threads → Prop where
  | stay : Step s s
  | accept {p : AcceptPos} (same : p.inServer = s.acceptor.inServer) :
      Step s { s with acceptor := p }
  | acceptLock {p : AcceptPos} (free : s.mutex = none) (inside : p.inServer = true) :
      Step s { s with acceptor := p, mutex := some .acceptor }
  | acceptUnlock {p : AcceptPos} : Step s { s with acceptor := p, mutex := none }
  | move {i : Nat} {p : PoolPos} (idle : s.logic.producers i = .idle)
      (server : p.inServer = (s.pool i).inServer) (send : p.inSend = (s.pool i).inSend) :
      Step s (s.moveTo i p)
  | post {i : Nat} {p : PoolPos} {n : NodeRef} {find : NodeRef → Option CallBackArgs}
      {logic : LogicSystem NodeRef CallBackArgs} (pos : (s.pool i).calls = true)
      (next : p.calls = true)
      (step : LogicSystem.step .unlockFirst find s.logic (.post i n) = some logic) :
      Step s { s.moveTo i p with logic := logic }
  | clearLock {i : Nat} {p : PoolPos} (idle : s.logic.producers i = .idle) (free : s.mutex = none)
      (server : p.inServer = true) (send : p.inSend = (s.pool i).inSend) :
      Step s { s.moveTo i p with mutex := some (.pool i) }
  | clearUnlock {i : Nat} {p : PoolPos} (idle : s.logic.producers i = .idle)
      (send : p.inSend = (s.pool i).inSend) : Step s { s.moveTo i p with mutex := none }
  | writeLock {i uuid : Nat} {p : PoolPos} (idle : s.logic.producers i = .idle)
      (free : s.sendLocks uuid = none) (out : (s.pool i).inSend = none)
      (server : p.inServer = (s.pool i).inServer) (send : p.inSend = some uuid) :
      Step s { s.moveTo i p with
        sendLocks := Function.update s.sendLocks uuid (some (.pool i)) }
  | writeUnlock {i uuid : Nat} {p : PoolPos} (idle : s.logic.producers i = .idle)
      (inside : (s.pool i).inSend = some uuid) (server : p.inServer = (s.pool i).inServer) :
      Step s { s.moveTo i p with sendLocks := Function.update s.sendLocks uuid none }
  | sendLock {n : NodeRef} {uuid : Nat} {msg : Short × Bytes} {d : Bool}
      (pos : s.logic.worker = .running n (uuid, msg) d) (free : s.sendLocks uuid = none)
      (out : s.sender.inSend = false) : Step s { s with
        sender := .locked, sendLocks := Function.update s.sendLocks uuid (some .worker) }
  | send (inside : s.sender.inSend = true) : Step s { s with sender := .sent }
  | sendUnlock {n : NodeRef} {uuid : Nat} {msg : Short × Bytes} {d : Bool}
      (pos : s.logic.worker = .running n (uuid, msg) d) : Step s { s with
        sender := .returned, sendLocks := Function.update s.sendLocks uuid none }
  | callbackReturn {find : NodeRef → Option CallBackArgs}
      {logic : LogicSystem NodeRef CallBackArgs} (out : s.sender.inSend = false)
      (step : LogicSystem.step .unlockFirst find s.logic .worker = some logic) :
      Step s { s with logic := logic, sender := .atLock }
  | logic {a : LogicSystem.Act NodeRef} {find : NodeRef → Option CallBackArgs}
      {logic : LogicSystem NodeRef CallBackArgs} (call : ∀ i n, a ≠ .post i n)
      (out : a = .worker → ∀ n c d, s.logic.worker ≠ .running n c d)
      (step : LogicSystem.step .unlockFirst find s.logic a = some logic) :
      Step s { s with logic := logic }

/-! ## The holder is inside -/

/-- Whoever holds a mutex is at a position inside it, and a thread in a `PostMsgToQue` is nowhere
else. -/
structure Inv (s : Threads) : Prop where
  queue : Lib.Owned s.logic.mutex s.logic.holds
  server : Lib.Owned s.mutex s.inServer
  send : ∀ uuid, Lib.Owned (s.sendLocks uuid) (s.inSend uuid)
  calling : ∀ i, s.logic.producers i ≠ .idle → (s.pool i).calls = true

variable {s s' : Threads} {i : Nat} {p : PoolPos}

@[simp] theorem moveTo_self : (s.moveTo i p).pool i = p := Function.update_self ..

theorem moveTo_of_ne {j : Nat} (h : j ≠ i) : (s.moveTo i p).pool j = s.pool j :=
  Function.update_of_ne h ..

/-- The other threads are where they were. -/
theorem inServer_moveTo {t : Thread} (ht : t ≠ .pool i) (h : s.inServer t) :
    (s.moveTo i p).inServer t := by
  cases t with
  | acceptor | worker => exact h
  | pool j =>
    have hj : j ≠ i := fun heq => ht (by rw [heq])
    simp only [inServer, moveTo_of_ne hj]
    exact h

theorem inSend_moveTo {uuid : Nat} {t : Thread} (ht : t ≠ .pool i) (h : s.inSend uuid t) :
    (s.moveTo i p).inSend uuid t := by
  cases t with
  | acceptor | worker => exact h
  | pool j =>
    have hj : j ≠ i := fun heq => ht (by rw [heq])
    simp only [inSend, moveTo_of_ne hj]
    exact h

theorem Inv.server_moveTo (hi : Inv s) (h : p.inServer = (s.pool i).inServer) :
    Lib.Owned s.mutex (s.moveTo i p).inServer := by
  refine hi.server.move (.pool i) (fun hin => ?_) fun t => inServer_moveTo
  simp only [inServer, moveTo_self, h]
  exact hin

theorem Inv.send_moveTo (hi : Inv s) (h : p.inSend = (s.pool i).inSend) (uuid : Nat) :
    Lib.Owned (s.sendLocks uuid) ((s.moveTo i p).inSend uuid) := by
  refine (hi.send uuid).move (.pool i) (fun hin => ?_) fun t => inSend_moveTo
  simp only [inSend, moveTo_self, h]
  exact hin

theorem Inv.calling_moveTo (hi : Inv s) (hidle : s.logic.producers i = .idle) :
    ∀ j, s.logic.producers j ≠ .idle → ((s.moveTo i p).pool j).calls = true := by
  intro j hj
  have hji : j ≠ i := by
    rintro rfl
    exact hj hidle
  rw [moveTo_of_ne hji]
  exact hi.calling j hj

/-- A lock of one session, and the others. -/
theorem send_update {holds holds' : Nat → Thread → Prop} {locks : Nat → Option Thread}
    {uuid : Nat} {t : Option Thread} (h : ∀ u, Lib.Owned (locks u) (holds u))
    (hself : Lib.Owned t (holds' uuid)) (hothers : ∀ u, u ≠ uuid →
      ∀ t', holds u t' → holds' u t') :
    ∀ u, Lib.Owned (Function.update locks uuid t u) (holds' u) := by
  intro u
  by_cases hu : u = uuid
  · subst hu
    rw [Function.update_self]
    exact hself
  · rw [Function.update_of_ne hu]
    exact fun t' ht' => hothers u hu t' (h u t' ht')

theorem Inv.step (hi : Inv s) (h : s.Step s') : Inv s' := by
  cases h with
  | stay => exact hi
  | accept same =>
    refine ⟨hi.queue, ?_, hi.send, hi.calling⟩
    refine hi.server.move .acceptor (fun hin => same.trans hin) fun t ht hin => ?_
    cases t with
    | acceptor => exact absurd rfl ht
    | pool | worker => exact hin
  | acceptLock free inside => exact ⟨hi.queue, .acquire inside, hi.send, hi.calling⟩
  | acceptUnlock => exact ⟨hi.queue, .free, hi.send, hi.calling⟩
  | move idle server send =>
    exact ⟨hi.queue, hi.server_moveTo server, hi.send_moveTo send, hi.calling_moveTo idle⟩
  | @post i p n find logic pos next step =>
    obtain ⟨hserver, hsend⟩ := PoolPos.calls_outside pos
    obtain ⟨hserver', hsend'⟩ := PoolPos.calls_outside next
    have hqueue := LogicSystem.step_owned hi.queue step
    obtain rfl := LogicSystem.step_post step
    refine ⟨hqueue, hi.server_moveTo (hserver'.trans hserver.symm),
      hi.send_moveTo (hsend'.trans hsend.symm), fun j hj => ?_⟩
    by_cases hji : j = i
    · subst hji
      exact (congrArg PoolPos.calls moveTo_self).trans next
    · have hj : s.logic.producers j ≠ .idle := by
        simpa only [LogicSystem.move, Function.update_of_ne hji] using hj
      exact (congrArg PoolPos.calls (moveTo_of_ne hji)).trans (hi.calling j hj)
  | clearLock idle free server send =>
    refine ⟨hi.queue, .acquire ?_, hi.send_moveTo send, hi.calling_moveTo idle⟩
    simp only [inServer, moveTo_self]
    exact server
  | clearUnlock idle send =>
    exact ⟨hi.queue, .free, hi.send_moveTo send, hi.calling_moveTo idle⟩
  | @writeLock i uuid p idle free out server send =>
    refine ⟨hi.queue, hi.server_moveTo server, ?_, hi.calling_moveTo idle⟩
    refine send_update hi.send (.acquire ?_) fun u hu t ht => ?_
    · simp only [inSend, moveTo_self]
      exact send
    · by_cases htp : t = .pool i
      · subst htp
        simp only [inSend, out, reduceCtorEq] at ht
      · exact inSend_moveTo htp ht
  | @writeUnlock i uuid p idle inside server =>
    refine ⟨hi.queue, hi.server_moveTo server, ?_, hi.calling_moveTo idle⟩
    refine send_update hi.send .free fun u hu t ht => ?_
    by_cases htp : t = .pool i
    · subst htp
      simp only [inSend, inside, Option.some.injEq] at ht
      exact absurd ht.symm hu
    · exact inSend_moveTo htp ht
  | @sendLock n uuid msg d pos free out =>
    refine ⟨hi.queue, hi.server, ?_, hi.calling⟩
    refine send_update hi.send (.acquire ⟨rfl, n, msg, d, pos⟩) fun u hu t ht => ?_
    cases t with
    | worker => exact absurd (out.symm.trans ht.1) Bool.false_ne_true
    | acceptor | pool => exact ht
  | send inside =>
    refine ⟨hi.queue, hi.server, fun u => ?_, hi.calling⟩
    refine (hi.send u).move .worker (fun hin => ⟨rfl, hin.2⟩) fun t ht hin => ?_
    cases t with
    | worker => exact absurd rfl ht
    | acceptor | pool => exact hin
  | @sendUnlock n uuid msg d pos =>
    refine ⟨hi.queue, hi.server, ?_, hi.calling⟩
    refine send_update hi.send .free fun u hu t ht => ?_
    cases t with
    | worker =>
      obtain ⟨_, n', msg', d', pos'⟩ := ht
      rw [pos] at pos'
      cases pos'
      exact absurd rfl hu
    | acceptor | pool => exact ht
  | callbackReturn out step =>
    refine ⟨LogicSystem.step_owned hi.queue step, hi.server, fun u => ?_, ?_⟩
    · refine (hi.send u).move .worker (fun hin => ?_) fun t ht hin => ?_
      · exact absurd (out.symm.trans hin.1) Bool.false_ne_true
      · cases t with
        | worker => exact absurd rfl ht
        | acceptor | pool => exact hin
    · exact fun j hj => hi.calling j fun hidle =>
        hj (LogicSystem.step_idle step (fun _ _ heq => by cases heq) hidle)
  | @logic a find logic call out step =>
    refine ⟨LogicSystem.step_owned hi.queue step, hi.server, fun u => ?_, ?_⟩
    · refine (hi.send u).move .worker (fun hin => ?_) fun t ht hin => ?_
      · obtain ⟨hsend, n, msg, d, hw⟩ := hin
        by_cases ha : a = .worker
        · exact absurd hw (out ha n (u, msg) d)
        · exact ⟨hsend, n, msg, d, LogicSystem.step_running step ha hw⟩
      · cases t with
        | worker => exact absurd rfl ht
        | acceptor | pool => exact hin
    · exact fun j hj => hi.calling j fun hidle => hj (LogicSystem.step_idle step call hidle)

/-! ## The order -/

/-- `LogicSystem::_mutex` comes first. -/
def rank : Mutex → Fin 2
  | .queue => 0
  | .server | .sendLock _ => 1

/-- A pool thread inside one of the other two mutexes asks for nothing. -/
theorem Inv.wants_inside (hi : Inv s) (h : (s.pool i).inServer = true ∨ (s.pool i).inSend ≠ none) :
    s.locks.wants (.pool i) = none := by
  have hidle : s.logic.producers i = .idle := by
    by_contra hcall
    obtain ⟨hserver, hsend⟩ := PoolPos.calls_outside (hi.calling i hcall)
    rcases h with hin | hin
    · exact Bool.noConfusion (hserver.symm.trans hin)
    · exact hin hsend
  simp only [locks, hidle]
  cases hp : s.pool i with
  | clearLocked | erased | writeLocked | written => rfl
  | idle | inHandleRead | clearing | writing =>
    simp [hp, PoolPos.inServer, PoolPos.inSend] at h

/-- A pool thread that holds the logic queue asks for nothing. -/
theorem wants_of_holds_producer (h : s.logic.holds (.producer i)) :
    s.locks.wants (.pool i) = none := by
  simp only [locks]
  cases hp : s.logic.producers i with
  | idle | entered | notifyingAfter =>
    simp only [LogicSystem.holds, hp] at h
  | locked | pushed | notifying | unlocking | unlockingFirst => rfl

/-- What the worker asks for inside the logic queue is a `_send_lock`, and only at the lock of
`Send`. -/
theorem wants_of_holds_worker (h : s.logic.holds .worker) {m : Mutex}
    (hm : s.locks.wants .worker = some m) :
    s.sender.inSend = false ∧ ∃ uuid, m = .sendLock uuid := by
  simp only [locks] at hm
  split at hm
  · rename_i hw
    simp only [LogicSystem.holds, hw] at h
  · rename_i hw
    simp only [LogicSystem.holds, hw] at h
  · rename_i n uuid msg d hw hs
    cases hm
    exact ⟨by rw [hs]; rfl, uuid, rfl⟩
  · cases hm

/-- **Every thread takes its mutexes in order.** -/
theorem Inv.ordered (hi : Inv s) : s.locks.Ordered rank := by
  intro t m m' hheld hwants
  cases m with
  | queue =>
    obtain ⟨o, ho, rfl⟩ := Option.map_eq_some_iff.mp hheld
    have hin := hi.queue o ho
    cases o with
    | worker =>
      obtain ⟨_, uuid, rfl⟩ := wants_of_holds_worker hin hwants
      exact Fin.zero_lt_one
    | producer i => cases (wants_of_holds_producer hin).symm.trans hwants
  | server =>
    have hin := hi.server t hheld
    cases t with
    | acceptor =>
      simp only [locks] at hwants
      split at hwants
      · rename_i hpos
        simp only [inServer, hpos, AcceptPos.inServer, Bool.false_eq_true] at hin
      · cases hwants
    | pool i => cases (hi.wants_inside (Or.inl hin)).symm.trans hwants
    | worker => exact hin.elim
  | sendLock uuid =>
    have hin := hi.send uuid t hheld
    cases t with
    | acceptor => exact hin.elim
    | pool i =>
      have hsome : (s.pool i).inSend ≠ none := by
        rw [show (s.pool i).inSend = some uuid from hin]
        exact Option.some_ne_none _
      cases (hi.wants_inside (Or.inr hsome)).symm.trans hwants
    | worker =>
      obtain ⟨hsend, n, msg, d, hw⟩ := hin
      have hholds : s.logic.holds .worker := by simp only [LogicSystem.holds, hw]
      obtain ⟨hout, _⟩ := wants_of_holds_worker hholds hwants
      cases hsend.symm.trans hout

theorem free_idle (h : s.free i = true) : s.pool i = .idle ∧ s.logic.producers i = .idle := by
  unfold free at h
  split at h
  · rename_i hpool hcall
    exact ⟨hpool, hcall⟩
  · cases h

/-- A handler that begins. -/
theorem Step.begin (h : s.free i = true) (server : p.inServer = false) (send : p.inSend = none) :
    s.Step (s.moveTo i p) := by
  obtain ⟨hpool, hidle⟩ := free_idle h
  exact .move hidle (by rw [hpool, server]; rfl) (by rw [hpool, send]; rfl)

end Threads

/-! ## The machine -/

namespace Machine

variable {size i : Nat} {f : Short × Bytes → Bytes × Short} {m m' : Machine}

theorem acceptorStep_threads (h : m.acceptorStep = some m') : m.toThreads.Step m'.toThreads := by
  unfold acceptorStep at h
  cases hpos : m.acceptor with
  | accepting =>
    rw [hpos] at h
    cases h
  | started uuid =>
    simp only [hpos, Option.ite_none_right_eq_some] at h
    obtain ⟨hfree, hm⟩ := h
    cases hm
    exact .acceptLock hfree rfl
  | locked uuid =>
    rw [hpos] at h
    cases h
    exact .accept (by rw [hpos]; rfl)
  | inserted uuid =>
    rw [hpos] at h
    cases h
    exact .acceptUnlock

/-- Where a pass leaves its thread, outside every mutex; and nowhere near one, if it has handed over
a message. -/
theorem nextPos_calls (uuid : Nat) (data : Bytes) (l : Loop Short) :
    (nextPos uuid data (loopBody receiver data l)).inServer = false ∧
      (nextPos uuid data (loopBody receiver data l)).inSend = none ∧
      (delivered (loopBody receiver data l).1 ≠ [] →
        (nextPos uuid data (loopBody receiver data l)).calls = true) := by
  have hexit := loopBody_exit receiver data l
  unfold nextPos
  split
  · exact ⟨rfl, rfl, fun _ => rfl⟩
  · split
    · rename_i hclr
      refine ⟨rfl, rfl, fun hdel => ?_⟩
      -- a pass that clears its session has handed over nothing
      cases hexit with
      | rejects _ _ del => exact absurd del hdel
      | fails _ _ _ del => exact absurd del hdel
      | goesOn _ _ _ clr =>
        rw [clr] at hclr
        exact absurd hclr (Nat.lt_irrefl 0)
    · exact ⟨rfl, rfl, fun _ => rfl⟩

theorem pass_threads {uuid n : Nat} {data : Bytes} {copyLen : Int}
    (hpos : m.pool i = .inHandleRead uuid data copyLen n) (hidle : m.logic.producers i = .idle)
    (h : m.pass i uuid data copyLen n = some m') : m.toThreads.Step m'.toThreads := by
  have hserver : (m.pool i).inServer = false := by rw [hpos]; rfl
  have hsend : (m.pool i).inSend = none := by rw [hpos]; rfl
  unfold Machine.pass at h
  split at h
  · obtain ⟨logic, hpost, rfl⟩ := Option.map_eq_some_iff.mp h
    obtain ⟨hnext, hnext', hcalls⟩ := nextPos_calls uuid data (m.loopAt uuid copyLen n)
    split at hpost
    · cases hpost
      exact .move hidle (hnext.trans hserver.symm) (hnext'.trans hsend.symm)
    · rename_i q qs hdel
      refine .post (by rw [hpos]; rfl) (hcalls ?_) hpost
      rw [hdel]
      exact List.cons_ne_nil q qs
  · cases h
    exact .move hidle hserver.symm hsend.symm

theorem poolStep_threads (h : m.poolStep i = some m') : m.toThreads.Step m'.toThreads := by
  unfold Machine.poolStep at h
  split at h
  · rename_i hidle
    cases hpos : m.pool i with
    | idle =>
      rw [hpos] at h
      cases h
    | inHandleRead uuid data copyLen n =>
      rw [hpos] at h
      exact pass_threads hpos hidle h
    | clearing uuid =>
      simp only [hpos, Option.ite_none_right_eq_some] at h
      obtain ⟨hfree, hm⟩ := h
      cases hm
      exact .clearLock hidle hfree rfl (by rw [hpos]; rfl)
    | clearLocked uuid =>
      rw [hpos] at h
      cases h
      exact .move hidle (by rw [hpos]; rfl) (by rw [hpos]; rfl)
    | erased uuid =>
      rw [hpos] at h
      cases h
      exact .clearUnlock hidle (by rw [hpos]; rfl)
    | writing uuid w =>
      simp only [hpos, Option.ite_none_right_eq_some] at h
      obtain ⟨hfree, hm⟩ := h
      cases hm
      exact .writeLock hidle hfree (by rw [hpos]; rfl) (by rw [hpos]; rfl) rfl
    | writeLocked uuid w =>
      simp only [hpos] at h
      split at h
      · cases h
        exact .move hidle (by rw [hpos]; rfl) (by rw [hpos]; rfl)
      · cases h
        exact .stay
    | written uuid =>
      rw [hpos] at h
      cases h
      exact .writeUnlock hidle (by rw [hpos]; rfl) (by rw [hpos]; rfl)
  · obtain ⟨logic, hstep, rfl⟩ := Option.map_eq_some_iff.mp h
    exact .logic (a := .producer i) nofun nofun hstep

theorem workerStep_threads (h : m.workerStep f = some m') : m.toThreads.Step m'.toThreads := by
  unfold Machine.workerStep at h
  split at h
  · rename_i n uuid msg d hw
    split at h
    · rename_i hs
      simp only [Option.ite_none_right_eq_some] at h
      obtain ⟨hfree, hm⟩ := h
      cases hm
      exact .sendLock hw hfree (by rw [hs]; rfl)
    · rename_i hs
      dsimp only at h
      split at h
      · cases h
        exact .send (by rw [hs]; rfl)
      all_goals
        cases h
        exact .stay
    · cases h
      exact .sendUnlock hw
    · rename_i hs
      obtain ⟨logic, hstep, rfl⟩ := Option.map_eq_some_iff.mp h
      exact .callbackReturn (by rw [hs]; rfl) hstep
  · rename_i hrun
    obtain ⟨logic, hstep, rfl⟩ := Option.map_eq_some_iff.mp h
    exact .logic (a := .worker) nofun (fun _ n c d hw => hrun n c.1 c.2 d hw) hstep

/-- **What a step of the machine does to positions and mutexes.** -/
theorem step_threads {a : Act} (h : m.step size f a = some m') :
    m.toThreads.Step m'.toThreads := by
  unfold step at h
  split at h
  · cases a with
    | handleAccept error =>
      simp only [Machine.handleAccept] at h
      split at h
      · cases h
        exact .stay
      · rename_i hpos
        cases h
        exact .accept (by rw [hpos]; rfl)
      · cases h
    | acceptor => exact acceptorStep_threads h
    | handleRead uuid chunk =>
      simp only [Machine.handleRead, Option.ite_none_right_eq_some] at h
      obtain ⟨hguard, hm⟩ := h
      cases hm
      exact .begin hguard.1 rfl rfl
    | handleReadError uuid =>
      simp only [Machine.handleReadError, Option.ite_none_right_eq_some] at h
      obtain ⟨hguard, hm⟩ := h
      cases hm
      exact .begin hguard.1 rfl rfl
    | handleWrite uuid j error =>
      simp only [Machine.handleWrite] at h
      split at h
      · cases h
      · split at h
        · rename_i hfree
          split at h
          · obtain ⟨out, _, rfl⟩ := Option.map_eq_some_iff.mp h
            exact .begin hfree rfl rfl
          · cases h
            exact .begin hfree rfl rfl
        · cases h
    | pool j => exact poolStep_threads h
    | worker => exact workerStep_threads h
    | spurious =>
      obtain ⟨logic, hstep, rfl⟩ := Option.map_eq_some_iff.mp h
      exact .logic (a := .spurious) nofun nofun hstep
    | destructor =>
      obtain ⟨logic, hstep, rfl⟩ := Option.map_eq_some_iff.mp h
      exact .logic (a := .destructor) nofun nofun hstep
  · cases h

theorem init_inv : Machine.init.toThreads.Inv where
  queue := .free
  server := .free
  send _ := .free
  calling _ h := absurd rfl h

theorem reachable_inv (h : (system size f).Reachable m) : m.toThreads.Inv :=
  h.invariant (I := fun m => m.toThreads.Inv) init_inv fun hi hstep => hi.step (step_threads hstep)

/-- The next step of a thread. -/
def nextAct : Thread → Act
  | .acceptor => .acceptor
  | .pool i => .pool i
  | .worker => .worker

/-- A thread that asks for a mutex is at its lock: the next step is the one that takes it. -/
theorem enabled_iff_free (halive : m.fate = .alive) {t : Thread} {mutex : Mutex}
    (hwants : m.locks.wants t = some mutex) :
    (m.step size f (nextAct t)).isSome = true ↔ m.locks.holder mutex = none := by
  unfold step
  rw [if_pos halive]
  simp only [Threads.locks] at hwants
  cases t with
  | acceptor =>
    dsimp only [nextAct] at hwants ⊢
    split at hwants
    · rename_i hpos
      cases hwants
      simp [acceptorStep, hpos, Threads.locks]
    · cases hwants
  | pool i =>
    dsimp only [nextAct] at hwants ⊢
    split at hwants
    · rename_i hcall
      cases hwants
      simp [poolStep, hcall, logicStep, LogicSystem.step, LogicSystem.producerStep, Threads.locks]
    · rename_i hcall hpos
      cases hwants
      simp [poolStep, hcall, hpos, Threads.locks]
    · rename_i hcall hpos
      cases hwants
      simp [poolStep, hcall, hpos, Threads.locks]
    · cases hwants
  | worker =>
    dsimp only [nextAct] at hwants ⊢
    split at hwants
    · rename_i hw
      cases hwants
      simp [workerStep, hw, logicStep, LogicSystem.step, LogicSystem.workerStep, Threads.locks]
    · rename_i hw
      cases hwants
      simp [workerStep, hw, logicStep, LogicSystem.step, LogicSystem.workerStep, Threads.locks]
    · rename_i hw hs
      cases hwants
      simp [workerStep, hw, hs, Threads.locks]
    · cases hwants

/-- **No deadlock**: in no reachable state is there a cycle of threads each blocked on a mutex that
the next one holds, nor a thread that asks for a mutex it holds. For any number of sessions and
pool threads. -/
theorem deadlock_free (h : (system size f).Reachable m) :
    (∀ t, ¬ Relation.TransGen m.locks.WaitsFor t t) ∧
      ∀ t mutex, m.locks.wants t = some mutex → m.locks.holder mutex ≠ some t := by
  have hordered := (reachable_inv h).ordered
  exact ⟨hordered.no_cycle, fun t mutex hwants => hordered.not_held hwants⟩

/-- Two sessions on two threads. The first one's second request is in its callback when the write of
the first reply completes; then the other session posts. -/
def chainRun : List Act :=
  [.handleAccept false, .acceptor, .acceptor, .acceptor, .handleAccept false, .acceptor, .acceptor,
    .acceptor, .handleRead 0 [3, 0xe9, 0, 1, 0x61], .pool 0, .pool 0, .pool 0, .pool 0, .pool 0,
    .pool 0, .worker, .worker, .worker, .worker, .worker, .worker, .worker, .worker,
    .handleRead 0 [3, 0xe9, 0, 1, 0x62], .pool 0, .pool 0, .pool 0, .pool 0, .pool 0, .pool 0,
    .worker, .worker, .worker, .handleWrite 0 0 false, .pool 0,
    .handleRead 1 [3, 0xe9, 0, 1, 0x63], .pool 1]

/-- A thread waits for the worker, which waits for the other thread. -/
theorem deadlock_free_chain : ∃ m, (system 2 fun msg => (msg.2, msg.1)).run init chainRun = some m ∧
    m.locks.WaitsFor (.pool 1) .worker ∧ m.locks.WaitsFor .worker (.pool 0) ∧
      ¬ Relation.TransGen m.locks.WaitsFor (.pool 1) (.pool 1) := by
  obtain ⟨m, hm, hwait, hwait'⟩ : ∃ m,
      (system 2 fun msg => (msg.2, msg.1)).run init chainRun = some m ∧
        m.locks.WaitsFor (.pool 1) .worker ∧ m.locks.WaitsFor .worker (.pool 0) :=
    ⟨_, rfl, ⟨.queue, rfl, rfl⟩, ⟨.sendLock 0, rfl, rfl⟩⟩
  exact ⟨m, hm, hwait, hwait', (deadlock_free (.of_run hm)).1 (.pool 1)⟩

/-- Behind every blocked thread there is one that is at no lock, or can take the mutex it is at the
lock of. -/
theorem blocked_behind_enabled (h : (system size f).Reachable m) (halive : m.fate = .alive)
    (t : Thread) : ∃ t', Relation.ReflTransGen m.locks.WaitsFor t t' ∧
      ∀ mutex, m.locks.wants t' = some mutex → (m.step size f (nextAct t')).isSome = true := by
  obtain ⟨t', hchain, hfree⟩ := (reachable_inv h).ordered.exists_unblocked t
  refine ⟨t', hchain, fun mutex hwants => (enabled_iff_free halive hwants).mpr ?_⟩
  cases hheld : m.locks.holder mutex with
  | none => rfl
  | some t'' => exact absurd ⟨mutex, hwants, hheld⟩ (hfree t'')

end Machine
end ServerV3Mt
end AsyncEchoServer
