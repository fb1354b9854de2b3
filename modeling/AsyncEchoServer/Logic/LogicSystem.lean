import Mathlib.Logic.Function.Basic
import AsyncEchoServer.Lib.Channel
import AsyncEchoServer.Lib.Mutex
import AsyncEchoServer.Cpp.Integers

/-!
# `Logic/LogicSystem.lean` — the logic queue, its worker and its threads

`PostMsgtoQueue` pushes under `_mutex` and notifies when the size after the push is 1; `DealMsg`
waits while the queue is empty and `_b_stop` is not set, dispatches the front node by id, and
pops it after its callback. `~LogicSystem` sets `_b_stop` and notifies, without the mutex, and
joins. Every thread is a position in its function and takes one step at a time.

`wait` puts the worker among the waiters and releases the mutex in one step; it leaves that
position by a notification or spuriously, and has to take the mutex again. A `notify_one` that
finds no waiter is lost. A position `waiting` is therefore a worker with no notification pending.

The two version-3 servers differ in one place: the single-thread server notifies under the lock,
the multi-thread one unlocks first (`Variant`). The nodes are left abstract: `find n` is what the
callback registered for `n`'s id is called with, `none` when there is no such callback.
-/

set_option autoImplicit false

namespace AsyncEchoServer

/-- `MSG_HELLO_WORD`. -/
def msgHelloWord : Short := 1001

/-- On which side of its unlock `PostMsgtoQueue` notifies. -/
inductive Variant where
  | notifyUnderLock
  | unlockFirst
  deriving Repr, DecidableEq

/-- Where the worker is in `DealMsg`. -/
inductive WorkerPos (ν κ : Type) where
  /-- at the top of the `for`, before the lock -/
  | top
  /-- at the test of the `while` -/
  | testing
  /-- the test has sent it to `wait` -/
  | toWait
  | waiting
  /-- out of the waiters, taking the mutex again -/
  | woken
  /-- behind the `while`, at `if (_b_stop)` -/
  | dispatch
  /-- in the callback of a node, called with `c` -/
  | running (n : ν) (c : κ) (draining : Bool)
  /-- about to pop a node: its callback has returned, or its id is not registered -/
  | toPop (n : ν) (draining : Bool)
  /-- at the test of the loop that drains the queue -/
  | drain
  | exited

/-- Where a thread is in `PostMsgtoQueue`. -/
inductive ProducerPos (ν : Type) where
  | idle
  | entered (n : ν)
  | locked (n : ν)
  /-- behind the push, at `size() == 1` -/
  | pushed
  /-- at `notify_one`, holding the mutex -/
  | notifying
  /-- at the end, holding the mutex -/
  | unlocking
  /-- at `unlock()`, before the notification -/
  | unlockingFirst
  /-- at `notify_one`, the mutex released -/
  | notifyingAfter

/-- Where the thread that destroys the singleton is. -/
inductive DestructorPos where
  | alive
  /-- `_b_stop` is set -/
  | stopped
  /-- `notify_one` is behind it -/
  | joining
  | joined
  deriving Repr, DecidableEq

inductive Owner where
  | worker
  | producer (i : Nat)
  deriving Repr, DecidableEq

structure LogicSystem (ν κ : Type) where
  worker : WorkerPos ν κ
  /-- who holds `_mutex` -/
  mutex : Option Owner
  msgQueue : List ν
  bStop : Bool
  producers : Nat → ProducerPos ν
  destructor : DestructorPos
  /-- the nodes pushed so far -/
  posted : List ν
  /-- the nodes popped so far -/
  finished : List ν
  /-- what the callbacks were invoked with -/
  calls : List κ
  /-- what was posted when the worker found `_b_stop` set -/
  seenStop : Option (List ν)

namespace LogicSystem

variable {ν κ : Type}

def init : LogicSystem ν κ where
  worker := .top
  mutex := none
  msgQueue := []
  bStop := false
  producers := fun _ => .idle
  destructor := .alive
  posted := []
  finished := []
  calls := []
  seenStop := none

/-- `_consume.notify_one()`. -/
def notifyOne (s : LogicSystem ν κ) : LogicSystem ν κ :=
  match s.worker with
  | .waiting => { s with worker := .woken }
  | _ => s

/-- Find the front node's callback and invoke it, if there is one. -/
def take (find : ν → Option κ) (n : ν) (draining : Bool) (s : LogicSystem ν κ) :
    LogicSystem ν κ :=
  match find n with
  | some c => { s with worker := .running n c draining, calls := s.calls ++ [c] }
  | none => { s with worker := .toPop n draining }

/-- The next step of `DealMsg`. -/
def workerStep (find : ν → Option κ) (s : LogicSystem ν κ) : Option (LogicSystem ν κ) :=
  match s.worker with
  | .top | .woken =>
    if s.mutex = none then some { s with mutex := some .worker, worker := .testing } else none
  | .testing =>
    if s.msgQueue.isEmpty && !s.bStop then some { s with worker := .toWait }
    else some { s with worker := .dispatch }
  | .toWait => some { s with worker := .waiting, mutex := none }
  | .waiting => none
  | .dispatch =>
    if s.bStop then some { s with worker := .drain, seenStop := some s.posted }
    else
      match s.msgQueue with
      -- `front()` of an empty queue
      | [] => none
      | n :: _ => some (s.take find n false)
  | .running n _ draining => some { s with worker := .toPop n draining }
  | .toPop n draining =>
    match s.msgQueue with
    | [] => none
    | _ :: rest =>
      let s := { s with msgQueue := rest, finished := s.finished ++ [n] }
      if draining then some { s with worker := .drain }
      else some { s with worker := .top, mutex := none }
  | .drain =>
    match s.msgQueue with
    | [] => some { s with worker := .exited, mutex := none }
    | n :: _ => some (s.take find n true)
  | .exited => none

/-- The next step of `PostMsgtoQueue` on thread `i`. -/
def producerStep (v : Variant) (i : Nat) (s : LogicSystem ν κ) : Option (LogicSystem ν κ) :=
  let go (pos : ProducerPos ν) := Function.update s.producers i pos
  match s.producers i with
  | .idle => none
  | .entered n =>
    if s.mutex = none then
      some { s with mutex := some (.producer i), producers := go (.locked n) }
    else none
  | .locked n =>
    some { s with
      msgQueue := s.msgQueue ++ [n]
      posted := s.posted ++ [n]
      producers := go .pushed }
  | .pushed =>
    if s.msgQueue.length = 1 then
      match v with
      | .notifyUnderLock => some { s with producers := go .notifying }
      | .unlockFirst => some { s with producers := go .unlockingFirst }
    else some { s with producers := go .unlocking }
  | .notifying => some { s with producers := go .unlocking }.notifyOne
  | .unlocking => some { s with mutex := none, producers := go .idle }
  | .unlockingFirst => some { s with mutex := none, producers := go .notifyingAfter }
  | .notifyingAfter => some { s with producers := go .idle }.notifyOne

/-- The next step of `~LogicSystem`. -/
def destructorStep (s : LogicSystem ν κ) : Option (LogicSystem ν κ) :=
  match s.destructor with
  | .alive => some { s with bStop := true, destructor := .stopped }
  | .stopped => some { s with destructor := .joining }.notifyOne
  | .joining =>
    match s.worker with
    | .exited => some { s with destructor := .joined }
    | _ => none
  | .joined => none

inductive Act (ν : Type) where
  | worker
  /-- the worker leaves `wait` without a notification -/
  | spurious
  /-- thread `i` calls `PostMsgtoQueue` -/
  | post (i : Nat) (n : ν)
  | producer (i : Nat)
  | destructor

def step (v : Variant) (find : ν → Option κ) (s : LogicSystem ν κ) :
    Act ν → Option (LogicSystem ν κ)
  | .worker => s.workerStep find
  | .spurious =>
    match s.worker with
    | .waiting => some { s with worker := .woken }
    | _ => none
  | .post i n =>
    match s.producers i with
    | .idle => some { s with producers := Function.update s.producers i (.entered n) }
    | _ => none
  | .producer i => s.producerStep v i
  | .destructor => s.destructorStep

def system (v : Variant) (find : ν → Option κ) : Lib.System (LogicSystem ν κ) (Act ν) where
  init := init
  step := step v find

/-! ## What a step can do -/

variable {find : ν → Option κ} {v : Variant} {i : Nat} {s s' : LogicSystem ν κ}

/-- The worker is behind its test, about to look at the front node. -/
def AtFront (s : LogicSystem ν κ) (draining : Bool) : Prop :=
  if draining then s.worker = .drain else s.worker = .dispatch ∧ s.bStop = false

/-- The steps of `DealMsg`, each with what it finds and what it leaves. -/
inductive WorkerSpec (find : ν → Option κ) (s : LogicSystem ν κ) : LogicSystem ν κ → Prop where
  | lock (pos : s.worker = .top ∨ s.worker = .woken) (free : s.mutex = none) :
      WorkerSpec find s { s with mutex := some .worker, worker := .testing }
  | idle (pos : s.worker = .testing) (empty : s.msgQueue = []) (clear : s.bStop = false) :
      WorkerSpec find s { s with worker := .toWait }
  | ready (pos : s.worker = .testing) (work : s.msgQueue ≠ [] ∨ s.bStop = true) :
      WorkerSpec find s { s with worker := .dispatch }
  | wait (pos : s.worker = .toWait) :
      WorkerSpec find s { s with worker := .waiting, mutex := none }
  | sawStop (pos : s.worker = .dispatch) (stop : s.bStop = true) :
      WorkerSpec find s { s with worker := .drain, seenStop := some s.posted }
  | call {n : ν} {c : κ} {rest : List ν} {d : Bool} (pos : s.AtFront d)
      (que : s.msgQueue = n :: rest) (found : find n = some c) :
      WorkerSpec find s { s with worker := .running n c d, calls := s.calls ++ [c] }
  | skip {n : ν} {rest : List ν} {d : Bool} (pos : s.AtFront d) (que : s.msgQueue = n :: rest)
      (missing : find n = none) : WorkerSpec find s { s with worker := .toPop n d }
  | returned {n : ν} {c : κ} {d : Bool} (pos : s.worker = .running n c d) :
      WorkerSpec find s { s with worker := .toPop n d }
  | pop {n m : ν} {rest : List ν} (pos : s.worker = .toPop n false)
      (que : s.msgQueue = m :: rest) : WorkerSpec find s { s with
        worker := .top, mutex := none, msgQueue := rest, finished := s.finished ++ [n] }
  | popDrain {n m : ν} {rest : List ν} (pos : s.worker = .toPop n true)
      (que : s.msgQueue = m :: rest) : WorkerSpec find s { s with
        worker := .drain, msgQueue := rest, finished := s.finished ++ [n] }
  | exit (pos : s.worker = .drain) (empty : s.msgQueue = []) :
      WorkerSpec find s { s with worker := .exited, mutex := none }

theorem take_cases {n : ν} {rest : List ν} {d : Bool} (pos : s.AtFront d)
    (que : s.msgQueue = n :: rest) : WorkerSpec find s (s.take find n d) := by
  unfold take
  cases hfind : find n with
  | some c => exact .call pos que hfind
  | none => exact .skip pos que hfind

theorem workerStep_cases (h : s.workerStep find = some s') : WorkerSpec find s s' := by
  unfold workerStep at h
  cases hw : s.worker with
  | top =>
    simp only [hw, Option.ite_none_right_eq_some] at h
    obtain ⟨hfree, hs⟩ := h
    cases hs
    exact .lock (Or.inl hw) hfree
  | woken =>
    simp only [hw, Option.ite_none_right_eq_some] at h
    obtain ⟨hfree, hs⟩ := h
    cases hs
    exact .lock (Or.inr hw) hfree
  | testing =>
    simp only [hw] at h
    split at h
    · rename_i htest
      cases h
      simp only [Bool.and_eq_true, List.isEmpty_iff, Bool.not_eq_true'] at htest
      exact .idle hw htest.1 htest.2
    · rename_i htest
      cases h
      refine .ready hw ?_
      by_cases hq : s.msgQueue = []
      · right
        simpa [hq] using htest
      · exact Or.inl hq
  | toWait =>
    rw [hw] at h
    cases h
    exact .wait hw
  | dispatch =>
    simp only [hw] at h
    by_cases hstop : s.bStop = true
    · rw [if_pos hstop] at h
      cases h
      exact .sawStop hw hstop
    · rw [if_neg hstop] at h
      cases hq : s.msgQueue with
      | nil =>
        rw [hq] at h
        cases h
      | cons n rest =>
        rw [hq] at h
        cases h
        exact take_cases ⟨hw, by simpa using hstop⟩ hq
  | running n c d =>
    rw [hw] at h
    cases h
    exact .returned hw
  | toPop n d =>
    simp only [hw] at h
    cases hq : s.msgQueue with
    | nil =>
      rw [hq] at h
      cases h
    | cons m rest =>
      rw [hq] at h
      cases d with
      | true =>
        cases h
        exact .popDrain hw hq
      | false =>
        cases h
        exact .pop hw hq
  | drain =>
    simp only [hw] at h
    split at h
    · rename_i hq
      cases h
      exact .exit hw hq
    · rename_i n rest hq
      cases h
      exact take_cases hw hq
  | waiting | exited =>
    rw [hw] at h
    cases h

/-- Thread `i` moves on. -/
def move (s : LogicSystem ν κ) (i : Nat) (pos : ProducerPos ν) : LogicSystem ν κ :=
  { s with producers := Function.update s.producers i pos }

/-- The steps of `PostMsgtoQueue`. -/
inductive ProducerSpec (s : LogicSystem ν κ) (i : Nat) : LogicSystem ν κ → Prop where
  | lock {n : ν} (pos : s.producers i = .entered n) (free : s.mutex = none) :
      ProducerSpec s i { s.move i (.locked n) with mutex := some (.producer i) }
  | push {n : ν} (pos : s.producers i = .locked n) : ProducerSpec s i { s.move i .pushed with
        msgQueue := s.msgQueue ++ [n], posted := s.posted ++ [n] }
  | first {next : ProducerPos ν} (pos : s.producers i = .pushed) (one : s.msgQueue.length = 1)
      (next_eq : next = .notifying ∨ next = .unlockingFirst) : ProducerSpec s i (s.move i next)
  | later (pos : s.producers i = .pushed) (more : s.msgQueue.length ≠ 1) :
      ProducerSpec s i (s.move i .unlocking)
  | notify (pos : s.producers i = .notifying) : ProducerSpec s i (s.move i .unlocking).notifyOne
  | unlock (pos : s.producers i = .unlocking) :
      ProducerSpec s i { s.move i .idle with mutex := none }
  | unlockFirst (pos : s.producers i = .unlockingFirst) :
      ProducerSpec s i { s.move i .notifyingAfter with mutex := none }
  | notifyAfter (pos : s.producers i = .notifyingAfter) :
      ProducerSpec s i (s.move i .idle).notifyOne

theorem producerStep_cases (h : s.producerStep v i = some s') : ProducerSpec s i s' := by
  unfold producerStep at h
  dsimp only at h
  cases hp : s.producers i with
  | idle =>
    rw [hp] at h
    cases h
  | entered n =>
    simp only [hp, Option.ite_none_right_eq_some] at h
    obtain ⟨hfree, hs⟩ := h
    cases hs
    exact .lock hp hfree
  | locked n =>
    rw [hp] at h
    cases h
    exact .push hp
  | pushed =>
    simp only [hp] at h
    by_cases hone : s.msgQueue.length = 1
    · rw [if_pos hone] at h
      cases v with
      | notifyUnderLock =>
        cases h
        exact .first hp hone (Or.inl rfl)
      | unlockFirst =>
        cases h
        exact .first hp hone (Or.inr rfl)
    · rw [if_neg hone] at h
      cases h
      exact .later hp hone
  | notifying =>
    rw [hp] at h
    cases h
    exact .notify hp
  | unlocking =>
    rw [hp] at h
    cases h
    exact .unlock hp
  | unlockingFirst =>
    rw [hp] at h
    cases h
    exact .unlockFirst hp
  | notifyingAfter =>
    rw [hp] at h
    cases h
    exact .notifyAfter hp

/-- The steps of `~LogicSystem`. -/
inductive DestructorSpec (s : LogicSystem ν κ) : LogicSystem ν κ → Prop where
  | stop (pos : s.destructor = .alive) :
      DestructorSpec s { s with bStop := true, destructor := .stopped }
  | notify (pos : s.destructor = .stopped) :
      DestructorSpec s ({ s with destructor := .joining } : LogicSystem ν κ).notifyOne
  | join (pos : s.destructor = .joining) (left : s.worker = .exited) :
      DestructorSpec s { s with destructor := .joined }

theorem destructorStep_cases (h : s.destructorStep = some s') : DestructorSpec s s' := by
  unfold destructorStep at h
  cases hd : s.destructor with
  | alive =>
    rw [hd] at h
    cases h
    exact .stop hd
  | stopped =>
    rw [hd] at h
    cases h
    exact .notify hd
  | joining =>
    rw [hd] at h
    dsimp only at h
    split at h
    · rename_i hw
      cases h
      exact .join hd hw
    · cases h
  | joined =>
    rw [hd] at h
    cases h

end LogicSystem
end AsyncEchoServer
