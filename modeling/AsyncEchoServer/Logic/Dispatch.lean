import AsyncEchoServer.Logic.Invariant
import AsyncEchoServer.Session.Coupling

/-!
# `Logic/Dispatch.lean` — every post is dispatched once, in order

The logic queue simulates a first-in first-out channel that never closes: a push enters, a pop
passes. With the calls booked by the invariant this is `dispatch_exactly_once`, for the variant
that notifies under the lock and the one that unlocks first, and for any number of producers.

The nodes here are `LogicNode`s. What a callback is given is read off the node: its session, its
id, and the first `_cur_len` bytes of its payload.
-/

set_option autoImplicit false

namespace AsyncEchoServer
namespace LogicSystem

variable {ν κ : Type} {find : ν → Option κ} {v : Variant} {s s' : LogicSystem ν κ}

/-! ## The queue is a channel -/

/-- What a step does to the queue and its histories. -/
inductive QueueSpec (s s' : LogicSystem ν κ) : Prop where
  | same (que : s'.msgQueue = s.msgQueue) (post : s'.posted = s.posted)
      (fin : s'.finished = s.finished)
  | pushed (n : ν) (que : s'.msgQueue = s.msgQueue ++ [n]) (post : s'.posted = s.posted ++ [n])
      (fin : s'.finished = s.finished)
  | popped (n : ν) (que : s.msgQueue = n :: s'.msgQueue) (post : s'.posted = s.posted)
      (fin : s'.finished = s.finished ++ [n])

theorem notifyOne_queue (s : LogicSystem ν κ) : s.notifyOne.msgQueue = s.msgQueue ∧
    s.notifyOne.posted = s.posted ∧ s.notifyOne.finished = s.finished := by
  unfold notifyOne
  split <;> exact ⟨rfl, rfl, rfl⟩

theorem QueueSpec.notifyOne (h : QueueSpec s s') : QueueSpec s s'.notifyOne := by
  obtain ⟨hque, hpost, hfin⟩ := notifyOne_queue s'
  cases h with
  | same que post fin => exact .same (hque.trans que) (hpost.trans post) (hfin.trans fin)
  | pushed n que post fin =>
    exact .pushed n (hque.trans que) (hpost.trans post) (hfin.trans fin)
  | popped n que post fin =>
    exact .popped n (by rw [hque, que]) (hpost.trans post) (hfin.trans fin)

theorem workerStep_queue (hi : Inv find s) (h : s.workerStep find = some s') :
    QueueSpec s s' := by
  have hfront := hi.front
  -- the node that is popped is the one that was looked at
  have hpop : ∀ {n m : ν} {rest : List ν} {d : Bool}, s.worker = .toPop n d →
      s.msgQueue = m :: rest → s.msgQueue = n :: rest := by
    intro n m rest d hw hq
    simp only [picked, hw, hq, List.head?_cons, Option.some.injEq] at hfront
    rw [hq, hfront]
  cases workerStep_cases h with
  | pop pos que => exact .popped _ (hpop pos que) rfl rfl
  | popDrain pos que => exact .popped _ (hpop pos que) rfl rfl
  | _ => exact .same rfl rfl rfl

theorem producerStep_queue {i : Nat} (h : s.producerStep v i = some s') : QueueSpec s s' := by
  cases producerStep_cases h with
  | push pos => exact .pushed _ rfl rfl rfl
  | notify pos => exact QueueSpec.notifyOne (.same rfl rfl rfl)
  | notifyAfter pos => exact QueueSpec.notifyOne (.same rfl rfl rfl)
  | _ => exact .same rfl rfl rfl

theorem step_queue {a : Act ν} (hi : Inv find s) (h : step v find s a = some s') :
    QueueSpec s s' := by
  cases a with
  | worker => exact workerStep_queue hi h
  | producer i => exact producerStep_queue h
  | spurious =>
    simp only [step] at h
    split at h <;> cases h
    exact .same rfl rfl rfl
  | post i n =>
    simp only [step] at h
    split at h <;> cases h
    exact .same rfl rfl rfl
  | destructor =>
    cases destructorStep_cases h with
    | notify pos => exact QueueSpec.notifyOne (.same rfl rfl rfl)
    | _ => exact .same rfl rfl rfl

/-- **The logic queue is a channel** from the producers to the callbacks. -/
def toChannel : Lib.System.Simulation (system v find) (Lib.Channel.system (α := ν)) where
  rel s c := c.entered = s.posted ∧ c.out = s.finished ∧ c.waiting = s.msgQueue ∧
    c.closed = false
  init := ⟨rfl, rfl, rfl, rfl⟩
  step := by
    rintro s s' c a hs _ ⟨hent, hout, hwait, hopen⟩ hstep
    have hspec := step_queue (reachable_inv hs) hstep
    cases hspec with
    | same que post fin =>
      exact ⟨[], c, rfl, hent.trans post.symm, hout.trans fin.symm, hwait.trans que.symm, hopen⟩
    | pushed n que post fin =>
      refine ⟨[.enter n], c.enter n, rfl, ?_, ?_, ?_, hopen⟩
      · rw [post, ← hent]
        rfl
      · rw [Lib.Channel.out_enter, hout, fin]
      · rw [Lib.Channel.waiting_enter, hwait, que]
    | popped n que post fin =>
      obtain ⟨c', hpass, ho, hw, he, hc⟩ := Lib.Channel.pass_of_waiting hopen (hwait.trans que)
      refine ⟨[.pass], c', ?_, ?_, ?_, hw, hc.trans hopen⟩
      · rw [Lib.System.run_cons]
        show c.pass.bind _ = _
        rw [hpass]
        rfl
      · rw [he, hent, post]
      · rw [ho, hout, fin]

theorem posted_eq (h : (system v find).Reachable s) :
    s.posted = s.finished ++ s.msgQueue := by
  obtain ⟨c, _, hent, hout, hwait, _⟩ := toChannel.reachable h
  rw [← hent, ← hout, ← hwait, Lib.Channel.out_append_waiting]

/-- A node without a callback leaves the queue in two steps of the worker that is at it, and
nothing is called. -/
theorem unregistered_popped {n : ν} {rest : List ν} (hq : s.msgQueue = n :: rest)
    (hfind : find n = none) (hw : s.worker = .drain ∨ (s.worker = .dispatch ∧ s.bStop = false)) :
    ∃ s', (system v find).run s [.worker, .worker] = some s' ∧ s'.msgQueue = rest ∧
      s'.finished = s.finished ++ [n] ∧ s'.calls = s.calls := by
  have htake : ∀ d, s.take find n d = { s with worker := .toPop n d } := by
    intro d
    rw [take, hfind]
  rcases hw with hw | ⟨hw, hstop⟩
  · have h₁ : (system v find).step s .worker = some { s with worker := .toPop n true } := by
      simp only [system, step, workerStep, hw, hq, htake]
    have h₂ : (system v find).step { s with worker := .toPop n true } .worker = some { s with
        worker := .drain, msgQueue := rest, finished := s.finished ++ [n] } := by
      simp only [system, step, workerStep, hq, if_true]
    exact ⟨_, (Lib.System.run_of_step h₁).trans (Lib.System.run_of_step h₂), rfl, rfl, rfl⟩
  · have h₁ : (system v find).step s .worker = some { s with worker := .toPop n false } := by
      simp only [system, step, workerStep, hw, hstop, hq, htake, Bool.false_eq_true, if_false]
    have h₂ : (system v find).step { s with worker := .toPop n false } .worker = some { s with
        worker := .top, mutex := none, msgQueue := rest, finished := s.finished ++ [n] } := by
      simp only [system, step, workerStep, hq, Bool.false_eq_true, if_false]
    exact ⟨_, (Lib.System.run_of_step h₁).trans (Lib.System.run_of_step h₂), rfl, rfl, rfl⟩

/-- Only the front node is in a call. -/
theorem Inv.inCall_front (hi : Inv find s) :
    ∃ current : List ν, current.length ≤ 1 ∧ (∀ n ∈ current, s.msgQueue.head? = some n) ∧
      s.inCall find = current.filterMap find := by
  have hfront := hi.front
  cases hw : s.worker <;> simp only [inCall, picked, hw] at hfront ⊢
  case running n c d =>
    refine ⟨[n], Nat.le_refl 1, ?_, ?_⟩
    · intro m hm
      rw [List.mem_singleton.mp hm]
      exact hfront
    · simp [hi.inCallBack n c d hw]
  case toPop n d =>
    refine ⟨[n], Nat.le_refl 1, ?_, ?_⟩
    · intro m hm
      rw [List.mem_singleton.mp hm]
      exact hfront
    · cases hfind : find n <;> simp [hfind]
  all_goals exact ⟨[], Nat.zero_le 1, fun _ hn => absurd hn List.not_mem_nil, rfl⟩

end LogicSystem

/-! ## The nodes -/

structure LogicNode where
  /-- the session's uuid -/
  session : Nat
  recvNode : ReciveNode Short

/-- Session, id, and the first `_cur_len` bytes of the payload. -/
abbrev CallBackArgs := Nat × Short × Bytes

/-- Look up `_function_call_back`, and what the callback is called with. -/
def LogicNode.findCallBack (n : LogicNode) : Option CallBackArgs :=
  if n.recvNode.msgId = msgHelloWord then some (n.session, n.recvNode.message) else none

open LogicSystem in
/-- **Exactly-once dispatch in posting order, and no lost wakeup.** -/
theorem dispatch_exactly_once {v : Variant} {s : LogicSystem LogicNode CallBackArgs}
    (h : (system v LogicNode.findCallBack).Reachable s) :
    s.posted = s.finished ++ s.msgQueue ∧
    -- the calls are those of the finished nodes, and at most the front node's
    (∃ current : List LogicNode, current.length ≤ 1 ∧ (∀ n ∈ current, s.msgQueue.head? = some n) ∧
      s.calls = (s.finished ++ current).filterMap LogicNode.findCallBack) ∧
    (∀ n rest, s.msgQueue = n :: rest → n.findCallBack = none →
      s.worker = .drain ∨ (s.worker = .dispatch ∧ s.bStop = false) →
      ∃ s', (system v LogicNode.findCallBack).run s [.worker, .worker] = some s' ∧
        s'.msgQueue = rest ∧ s'.finished = s.finished ++ [n] ∧ s'.calls = s.calls) ∧
    -- a worker that sleeps on work has a notification coming
    (s.worker = .waiting → s.msgQueue ≠ [] → ∃ i, s.willNotify i) := by
  have hi := reachable_inv h
  refine ⟨posted_eq h, ?_, ?_, hi.wake⟩
  · obtain ⟨current, hlen, hhead, hcall⟩ := hi.inCall_front
    exact ⟨current, hlen, hhead, by rw [hi.called, hcall, List.filterMap_append]⟩
  · exact fun n rest hq hfind hw => unregistered_popped hq hfind hw

/-- A message of session 7 with a two-byte payload, and one nobody is registered for. -/
def helloNode : LogicNode where
  session := 7
  recvNode := { (MsgNode.zeroed (toShort 2)).advance 2 with msgId := msgHelloWord }

def otherNode : LogicNode where
  session := 7
  recvNode := { MsgNode.zeroed (toShort 0) with msgId := toShort 5 }

/-- The worker sleeps, two threads post, the first of them wakes it. -/
def wakeupRun : List (LogicSystem.Act LogicNode) :=
  [.worker, .worker, .worker, .post 0 helloNode, .producer 0, .producer 0, .producer 0,
    .producer 0, .producer 0, .post 1 otherNode, .producer 1, .producer 1, .producer 1,
    .producer 1, .worker, .worker, .worker, .worker, .worker]

open LogicSystem in
theorem dispatch_exactly_once_wakeup : ∃ s : LogicSystem LogicNode CallBackArgs,
    (system .unlockFirst LogicNode.findCallBack).run init wakeupRun = some s ∧
      s.calls = [(7, msgHelloWord, [0, 0])] ∧ s.posted = s.finished ++ s.msgQueue := by
  obtain ⟨s, hs, hcalls⟩ : ∃ s : LogicSystem LogicNode CallBackArgs,
      (system .unlockFirst LogicNode.findCallBack).run init wakeupRun = some s ∧
        s.calls = [(7, msgHelloWord, [0, 0])] := ⟨_, rfl, rfl⟩
  exact ⟨s, hs, hcalls, (dispatch_exactly_once (.of_run hs)).1⟩

end AsyncEchoServer
