import AsyncEchoServer.Logic.Decoupling
import AsyncEchoServer.Logic.Process
import AsyncEchoServer.Logic.Threads

/-!
# `Logic/Work.lean` — what the threads of the logic queue still have to do

The steps that are left until everybody rests, for each thread by its position and for each node in
the queue. The weights are read off `PostMsgtoQueue` and `DealMsg` from behind: a position weighs
more than every position its next step can lead to. A push puts a node in the queue, so a thread on
its way to the push carries the node's weight; a `notify_one` may wake the worker, so a thread on its
way to it carries the weight of waking up.

A callback is a step here. What it has to do by itself is a parameter (`inCall`).
-/

set_option autoImplicit false

namespace AsyncEchoServer

variable {ν κ : Type}

/-- Taking the mutex again, the test, and back into `wait`. -/
def wakeWork : Nat := 9

/-- The steps from a node at the front of the queue to the next test. -/
def nodeWork : Nat := 9

def WorkerPos.work (inCall : Nat) : WorkerPos ν κ → Nat
  | .exited | .waiting => 0
  | .toWait | .toPop _ _ => 1
  | .running _ _ _ => 2 + inCall
  | .drain => 6
  | .dispatch => 7
  | .testing => 8
  | .top | .woken => wakeWork

def ProducerPos.work : ProducerPos ν → Nat
  | .idle => 0
  | .unlocking => 1
  | .notifyingAfter => 1 + wakeWork
  | .notifying | .unlockingFirst => 2 + wakeWork
  | .pushed => 3 + wakeWork
  | .locked _ => 4 + wakeWork + nodeWork
  | .entered _ => 5 + wakeWork + nodeWork

/-- What a call of `PostMsgtoQueue` makes there to do. -/
def postWork : Nat := 5 + wakeWork + nodeWork

/-- What a byte of a chunk may make there to do: a pass that posts a message. -/
def byteWork : Nat := postWork + 1

/-- A process that has died does nothing more. -/
def Fate.work : Fate → Nat
  | .alive => 1
  | _ => 0

theorem Fate.work_dead {fate : Fate} (h : fate ≠ .alive) : fate.work = 0 := by
  cases fate with
  | alive => exact absurd rfl h
  | _ => rfl

namespace LogicSystem

variable {find : ν → Option κ} {v : Variant} {s s' : LogicSystem ν κ} {i : Nat} {c c' : Nat}

/-- What the worker has to do, with the nodes that are queued. -/
def work (inCall : Nat) (s : LogicSystem ν κ) : Nat :=
  s.worker.work inCall + nodeWork * s.msgQueue.length

theorem notifyOne_work (s : LogicSystem ν κ) (c : Nat) : s.notifyOne.work c ≤ s.work c + wakeWork := by
  unfold notifyOne
  split
  · rename_i hw
    simp only [work, hw, WorkerPos.work]
    omega
  · exact Nat.le_add_right ..

/-- A step of `DealMsg` is one less to do, whatever is to be done in the callbacks before it and
behind it. -/
theorem workerStep_work (hc : c' ≤ 3) (h : s.workerStep find = some s') :
    s'.work c' < s.work c := by
  cases workerStep_cases h with
  | lock pos free =>
    rcases pos with pos | pos <;> simp [work, pos, WorkerPos.work, wakeWork]
  | idle pos | wait pos => simp [work, pos, WorkerPos.work]
  | ready pos => simp [work, pos, WorkerPos.work]
  | sawStop pos => simp [work, pos, WorkerPos.work]
  | @call n k rest d pos que found =>
    have hpos : s.worker = .drain ∨ s.worker = .dispatch := by
      cases d with
      | true => exact Or.inl pos
      | false => exact Or.inr pos.1
    rcases hpos with hpos | hpos <;> simp only [work, hpos, WorkerPos.work] <;> omega
  | @skip n rest d pos que missing =>
    have hpos : s.worker = .drain ∨ s.worker = .dispatch := by
      cases d with
      | true => exact Or.inl pos
      | false => exact Or.inr pos.1
    rcases hpos with hpos | hpos <;> simp [work, hpos, WorkerPos.work]
  | returned pos =>
    simp only [work, pos, WorkerPos.work]
    omega
  | pop pos que | popDrain pos que =>
    simp only [work, pos, que, WorkerPos.work, List.length_cons, wakeWork, nodeWork]
    omega
  | exit pos empty => simp [work, pos, WorkerPos.work]

/-- Thread `i` has moved, and made no more to do than it had. -/
theorem moved_work {pos : ProducerPos ν} (hmove : s'.producers = Function.update s.producers i pos)
    (hless : s'.work c + pos.work < s.work c + (s.producers i).work) :
    s'.work c + (s'.producers i).work < s.work c + (s.producers i).work ∧
      ∀ j, j ≠ i → s'.producers j = s.producers j := by
  rw [hmove, Function.update_self]
  exact ⟨hless, fun j hj => Function.update_of_ne hj _ _⟩

/-- A step in `PostMsgtoQueue` is one less to do, and the other threads have what they had. -/
theorem producerStep_work (h : s.producerStep v i = some s') :
    s'.work c + (s'.producers i).work < s.work c + (s.producers i).work ∧
      ∀ j, j ≠ i → s'.producers j = s.producers j := by
  have hstay : ∀ {p q : ProducerPos ν}, s.producers i = p → q.work < p.work →
      s.work c + q.work < s.work c + (s.producers i).work := by
    intro p q hp hlt
    rw [hp]
    exact Nat.add_lt_add_left hlt _
  have hwakes : ∀ {p q : ProducerPos ν}, s.producers i = p → wakeWork + q.work < p.work →
      (s.move i q).notifyOne.work c + q.work < s.work c + (s.producers i).work := by
    intro p q hp hlt
    have hwake := notifyOne_work (s.move i q) c
    have hsame : (s.move i q).work c = s.work c := rfl
    rw [hp]
    omega
  cases producerStep_cases h with
  | @lock n pos free => exact moved_work rfl (hstay pos (by simp [ProducerPos.work, wakeWork, nodeWork]))
  | @push n pos =>
    refine moved_work rfl ?_
    show s.worker.work c + nodeWork * (s.msgQueue ++ [n]).length + ProducerPos.pushed.work < _
    rw [pos, List.length_append]
    simp only [work, ProducerPos.work, List.length_singleton, Nat.mul_add]
    omega
  | first pos one next_eq =>
    refine moved_work rfl (hstay pos ?_)
    rcases next_eq with rfl | rfl <;> simp [ProducerPos.work]
  | later pos more => exact moved_work rfl (hstay pos (by simp [ProducerPos.work, wakeWork]))
  | notify pos =>
    exact moved_work (notifyOne_producers _) (hwakes pos (by simp [ProducerPos.work, wakeWork]))
  | unlock pos => exact moved_work rfl (hstay pos (by simp [ProducerPos.work]))
  | unlockFirst pos => exact moved_work rfl (hstay pos (by simp [ProducerPos.work, wakeWork]))
  | notifyAfter pos =>
    exact moved_work (notifyOne_producers _) (hwakes pos (by simp [ProducerPos.work, wakeWork]))

/-- A call of `PostMsgtoQueue`. -/
theorem post_work {n : ν} (h : step v find s (.post i n) = some s') :
    s'.work c = s.work c ∧ (s'.producers i).work = postWork ∧
      ∀ j, j ≠ i → s'.producers j = s.producers j := by
  simp only [step] at h
  split at h
  · cases h
    refine ⟨rfl, congrArg ProducerPos.work (Function.update_self i _ s.producers), fun j hj => ?_⟩
    exact Function.update_of_ne hj _ _
  · cases h

/-- A wakeup out of nowhere, or the destructor, wakes the worker at most. -/
theorem step_wakes {a : Act ν} (ha : a = .spurious ∨ a = .destructor)
    (h : step v find s a = some s') : s'.work c ≤ s.work c + wakeWork ∧ s'.producers = s.producers := by
  rcases ha with rfl | rfl
  · simp only [step] at h
    split at h
    · rename_i hw
      cases h
      refine ⟨?_, rfl⟩
      simp only [work, hw, WorkerPos.work]
      omega
    · cases h
  · cases destructorStep_cases h with
    | stop pos => exact ⟨Nat.le_add_right .., rfl⟩
    | notify pos => exact ⟨notifyOne_work _ c, notifyOne_producers _⟩
    | join pos left => exact ⟨Nat.le_add_right .., rfl⟩

end LogicSystem
end AsyncEchoServer
