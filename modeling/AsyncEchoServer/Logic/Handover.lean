import AsyncEchoServer.Logic.Shutdown

/-!
# `Logic/Handover.lean` — from a producer's call to the callback's return

What a system that contains the logic queue needs of it: the nodes thread `i` has called
`PostMsgtoQueue` with (`handedOver`, for a thread that posts everything there is) and the nodes
the worker is done with (`handled`: the callback has returned, or there was none). `handled` runs
ahead of `finished` by the node about to be popped.

Between the two, nothing is reordered, and a step of the queue changes at most one of them.
-/

set_option autoImplicit false

namespace AsyncEchoServer
namespace LogicSystem

variable {ν κ : Type} {find : ν → Option κ} {v : Variant} {s s' : LogicSystem ν κ} {i : Nat}

/-- The node of a call that has not come to its push. -/
def pendingPost (s : LogicSystem ν κ) (i : Nat) : List ν :=
  match s.producers i with
  | .entered n | .locked n => [n]
  | _ => []

/-- What has been posted, when thread `i` is the only one that posts. -/
def handedOver (s : LogicSystem ν κ) (i : Nat) : List ν := s.posted ++ s.pendingPost i

/-- The nodes the worker is done with. -/
def handled (s : LogicSystem ν κ) : List ν :=
  s.finished ++
    match s.worker with
    | .toPop n _ => [n]
    | _ => []

/-! ## The producer's side -/

theorem notifyOne_handedOver (s : LogicSystem ν κ) (i : Nat) :
    s.notifyOne.handedOver i = s.handedOver i := by
  unfold notifyOne
  split <;> rfl

theorem producerStep_handedOver (h : s.producerStep v i = some s') :
    s'.handedOver i = s.handedOver i := by
  cases producerStep_cases h with
  | lock pos free => simp only [handedOver, pendingPost, move, pos, Function.update_self]
  | push pos =>
    simp only [handedOver, pendingPost, move, pos, Function.update_self, List.append_nil]
  | first pos one next_eq =>
    rcases next_eq with rfl | rfl <;>
      simp only [handedOver, pendingPost, move, pos, Function.update_self]
  | later pos more => simp only [handedOver, pendingPost, move, pos, Function.update_self]
  | unlock pos => simp only [handedOver, pendingPost, move, pos, Function.update_self]
  | unlockFirst pos => simp only [handedOver, pendingPost, move, pos, Function.update_self]
  | notify pos =>
    rw [notifyOne_handedOver]
    simp only [handedOver, pendingPost, move, pos, Function.update_self]
  | notifyAfter pos =>
    rw [notifyOne_handedOver]
    simp only [handedOver, pendingPost, move, pos, Function.update_self]

theorem workerStep_handedOver (h : s.workerStep find = some s') :
    s'.handedOver i = s.handedOver i := by
  cases workerStep_cases h <;> rfl

theorem destructorStep_handedOver (h : s.destructorStep = some s') :
    s'.handedOver i = s.handedOver i := by
  cases destructorStep_cases h with
  | notify pos => exact notifyOne_handedOver _ i
  | _ => rfl

theorem spurious_handedOver (h : step v find s .spurious = some s') :
    s'.handedOver i = s.handedOver i := by
  simp only [step] at h
  split at h <;> cases h
  rfl

/-- A call of `PostMsgtoQueue` by the one thread that posts. -/
theorem post_handedOver {n : ν} (h : step v find s (.post i n) = some s') :
    s'.handedOver i = s.handedOver i ++ [n] := by
  simp only [step] at h
  cases hp : s.producers i with
  | idle =>
    rw [hp] at h
    cases h
    simp only [handedOver, pendingPost, hp, Function.update_self, List.append_nil]
  | _ =>
    rw [hp] at h
    cases h

/-! ## The worker's side -/

theorem Woken.handled (hw : Woken s s') (hfin : s'.finished = s.finished) :
    s'.handled = s.handled := by
  unfold LogicSystem.handled
  rcases hw with hw | ⟨hw, hw'⟩
  · rw [hw, hfin]
  · rw [hw, hw', hfin]

theorem notifyOne_finished (s : LogicSystem ν κ) : s.notifyOne.finished = s.finished :=
  (notifyOne_queue s).2.2

theorem producerStep_handled (h : s.producerStep v i = some s') : s'.handled = s.handled := by
  refine (producerStep_aside h).worker.handled ?_
  cases producerStep_cases h with
  | notify pos => exact notifyOne_finished _
  | notifyAfter pos => exact notifyOne_finished _
  | _ => rfl

theorem post_handled {n : ν} (h : step v find s (.post i n) = some s') :
    s'.handled = s.handled := by
  refine (step_aside h nofun nofun).worker.handled ?_
  simp only [step] at h
  split at h <;> cases h
  rfl

theorem spurious_handled (h : step v find s .spurious = some s') : s'.handled = s.handled := by
  refine (step_aside h nofun nofun).worker.handled ?_
  simp only [step] at h
  split at h <;> cases h
  rfl

theorem destructorStep_handled (h : s.destructorStep = some s') : s'.handled = s.handled := by
  refine (destructorStep_aside h).1.handled ?_
  cases destructorStep_cases h with
  | notify pos => exact notifyOne_finished _
  | _ => rfl

/-- The worker's return from a callback. -/
theorem workerStep_returned {n : ν} {c : κ} {d : Bool} (hw : s.worker = .running n c d)
    (h : s.workerStep find = some s') : s'.handled = s.handled ++ [n] := by
  rw [workerStep, hw] at h
  cases h
  simp only [LogicSystem.handled, hw, List.append_nil]

theorem AtFront.handled {d : Bool} (h : s.AtFront d) : s.handled = s.finished := by
  cases d with
  | true =>
    have hw : s.worker = .drain := h
    simp only [LogicSystem.handled, hw, List.append_nil]
  | false =>
    have hw : s.worker = .dispatch := h.1
    simp only [LogicSystem.handled, hw, List.append_nil]

/-- Every other step of the worker is done with at most a node nothing is called for. -/
theorem workerStep_handled (hrun : ∀ n c d, s.worker ≠ .running n c d)
    (h : s.workerStep find = some s') :
    s'.handled = s.handled ∨ ∃ n, find n = none ∧ s'.handled = s.handled ++ [n] := by
  cases workerStep_cases h with
  | returned pos => exact absurd pos (hrun _ _ _)
  | @skip n rest d pos que missing => exact Or.inr ⟨n, missing, by rw [pos.handled]; rfl⟩
  | call pos que found => exact Or.inl (by rw [pos.handled]; exact List.append_nil _)
  | lock pos free =>
    rcases pos with hw | hw <;> exact Or.inl (by simp only [LogicSystem.handled, hw])
  | pop pos que => exact Or.inl (by simp only [LogicSystem.handled, pos, List.append_nil])
  | popDrain pos que => exact Or.inl (by simp only [LogicSystem.handled, pos, List.append_nil])
  | idle pos empty clear => exact Or.inl (by simp only [LogicSystem.handled, pos])
  | ready pos work => exact Or.inl (by simp only [LogicSystem.handled, pos])
  | wait pos => exact Or.inl (by simp only [LogicSystem.handled, pos])
  | sawStop pos stop => exact Or.inl (by simp only [LogicSystem.handled, pos])
  | exit pos empty => exact Or.inl (by simp only [LogicSystem.handled, pos])

/-! ## In between -/

/-- Everything posted is finished or waiting. -/
def Booked (s : LogicSystem ν κ) : Prop := s.posted = s.finished ++ s.msgQueue

theorem QueueSpec.booked (h : QueueSpec s s') (hb : s.Booked) : s'.Booked := by
  unfold Booked at hb ⊢
  cases h with
  | same que post fin => rw [post, fin, que, hb]
  | pushed n que post fin => rw [post, fin, que, hb, List.append_assoc]
  | popped n que post fin => rw [post, fin, hb, que, List.append_cons]

/-- The worker is done with a prefix of what was posted. -/
theorem Inv.handled_prefix (hi : Inv find s) (hb : s.Booked) : s.handled <+: s.posted := by
  have hfront := hi.front
  rw [hb]
  unfold LogicSystem.handled
  cases hw : s.worker with
  | toPop n d =>
    simp only [picked, hw] at hfront
    obtain ⟨rest, hq⟩ := List.head?_eq_some_iff.mp hfront
    exact ⟨rest, by rw [hq, List.append_assoc]; rfl⟩
  | _ => exact ⟨s.msgQueue, by rw [List.append_nil]⟩

/-- The invariant only looks at the callbacks of nodes that were posted. -/
theorem Inv.congr {find' : ν → Option κ} (hi : Inv find s) (hb : s.Booked)
    (h : ∀ n ∈ s.posted, find' n = find n) : Inv find' s := by
  have hfront := hi.front
  have hqueue : ∀ n, s.msgQueue.head? = some n → find' n = find n := by
    intro n hn
    obtain ⟨rest, hq⟩ := List.head?_eq_some_iff.mp hn
    apply h n
    rw [hb, hq]
    exact List.mem_append_right _ List.mem_cons_self
  refine ⟨hi.lock, hi.front, hi.wake, ?_, ?_⟩
  · have hfin : s.finished.filterMap find' = s.finished.filterMap find := by
      apply List.filterMap_congr
      intro n hn
      apply h n
      rw [hb]
      exact List.mem_append_left _ hn
    rw [hi.called, hfin]
    cases hw : s.worker <;> simp only [inCall, picked, hw] at hfront ⊢
    rw [hqueue _ hfront]
  · intro n c d hw
    simp only [picked, hw] at hfront
    rw [hqueue n hfront]
    exact hi.inCallBack n c d hw

end LogicSystem
end AsyncEchoServer
