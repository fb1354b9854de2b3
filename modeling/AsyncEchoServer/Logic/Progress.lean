import AsyncEchoServer.Logic.Decoupling
import AsyncEchoServer.Logic.Handover

/-!
# `Logic/Progress.lean` — who can go on in the logic queue

A thread that is not at a lock and does not wait can take its next step, and whoever holds `_mutex`
is such a thread. So nobody is left blocked: when no thread can go on, the mutex is free, nobody is
in `PostMsgtoQueue`, and the worker waits or has left (`quiet_rests`).

A worker leaves when the singleton is destroyed, and not before (`Serves`).
-/

set_option autoImplicit false

namespace AsyncEchoServer
namespace LogicSystem

variable {ν κ : Type} {find : ν → Option κ} {v : Variant} {s s' : LogicSystem ν κ}

/-- The worker is on its way out. -/
def Draining : WorkerPos ν κ → Prop
  | .drain | .exited => True
  | .running _ _ d | .toPop _ d => d = true
  | .top | .testing | .toWait | .waiting | .woken | .dispatch => False

/-- As long as the singleton lives, the worker serves. -/
structure Serves (s : LogicSystem ν κ) : Prop where
  told : s.bStop = true → s.destructor ≠ .alive
  drains : Draining s.worker → s.bStop = true

theorem init_serves : (init : LogicSystem ν κ).Serves where
  told h := by cases h
  drains h := h.elim

theorem Woken.draining (h : Woken s s') (hd : Draining s'.worker) : Draining s.worker := by
  rcases h with heq | ⟨_, heq⟩
  · rwa [← heq]
  · rw [heq] at hd
    exact hd.elim

theorem workerStep_serves (h : s.Serves) (hstep : s.workerStep find = some s') : s'.Serves := by
  obtain ⟨hstop, hdest⟩ := workerStep_frame hstep
  refine ⟨fun hs => by rw [hdest]; exact h.told (by rwa [← hstop]), fun hd => ?_⟩
  rw [hstop]
  cases workerStep_cases hstep with
  | lock | idle | ready | wait => exact hd.elim
  | pop => exact hd.elim
  | sawStop pos stop => exact stop
  | call pos | skip pos =>
    have hdrain : s.worker = .drain := by
      rw [show _ = true from hd] at pos
      exact pos
    exact h.drains (by rw [hdrain]; trivial)
  | returned pos => exact h.drains (by rw [pos]; exact hd)
  | popDrain pos que => exact h.drains (by rw [pos]; rfl)
  | exit pos empty => exact h.drains (by rw [pos]; trivial)

theorem step_serves {a : Act ν} (h : s.Serves) (hstep : step v find s a = some s') :
    s'.Serves := by
  by_cases hw : a = .worker
  · subst hw
    exact workerStep_serves h hstep
  · by_cases hd : a = .destructor
    · subst hd
      cases destructorStep_cases hstep with
      | stop pos => exact ⟨fun _ halive => (by cases halive), fun _ => rfl⟩
      | notify pos =>
        obtain ⟨hstop, hdest, _⟩ := notifyOne_frame ({ s with destructor := .joining })
        refine ⟨fun _ halive => (by cases hdest.symm.trans halive), fun hd => ?_⟩
        rw [hstop]
        exact h.drains ((notifyOne_woken { s with destructor := .joining }).draining hd)
      | join pos left => exact ⟨fun _ halive => (by cases halive), h.drains⟩
    · have haside := step_aside hstep hw hd
      refine ⟨fun hs => ?_, fun hd => ?_⟩
      · rw [haside.dtor]
        exact h.told (by rwa [← haside.stop])
      · rw [haside.stop]
        exact h.drains (haside.worker.draining hd)

/-- Only the destructor's own steps move it. -/
theorem step_destructor {a : Act ν} (ha : a ≠ .destructor) (hstep : step v find s a = some s') :
    s'.destructor = s.destructor := by
  by_cases hw : a = .worker
  · subst hw
    have hstep : s.workerStep find = some s' := hstep
    exact (workerStep_frame hstep).2
  · exact (step_aside hstep hw ha).dtor

/-- In front of a critical section of `_mutex`, or in one, a producer goes on. -/
theorem producerStep_isSome {i : Nat} (hidle : s.producers i ≠ .idle)
    (hlock : ∀ n, s.producers i ≠ .entered n) : (s.producerStep v i).isSome = true := by
  unfold producerStep
  cases hp : s.producers i with
  | idle => exact absurd hp hidle
  | entered n => exact absurd hp (hlock n)
  | pushed =>
    dsimp only
    split
    · cases v <;> rfl
    · rfl
  | locked | notifying | unlocking | unlockingFirst | notifyingAfter => rfl

/-- So does the worker, if it does not wait. -/
theorem workerStep_isSome (hi : Inv find s) (hout : s.worker ≠ .top ∧ s.worker ≠ .woken)
    (hwait : s.worker ≠ .waiting) (hexit : s.worker ≠ .exited) :
    (s.workerStep find).isSome = true := by
  have hfront := hi.front
  unfold workerStep
  unfold picked at hfront
  cases hw : s.worker with
  | top => exact absurd hw hout.1
  | woken => exact absurd hw hout.2
  | waiting => exact absurd hw hwait
  | exited => exact absurd hw hexit
  | testing =>
    dsimp only
    split <;> rfl
  | toWait | running => rfl
  | dispatch =>
    rw [hw] at hfront
    dsimp only at hfront ⊢
    split
    · rfl
    · rename_i hstop
      rcases hfront with hque | hstop'
      · obtain ⟨n, rest, hq⟩ := List.exists_cons_of_ne_nil hque
        rw [hq]
        rfl
      · exact absurd hstop' hstop
  | toPop n d =>
    rw [hw] at hfront
    obtain ⟨rest, hq⟩ := List.head?_eq_some_iff.mp hfront
    dsimp only
    rw [hq]
    cases d <;> rfl
  | drain =>
    dsimp only
    split <;> rfl

/-- **When nobody can go on, everybody rests.** -/
theorem quiet_rests (hi : Inv find s) (ho : Lib.Owned s.mutex s.holds)
    (hw : s.workerStep find = none) (hp : ∀ i, s.producerStep v i = none) :
    (s.worker = .waiting ∨ s.worker = .exited) ∧ ∀ i, s.producers i = .idle := by
  -- the holder of the mutex could go on
  have hfree : s.mutex = none := by
    by_contra hheld
    obtain ⟨t, ht⟩ := Option.ne_none_iff_exists'.mp hheld
    have hin := ho t ht
    cases t with
    | worker =>
      have hsome : (s.workerStep find).isSome = true := by
        refine workerStep_isSome hi ⟨?_, ?_⟩ ?_ ?_ <;> intro hpos <;> simp only [holds, hpos] at hin
      rw [hw] at hsome
      cases hsome
    | producer i =>
      have hsome : (s.producerStep v i).isSome = true := by
        refine producerStep_isSome ?_ fun n => ?_ <;> intro hpos <;> simp only [holds, hpos] at hin
      rw [hp i] at hsome
      cases hsome
  constructor
  · by_contra hrest
    obtain ⟨hwait, hexit⟩ := not_or.mp hrest
    have hsome : (s.workerStep find).isSome = true := by
      by_cases hlock : s.worker = .top ∨ s.worker = .woken
      · unfold workerStep
        rcases hlock with hlock | hlock <;> rw [hlock] <;>
          exact congrArg Option.isSome (if_pos hfree)
      · exact workerStep_isSome hi (not_or.mp hlock) hwait hexit
    rw [hw] at hsome
    cases hsome
  · intro i
    by_contra hidle
    have hsome : (s.producerStep v i).isSome = true := by
      by_cases hlock : ∃ n, s.producers i = .entered n
      · obtain ⟨n, hn⟩ := hlock
        unfold producerStep
        rw [hn]
        exact congrArg Option.isSome (if_pos hfree)
      · exact producerStep_isSome hidle fun n hn => hlock ⟨n, hn⟩
    rw [hp i] at hsome
    cases hsome

end LogicSystem
end AsyncEchoServer
