import AsyncEchoServer.Logic.LogicSystem

/-!
# `Logic/Invariant.lean` — what holds between the steps of the logic system

One invariant for both servers and for every interleaving of any number of producers, the worker
and the destructor. Its parts lean on each other: mutual exclusion keeps producers away while the
worker is between its test and its `wait`, so a worker goes to sleep on an empty queue; and from
then on the first push finds size 1, so a sleeping worker with work to do has a producer on its
way to `notify_one`. That producer is `willNotify`.

The lemmas are by thread, since a thread leaves the others where they are: `moveWorker` and
`moveProducer` say what has to be shown of a step, and each case of `WorkerSpec` and
`ProducerSpec` shows it.
-/

set_option autoImplicit false

namespace AsyncEchoServer
namespace LogicSystem

variable {ν κ : Type}

/-- The thread is inside a critical section of `_mutex`. -/
def holds (s : LogicSystem ν κ) : Owner → Prop
  | .worker =>
    match s.worker with
    | .testing | .toWait | .dispatch | .running _ _ _ | .toPop _ _ | .drain => True
    | .top | .waiting | .woken | .exited => False
  | .producer i =>
    match s.producers i with
    | .locked _ | .pushed | .notifying | .unlocking | .unlockingFirst => True
    | .idle | .entered _ | .notifyingAfter => False

/-- What the worker's position says about the queue. -/
def picked (s : LogicSystem ν κ) : Prop :=
  match s.worker with
  | .toWait => s.msgQueue = []
  | .dispatch => s.msgQueue ≠ [] ∨ s.bStop = true
  | .running n _ _ | .toPop n _ => s.msgQueue.head? = some n
  | _ => True

/-- The thread has pushed, and will notify. -/
def willNotify (s : LogicSystem ν κ) (i : Nat) : Prop :=
  match s.producers i with
  | .pushed => s.msgQueue.length = 1
  | .notifying | .unlockingFirst | .notifyingAfter => True
  | _ => False

/-- The call made for a node that is not popped yet. -/
def inCall (find : ν → Option κ) (s : LogicSystem ν κ) : List κ :=
  match s.worker with
  | .running _ c _ => [c]
  | .toPop n _ => (find n).toList
  | _ => []

structure Inv (find : ν → Option κ) (s : LogicSystem ν κ) : Prop where
  lock : Lib.Excludes s.mutex s.holds
  front : s.picked
  wake : s.worker = .waiting → s.msgQueue ≠ [] → ∃ i, s.willNotify i
  called : s.calls = s.finished.filterMap find ++ s.inCall find
  inCallBack : ∀ n c d, s.worker = .running n c d → find n = some c

variable {find : ν → Option κ} {v : Variant} {s s' : LogicSystem ν κ}

theorem init_inv : Inv find (init : LogicSystem ν κ) where
  lock t ht := by cases t <;> exact ht.elim
  front := trivial
  wake h := by cases h
  called := rfl
  inCallBack _ _ _ h := by cases h

/-- Two threads are never inside a critical section together. -/
theorem Inv.alone (hi : Inv find s) (hw : s.holds .worker) (i : Nat) :
    ¬ s.holds (.producer i) := by
  intro hp
  have hsame := hi.lock.unique hw hp
  cases hsame

/-- A worker that leaves `wait` keeps the invariant. -/
theorem Inv.woken (hi : Inv find s) (hw : s.worker = .waiting) :
    Inv find { s with worker := .woken } where
  lock := hi.lock.mono fun t ht => by
    cases t with
    | worker => exact ht.elim
    | producer i => exact ht
  front := trivial
  wake h := by cases h
  called := by
    have h := hi.called
    simp only [inCall, hw] at h
    exact h
  inCallBack _ _ _ h := by cases h

theorem Inv.notifyOne (hi : Inv find s) : Inv find s.notifyOne := by
  unfold LogicSystem.notifyOne
  split
  · rename_i hw
    exact hi.woken hw
  · exact hi

/-- The worker moves on inside its critical section, and does not wait. -/
theorem Inv.moveWorker {pos : WorkerPos ν κ} {calls : List κ} {seen : Option (List ν)}
    (hi : Inv find s) (hw : s.holds .worker)
    (hfront : ({ s with worker := pos } : LogicSystem ν κ).picked) (hpos : pos ≠ .waiting)
    (hcalled : calls = s.finished.filterMap find ++
      ({ s with worker := pos } : LogicSystem ν κ).inCall find)
    (hcall : ∀ n c d, pos = .running n c d → find n = some c := by nofun) :
    Inv find { s with worker := pos, calls := calls, seenStop := seen } where
  lock := by
    intro t ht
    cases t with
    | worker => exact hi.lock _ hw
    | producer i => exact absurd ht (hi.alone hw i)
  front := hfront
  wake h := absurd h hpos
  called := hcalled
  inCallBack := hcall

theorem AtFront.holds {d : Bool} (h : s.AtFront d) : s.holds .worker := by
  cases d with
  | true =>
    have hw : s.worker = .drain := h
    simp only [LogicSystem.holds, hw]
  | false =>
    have hw : s.worker = .dispatch := h.1
    simp only [LogicSystem.holds, hw]

theorem AtFront.inCall {d : Bool} (h : s.AtFront d) : s.inCall find = [] := by
  cases d with
  | true =>
    have hw : s.worker = .drain := h
    simp only [LogicSystem.inCall, hw]
  | false =>
    have hw : s.worker = .dispatch := h.1
    simp only [LogicSystem.inCall, hw]

theorem Inv.workerStep (hi : Inv find s) (h : s.workerStep find = some s') :
    Inv find s' := by
  have hcalled := hi.called
  have hfront := hi.front
  cases workerStep_cases h with
  | lock pos free =>
    have hlock := hi.lock
    rw [free] at hlock
    have hidle : s.inCall find = [] := by
      rcases pos with hw | hw <;> simp only [inCall, hw]
    refine ⟨hlock.acquire ?_, trivial, nofun, ?_, nofun⟩
    · intro t hne ht
      cases t with
      | worker => exact absurd rfl hne
      | producer i => exact ht
    · rw [hcalled, hidle]
      rfl
  | idle pos empty clear =>
    simp only [inCall, pos] at hcalled
    exact hi.moveWorker (by simp only [holds, pos]) empty nofun hcalled
  | ready pos work =>
    simp only [inCall, pos] at hcalled
    exact hi.moveWorker (by simp only [holds, pos]) work nofun hcalled
  | wait pos =>
    have hin : s.holds .worker := by simp only [holds, pos]
    simp only [picked, pos] at hfront
    simp only [inCall, pos] at hcalled
    refine ⟨hi.lock.release hin id ?_, trivial, fun _ hne => absurd hfront hne, hcalled, nofun⟩
    intro t hne ht
    cases t with
    | worker => exact ht.elim
    | producer i => exact ht
  | sawStop pos stop =>
    simp only [inCall, pos] at hcalled
    exact hi.moveWorker (by simp only [holds, pos]) trivial nofun hcalled
  | call pos que found =>
    rw [pos.inCall, List.append_nil] at hcalled
    refine hi.moveWorker pos.holds (by simp only [picked, que, List.head?_cons]) nofun ?_ ?_
    · rw [hcalled]
      rfl
    · intro m c d heq
      cases heq
      exact found
  | skip pos que missing =>
    rw [pos.inCall, List.append_nil] at hcalled
    refine hi.moveWorker pos.holds (by simp only [picked, que, List.head?_cons]) nofun ?_
    simp only [hcalled, inCall, missing, Option.toList_none, List.append_nil]
  | returned pos =>
    have hfind := hi.inCallBack _ _ _ pos
    simp only [picked, pos] at hfront
    refine hi.moveWorker (by simp only [holds, pos]) hfront nofun ?_
    rw [hcalled]
    simp only [inCall, pos, hfind, Option.toList_some]
  | @pop n _ _ pos que =>
    have hin : s.holds .worker := by simp only [holds, pos]
    refine ⟨hi.lock.release hin id ?_, trivial, nofun, ?_, nofun⟩
    · intro t hne ht
      cases t with
      | worker => exact ht.elim
      | producer i => exact ht
    · simp only [hcalled, inCall, pos, List.append_nil]
      cases hfind : find n <;> simp [hfind]
  | @popDrain n _ _ pos que =>
    have hin : s.holds .worker := by simp only [holds, pos]
    refine ⟨?_, trivial, nofun, ?_, nofun⟩
    · intro t ht
      cases t with
      | worker => exact hi.lock _ hin
      | producer i => exact absurd ht (hi.alone hin i)
    · simp only [hcalled, inCall, pos, List.append_nil]
      cases hfind : find n <;> simp [hfind]
  | exit pos empty =>
    have hin : s.holds .worker := by simp only [holds, pos]
    simp only [inCall, pos] at hcalled
    refine ⟨hi.lock.release hin id ?_, trivial, nofun, hcalled, nofun⟩
    intro t hne ht
    cases t with
    | worker => exact ht.elim
    | producer i => exact ht

/-! ## The producers -/

/-- The threads a producer's move leaves where they are. -/
theorem holds_of_ne {i : Nat} {pos : ProducerPos ν} {t : Owner} (hne : t ≠ .producer i)
    (h : (s.move i pos).holds t) : s.holds t := by
  cases t with
  | worker => exact h
  | producer j =>
    have hji : j ≠ i := fun heq => hne (by rw [heq])
    simp only [holds, move, Function.update_of_ne hji] at h
    exact h

/-- A producer moves on. It may only give up its notification when nobody is waiting. -/
theorem Inv.moveProducer {i : Nat} {pos : ProducerPos ν} {m : Option Owner}
    (hi : Inv find s) (hlock : Lib.Excludes m (s.move i pos).holds)
    (hkeep : s.worker = .waiting → s.willNotify i → (s.move i pos).willNotify i) :
    Inv find { s.move i pos with mutex := m } where
  lock := hlock
  front := hi.front
  wake := by
    intro hw hne
    obtain ⟨j, hj⟩ := hi.wake hw hne
    by_cases hji : j = i
    · subst hji
      exact ⟨j, hkeep hw hj⟩
    · refine ⟨j, ?_⟩
      simp only [willNotify, move, Function.update_of_ne hji]
      exact hj
  called := hi.called
  inCallBack := hi.inCallBack

/-- Staying inside the critical section. -/
theorem Inv.keepLock {i : Nat} {pos : ProducerPos ν} (hi : Inv find s)
    (hin : s.holds (.producer i)) : Lib.Excludes s.mutex (s.move i pos).holds := by
  apply hi.lock.mono
  intro t ht
  by_cases hne : t = .producer i
  · rw [hne]
    exact hin
  · exact holds_of_ne hne ht

/-- Leaving it. -/
theorem Inv.leaveLock {i : Nat} {pos : ProducerPos ν} (hi : Inv find s)
    (hin : s.holds (.producer i)) (hout : ¬ (s.move i pos).holds (.producer i)) :
    Lib.Excludes none (s.move i pos).holds :=
  hi.lock.release hin hout fun _ hne ht => holds_of_ne hne ht

/-- Staying outside. -/
theorem Inv.stayOut {i : Nat} {pos : ProducerPos ν} (hi : Inv find s)
    (hout : ¬ (s.move i pos).holds (.producer i)) :
    Lib.Excludes s.mutex (s.move i pos).holds := by
  apply hi.lock.mono
  intro t ht
  by_cases hne : t = .producer i
  · rw [hne] at ht
    exact absurd ht hout
  · exact holds_of_ne hne ht

/-- Moving on with the notification: whoever waited is woken. -/
theorem Inv.moveNotify {i : Nat} {pos : ProducerPos ν} (hi : Inv find s)
    (hlock : Lib.Excludes s.mutex (s.move i pos).holds) : Inv find (s.move i pos).notifyOne := by
  unfold LogicSystem.notifyOne
  split
  · rename_i hw
    have hw' : s.worker = .waiting := hw
    refine (hi.woken hw').moveProducer (i := i) ?_ nofun
    intro t ht
    cases t with
    | worker => exact ht.elim
    | producer j => exact hlock _ ht
  · rename_i hnot
    exact hi.moveProducer hlock fun hw => absurd hw hnot

/-- The push. -/
theorem Inv.push {i : Nat} {n : ν} (hi : Inv find s) (hp : s.producers i = .locked n) :
    Inv find { s.move i .pushed with
      msgQueue := s.msgQueue ++ [n], posted := s.posted ++ [n] } := by
  have hin : s.holds (.producer i) := by simp only [holds, hp]
  have hout : ¬ s.holds .worker := fun hw => hi.alone hw i hin
  refine ⟨hi.keepLock hin, ?_, ?_, hi.called, hi.inCallBack⟩
  · -- the worker is outside its critical section
    have hfront := hi.front
    show ({ s with msgQueue := s.msgQueue ++ [n] } : LogicSystem ν κ).picked
    cases hw : s.worker <;> simp only [holds, picked, hw] at hout ⊢ <;> exact absurd trivial hout
  · intro hw _
    by_cases hq : s.msgQueue = []
    · refine ⟨i, ?_⟩
      simp only [willNotify, move, Function.update_self, hq, List.nil_append,
        List.length_singleton]
    · obtain ⟨j, hj⟩ := hi.wake hw hq
      have hji : j ≠ i := by
        rintro rfl
        simp only [willNotify, hp] at hj
      refine ⟨j, ?_⟩
      simp only [willNotify, move, Function.update_of_ne hji] at hj ⊢
      cases hpj : s.producers j with
      | pushed =>
        -- two threads behind the push
        have hinj : s.holds (.producer j) := by simp only [holds, hpj]
        have hsame := hi.lock.unique hin hinj
        cases hsame
        exact absurd rfl hji
      | notifying | unlockingFirst | notifyingAfter => trivial
      | idle | entered _ | locked _ | unlocking =>
        rw [hpj] at hj
        exact hj.elim

theorem Inv.producerStep {i : Nat} (hi : Inv find s) (h : s.producerStep v i = some s') :
    Inv find s' := by
  cases producerStep_cases h with
  | lock pos free =>
    have hlock := hi.lock
    rw [free] at hlock
    apply hi.moveProducer (hlock.acquire fun t hne ht => holds_of_ne hne ht)
    intro _ hn
    simp only [willNotify, pos] at hn
  | push pos => exact hi.push pos
  | first pos one next_eq =>
    apply hi.moveProducer (hi.keepLock (by simp only [holds, pos]))
    intro _ _
    rcases next_eq with rfl | rfl <;> simp only [willNotify, move, Function.update_self]
  | later pos more =>
    apply hi.moveProducer (hi.keepLock (by simp only [holds, pos]))
    intro _ hn
    simp only [willNotify, pos] at hn
    exact absurd hn more
  | notify pos => exact hi.moveNotify (hi.keepLock (by simp only [holds, pos]))
  | unlock pos =>
    apply hi.moveProducer (hi.leaveLock (by simp only [holds, pos]) (by simp [holds, move]))
    intro _ hn
    simp only [willNotify, pos] at hn
  | unlockFirst pos =>
    apply hi.moveProducer (hi.leaveLock (by simp only [holds, pos]) (by simp [holds, move]))
    intro _ _
    simp only [willNotify, move, Function.update_self]
  | notifyAfter pos => exact hi.moveNotify (hi.stayOut (by simp [holds, move]))

/-! ## Every step -/

theorem Inv.destructorStep (hi : Inv find s) (h : s.destructorStep = some s') : Inv find s' := by
  cases destructorStep_cases h with
  | stop pos =>
    refine ⟨hi.lock, ?_, hi.wake, hi.called, hi.inCallBack⟩
    have hfront := hi.front
    cases hw : s.worker <;> simp only [picked, hw] at hfront ⊢
    case dispatch => exact Or.inr trivial
    all_goals exact hfront
  | notify pos =>
    have hmoved : Inv find { s with destructor := .joining } :=
      ⟨hi.lock, hi.front, hi.wake, hi.called, hi.inCallBack⟩
    exact hmoved.notifyOne
  | join pos left => exact ⟨hi.lock, hi.front, hi.wake, hi.called, hi.inCallBack⟩

theorem step_inv {a : Act ν} (hi : Inv find s) (h : step v find s a = some s') :
    Inv find s' := by
  cases a with
  | worker => exact hi.workerStep h
  | spurious =>
    simp only [step] at h
    split at h
    · rename_i hw
      cases h
      exact hi.woken hw
    · cases h
  | post i n =>
    simp only [step] at h
    split at h
    · rename_i hp
      cases h
      apply hi.moveProducer (hi.stayOut (by simp [holds, move]))
      intro _ hn
      simp only [willNotify, hp] at hn
    · cases h
  | producer i => exact hi.producerStep h
  | destructor => exact hi.destructorStep h

theorem reachable_inv (h : (system v find).Reachable s) : Inv find s :=
  h.invariant init_inv step_inv

/-! ## Nobody gets in -/

theorem notifyOne_of_holds (hin : s.holds .worker) : s.notifyOne = s := by
  unfold LogicSystem.notifyOne
  split
  · rename_i hw
    simp only [holds, hw] at hin
  · rfl

/-- Inside its critical section the worker is left where it is, and alone with the queue. -/
theorem Inv.undisturbed {a : Act ν} (hi : Inv find s) (hin : s.holds .worker) (ha : a ≠ .worker)
    (h : step v find s a = some s') :
    s'.worker = s.worker ∧ s'.msgQueue = s.msgQueue ∧ s'.finished = s.finished := by
  cases a with
  | worker => exact absurd rfl ha
  | spurious =>
    simp only [step] at h
    split at h
    · rename_i hw
      simp only [holds, hw] at hin
    · cases h
  | post i n =>
    simp only [step] at h
    split at h
    · cases h
      exact ⟨rfl, rfl, rfl⟩
    · cases h
  | producer i =>
    have hout := hi.alone hin i
    have hmoved : ∀ pos, (s.move i pos).holds .worker := fun _ => hin
    cases producerStep_cases h with
    | push pos => exact absurd (by simp only [holds, pos]) hout
    | notify | notifyAfter =>
      rw [notifyOne_of_holds (hmoved _)]
      exact ⟨rfl, rfl, rfl⟩
    | lock | first | later | unlock | unlockFirst => exact ⟨rfl, rfl, rfl⟩
  | destructor =>
    cases destructorStep_cases h with
    | notify =>
      rw [notifyOne_of_holds (s := { s with destructor := .joining }) hin]
      exact ⟨rfl, rfl, rfl⟩
    | stop | join => exact ⟨rfl, rfl, rfl⟩

/-! ## The holder is inside -/

theorem notifyOne_owned (ho : Lib.Owned s.mutex s.holds) :
    Lib.Owned s.notifyOne.mutex s.notifyOne.holds := by
  unfold LogicSystem.notifyOne
  split
  · rename_i hw
    refine ho.move .worker (fun hin => ?_) fun t hne ht => ?_
    · simp only [holds, hw] at hin
    · cases t with
      | worker => exact absurd rfl hne
      | producer i => exact ht
  · exact ho

/-- A producer moves on inside its critical section, or outside. -/
theorem move_owned {i : Nat} (pos : ProducerPos ν) (ho : Lib.Owned s.mutex s.holds)
    (hself : s.holds (.producer i) → (s.move i pos).holds (.producer i)) :
    Lib.Owned s.mutex (s.move i pos).holds := by
  refine ho.move (.producer i) hself fun t hne ht => ?_
  cases t with
  | worker => exact ht
  | producer j =>
    have hji : j ≠ i := fun heq => hne (by rw [heq])
    simp only [holds, move, Function.update_of_ne hji]
    exact ht

theorem workerStep_owned (ho : Lib.Owned s.mutex s.holds) (h : s.workerStep find = some s') :
    Lib.Owned s'.mutex s'.holds := by
  have inside {s₁ : LogicSystem ν κ} (hm : s₁.mutex = s.mutex) (hp : s₁.producers = s.producers)
      (hin : s₁.holds .worker) : Lib.Owned s₁.mutex s₁.holds := by
    rw [hm]
    refine ho.move .worker (fun _ => hin) fun t hne ht => ?_
    cases t with
    | worker => exact absurd rfl hne
    | producer i =>
      simp only [holds, hp]
      exact ht
  cases workerStep_cases h with
  | lock pos free => exact .acquire trivial
  | wait | pop | exit => exact .free
  | _ => exact inside rfl rfl trivial

theorem producerStep_owned {i : Nat} (ho : Lib.Owned s.mutex s.holds)
    (h : s.producerStep v i = some s') : Lib.Owned s'.mutex s'.holds := by
  cases producerStep_cases h with
  | lock pos free => exact .acquire (by simp [holds, move])
  | push pos => exact move_owned .pushed ho fun _ => by simp [holds, move]
  | first pos one next_eq =>
    rcases next_eq with rfl | rfl <;> exact move_owned _ ho fun _ => by simp [holds, move]
  | later pos more => exact move_owned _ ho fun _ => by simp [holds, move]
  | notify pos => exact notifyOne_owned (move_owned _ ho fun _ => by simp [holds, move])
  | unlock | unlockFirst => exact .free
  | notifyAfter pos =>
    refine notifyOne_owned (move_owned _ ho fun hin => ?_)
    simp only [holds, pos] at hin

theorem step_owned {a : Act ν} (ho : Lib.Owned s.mutex s.holds) (h : step v find s a = some s') :
    Lib.Owned s'.mutex s'.holds := by
  cases a with
  | worker => exact workerStep_owned ho h
  | spurious =>
    simp only [step] at h
    split at h
    · rename_i hw
      cases h
      have hwoken := notifyOne_owned ho
      simp only [LogicSystem.notifyOne, hw] at hwoken
      exact hwoken
    · cases h
  | post i n =>
    simp only [step] at h
    split at h
    · rename_i hp
      cases h
      refine move_owned (.entered n) ho fun hin => ?_
      simp only [holds, hp] at hin
    · cases h
  | producer i => exact producerStep_owned ho h
  | destructor =>
    cases destructorStep_cases h with
    | notify pos => exact notifyOne_owned (s := { s with destructor := .joining }) ho
    | stop | join => exact ho

end LogicSystem
end AsyncEchoServer
