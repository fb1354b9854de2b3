import AsyncEchoServer.Logic.Dispatch

/-!
# `Logic/Decoupling.lean` — the callbacks against the network threads

The logic layer is there so that a callback that blocks does not hold up the network layer. But
`DealMsg` takes `_mutex` in a `unique_lock` at the top of its loop and keeps it until the next
turn: the callback runs inside the critical section that `PostMsgtoQueue` has to enter. A message
posted during a callback therefore holds its network thread until the callback has returned.

`decoupled_iff` says which runs are free of that. A thread is stalled by a callback in exactly two
ways: it posts while one is running, or the worker starts one while the thread is at the lock.
-/

set_option autoImplicit false

namespace AsyncEchoServer
namespace LogicSystem

variable {ν κ : Type} {find : ν → Option κ} {v : Variant} {s s' : LogicSystem ν κ}

/-- The worker is in a registered callback. -/
def InCallback (s : LogicSystem ν κ) : Prop := ∃ n c d, s.worker = .running n c d

/-- Thread `i` is at the lock of `PostMsgtoQueue`. -/
def AtLock (s : LogicSystem ν κ) (i : Nat) : Prop := ∃ n, s.producers i = .entered n

/-- A network thread cannot take `_mutex`, and a callback is running. -/
def Stalled (s : LogicSystem ν κ) : Prop := (∃ i, s.AtLock i) ∧ s.mutex ≠ none ∧ s.InCallback

/-- The worker's next step invokes a callback, from the dispatch of one message or from the loop
that drains the queue. -/
def CallsNext (find : ν → Option κ) (s : LogicSystem ν κ) : Prop :=
  ∃ n c rest d, s.AtFront d ∧ s.msgQueue = n :: rest ∧ find n = some c

/-- No message is posted into a running callback, and no callback is started over a thread that is
at the lock. -/
def GivesWay (find : ν → Option κ) (s : LogicSystem ν κ) : Act ν → Prop
  | .post _ _ => ¬ s.InCallback
  | .worker => s.CallsNext find → ∀ i, ¬ s.AtLock i
  | .spurious | .producer _ | .destructor => True

/-- During a callback nobody is at the lock. -/
def Apart (s : LogicSystem ν κ) : Prop := s.InCallback → ∀ i, ¬ s.AtLock i

/-- In a callback the worker has the mutex, so whoever is at the lock is blocked. -/
theorem stalled_iff (hi : Inv find s) : s.Stalled ↔ ¬ s.Apart := by
  unfold Apart
  push Not
  constructor
  · rintro ⟨hlock, _, hrun⟩
    exact ⟨hrun, hlock⟩
  · rintro ⟨hrun, hlock⟩
    refine ⟨hlock, ?_, hrun⟩
    obtain ⟨n, c, d, hw⟩ := hrun
    have hin : s.holds .worker := by simp only [holds, hw]
    rw [hi.lock _ hin]
    exact Option.some_ne_none _

/-! ## Who gets into a callback, who gets to the lock -/

/-- The worker's call is its only step into a callback. -/
theorem workerStep_inCallback (h : s.workerStep find = some s') (hrun : s'.InCallback) :
    s.CallsNext find := by
  obtain ⟨m, e, b, hrun⟩ := hrun
  cases workerStep_cases h with
  | @call n c rest d pos que found => exact ⟨n, c, rest, d, pos, que, found⟩
  | _ => cases hrun

theorem workerStep_calls (h : s.workerStep find = some s') (hc : s.CallsNext find) :
    s'.InCallback := by
  obtain ⟨n, c, rest, d, hpos, hq, hfind⟩ := hc
  refine ⟨n, c, d, ?_⟩
  cases d with
  | true =>
    have hw : s.worker = .drain := hpos
    simp only [workerStep, hw, hq, take, hfind] at h
    cases h
    rfl
  | false =>
    obtain ⟨hw, hstop⟩ := hpos
    simp only [workerStep, hw, hstop, hq, take, hfind, Bool.false_eq_true, if_false] at h
    cases h
    rfl

theorem workerStep_producers (h : s.workerStep find = some s') : s'.producers = s.producers := by
  cases workerStep_cases h <;> rfl

theorem notifyOne_producers (s : LogicSystem ν κ) : s.notifyOne.producers = s.producers := by
  unfold notifyOne
  split <;> rfl

/-- A step that is no call of `PostMsgtoQueue` leaves idle threads alone. -/
theorem step_idle {a : Act ν} (h : step v find s a = some s') (hpost : ∀ i n, a ≠ .post i n)
    {i : Nat} (hi : s.producers i = .idle) : s'.producers i = .idle := by
  cases a with
  | post j n => exact absurd rfl (hpost j n)
  | worker =>
    rw [workerStep_producers h]
    exact hi
  | spurious =>
    simp only [step] at h
    split at h <;> cases h
    exact hi
  | producer j =>
    have hji : i ≠ j := by
      rintro rfl
      have hstep : s.producerStep v i = some s' := h
      simp only [producerStep, hi, reduceCtorEq] at hstep
    cases producerStep_cases h with
    | notify | notifyAfter =>
      rw [notifyOne_producers]
      exact (Function.update_of_ne hji _ _).trans hi
    | lock | push | first | later | unlock | unlockFirst =>
      exact (Function.update_of_ne hji _ _).trans hi
  | destructor =>
    cases destructorStep_cases h with
    | notify =>
      rw [notifyOne_producers]
      exact hi
    | stop | join => exact hi

theorem notifyOne_inCallback (s : LogicSystem ν κ) :
    s.notifyOne.InCallback ↔ s.InCallback := by
  unfold notifyOne
  split
  · rename_i hw
    simp [InCallback, hw]
  · exact Iff.rfl

/-- A step that brings nobody into a callback and nobody to the lock. -/
structure Retreats (s s' : LogicSystem ν κ) : Prop where
  callback : s'.InCallback → s.InCallback
  lock : ∀ i, s'.AtLock i → s.AtLock i

theorem Retreats.apart (h : Retreats s s') (hs : s.Apart) : s'.Apart :=
  fun hrun i hlock => hs (h.callback hrun) i (h.lock i hlock)

theorem Retreats.notifyOne (h : Retreats s s') : Retreats s s'.notifyOne where
  callback hrun := h.callback ((notifyOne_inCallback s').mp hrun)
  lock i hlock := by
    unfold AtLock at hlock
    rw [notifyOne_producers] at hlock
    exact h.lock i hlock

/-- A thread that moves inside `PostMsgtoQueue`. -/
theorem Retreats.move {i : Nat} {pos : ProducerPos ν} {m : Option Owner} {que post : List ν}
    (hpos : ∀ n, pos ≠ .entered n) :
    Retreats s { s.move i pos with mutex := m, msgQueue := que, posted := post } where
  callback hrun := hrun
  lock j hlock := by
    obtain ⟨n, hn⟩ := hlock
    by_cases hji : j = i
    · subst hji
      simp only [LogicSystem.move, Function.update_self] at hn
      exact absurd hn (hpos n)
    · simp only [LogicSystem.move, Function.update_of_ne hji] at hn
      exact ⟨n, hn⟩

theorem producerStep_retreats {i : Nat} (h : s.producerStep v i = some s') : Retreats s s' := by
  cases producerStep_cases h with
  | first pos one next_eq => rcases next_eq with rfl | rfl <;> exact .move nofun
  | notify pos => exact Retreats.notifyOne (.move nofun)
  | notifyAfter pos => exact Retreats.notifyOne (.move nofun)
  | _ => exact .move nofun

theorem destructorStep_retreats (h : s.destructorStep = some s') : Retreats s s' := by
  cases destructorStep_cases h with
  | notify pos => exact Retreats.notifyOne ⟨id, fun _ => id⟩
  | _ => exact ⟨id, fun _ => id⟩

theorem step_apart {a : Act ν} (hs : s.Apart) (hc : s.GivesWay find a)
    (h : step v find s a = some s') : s'.Apart := by
  cases a with
  | worker =>
    intro hrun i hlock
    unfold AtLock at hlock
    rw [workerStep_producers h] at hlock
    exact hc (workerStep_inCallback h hrun) i hlock
  | spurious =>
    simp only [step] at h
    split at h <;> cases h
    rintro ⟨n, c, d, hrun⟩
    cases hrun
  | post i n =>
    simp only [step] at h
    split at h <;> cases h
    exact fun hrun => absurd hrun hc
  | producer i => exact (producerStep_retreats h).apart hs
  | destructor => exact (destructorStep_retreats h).apart hs

theorem step_not_apart {a : Act ν} (hc : ¬ s.GivesWay find a) (h : step v find s a = some s') :
    ¬ s'.Apart := by
  intro hs
  cases a with
  | worker =>
    simp only [GivesWay, Classical.not_imp, not_forall, not_not] at hc
    obtain ⟨hnext, i, hlock⟩ := hc
    unfold AtLock at hlock
    rw [← workerStep_producers h] at hlock
    exact hs (workerStep_calls h hnext) i hlock
  | post i n =>
    have hrun : s.InCallback := not_not.mp hc
    simp only [step] at h
    split at h <;> cases h
    exact hs hrun i ⟨n, Function.update_self ..⟩
  | spurious | producer i | destructor => exact hc trivial

/-! ## Stalled runs -/

/-- **When the logic layer decouples.** In a run no network thread is ever blocked on `_mutex`
behind a callback, exactly when no message is posted during a callback and no callback starts
while a thread is at the lock. For any number of threads, in either branch of `DealMsg`. -/
theorem decoupled_iff {as : List (Act ν)} {t : LogicSystem ν κ}
    (h : (system v find).run init as = some t) :
    (∀ pre s, pre <+: as → (system v find).run init pre = some s → ¬ s.Stalled) ↔
      ∀ pre a s, pre ++ [a] <+: as → (system v find).run init pre = some s →
        s.GivesWay find a := by
  have hinit : (init : LogicSystem ν κ).Apart := by
    rintro ⟨n, c, d, hrun⟩
    cases hrun
  have hiff := Lib.System.run_prefix_iff (M := system v find) (I := Apart) (C := GivesWay find)
    hinit step_apart step_not_apart h
  refine Iff.trans ?_ hiff
  refine forall_congr' fun pre => forall_congr' fun s => ?_
  refine imp_congr_right fun _ => imp_congr_right fun hs => ?_
  rw [stalled_iff (reachable_inv (.of_run hs)), not_not]

/-- A message is posted and dispatched. -/
def dispatchRun : List (Act LogicNode) :=
  [.post 0 helloNode, .producer 0, .producer 0, .producer 0, .producer 0, .producer 0,
    .worker, .worker, .worker]

/-- The message is dispatched with nobody at the lock. -/
theorem decoupled_iff_alone : ∃ t : LogicSystem LogicNode CallBackArgs,
    (system .notifyUnderLock LogicNode.findCallBack).run init dispatchRun = some t ∧
      t.InCallback ∧ ¬ t.Stalled := by
  obtain ⟨t, ht, hrun⟩ : ∃ t : LogicSystem LogicNode CallBackArgs,
      (system .notifyUnderLock LogicNode.findCallBack).run init dispatchRun = some t ∧
        t.InCallback := ⟨_, rfl, _, _, _, rfl⟩
  refine ⟨t, ht, hrun, (decoupled_iff ht).mpr ?_ _ t (List.prefix_refl _) ht⟩
  let M := system .notifyUnderLock LogicNode.findCallBack
  have cons {s s' : LogicSystem LogicNode CallBackArgs} {a : Act LogicNode}
      {as : List (Act LogicNode)} (hstep : M.step s a = some s')
      (hc : s.GivesWay LogicNode.findCallBack a) (hrest : ∀ pre b u, pre ++ [b] <+: as →
        M.run s' pre = some u → u.GivesWay LogicNode.findCallBack b) :
      ∀ pre b u, pre ++ [b] <+: a :: as →
        M.run s pre = some u → u.GivesWay LogicNode.findCallBack b :=
    (Lib.System.forall_steps_cons hstep).mpr ⟨hc, hrest⟩
  refine cons rfl ?_ ?_
  · rintro ⟨_, _, _, hrun⟩
    cases hrun
  · iterate 5 refine cons rfl trivial ?_
    -- the thread is back when the worker starts
    iterate 3
      refine cons rfl ?_ ?_
      · rintro _ i ⟨n, hn⟩
        cases i <;> cases hn
    exact Lib.System.forall_steps_nil

/-- A second message arrives while the first is in its callback. -/
theorem callback_stalls :
    ¬ (∀ s, (system .notifyUnderLock LogicNode.findCallBack).Reachable s → ¬ s.Stalled) ∧
      ¬ ∀ s, (system .unlockFirst LogicNode.findCallBack).Reachable s → ¬ s.Stalled := by
  have hrun : ∀ v, ∃ s : LogicSystem LogicNode CallBackArgs,
      (system v LogicNode.findCallBack).run init (dispatchRun ++ [.post 0 helloNode]) = some s ∧
        s.Stalled := by
    intro v
    cases v <;> exact ⟨_, rfl, ⟨0, helloNode, rfl⟩, nofun, _, _, _, rfl⟩
  constructor
  · intro h
    obtain ⟨s, hs, hstalled⟩ := hrun .notifyUnderLock
    exact h s (.of_run hs) hstalled
  · intro h
    obtain ⟨s, hs, hstalled⟩ := hrun .unlockFirst
    exact h s (.of_run hs) hstalled

end LogicSystem
end AsyncEchoServer
