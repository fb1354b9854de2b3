import AsyncEchoServer.ServerV3Mt.Quiet

/-!
# `ServerV3Mt/Stop.lean` — the shutdown of the multi-thread server

`main` runs the acceptor's `io_context`, and the handler of its `signal_set` calls
`AsioIOServicePool::Stop`: every `io_context` of the pool is stopped, one after the other, and then
every thread is joined. A stopped `io_context` starts no handler any more; a handler that is running
runs to its end, whatever it is blocked on, and then the thread leaves `run()`. The other threads
know nothing of it: while `Stop` is at work, the services that are not stopped yet go on reading.

The two halves of the result are that there is always somebody who can go on, up to the last join
(`Main.goes_on`), and that from the last `stop()` on there is only so much to do
(`AllStopped.run`). Both are about the whole process, with the worker: a pool thread may be in
`Send`'s way or have a message to post. And both are about a process that lives: while the pool is
being stopped, the worker may still come to a reply that no node can be built for
(`Machine.reachable_deadly`), and then `main` does not return.
-/

set_option autoImplicit false

namespace AsyncEchoServer
namespace ServerV3Mt

open ServerV3 (nodesOf ref)

/-- Where `main` is. -/
inductive MainPos where
  /-- in `io_context.run()` -/
  | running
  /-- in `Stop`, about to stop the `k`-th `io_context` -/
  | stopping (k : Nat)
  /-- about to join the `k`-th thread -/
  | joining (k : Nat)
  /-- `run()` has returned, and `main` with it -/
  | returned
  deriving Repr, DecidableEq

/-- What `Stop` still has to do. -/
def MainPos.work (size : Nat) : MainPos → Nat
  | .running | .returned => 0
  | .stopping k => (size - k) + size + 2
  | .joining k => (size - k) + 1

/-- The process: `main`, the pool threads that have left `run()`, and everything else. -/
structure Main where
  machine : Machine
  pos : MainPos
  exited : Nat → Bool

/-- The `io_context` whose thread runs the handler that an action begins. -/
def Machine.Act.service (size : Nat) : Machine.Act → Option Nat
  | .handleRead uuid _ | .handleReadError uuid | .handleWrite uuid _ _ => some (ioService size uuid)
  | .handleAccept _ | .acceptor | .pool _ | .worker | .spurious | .destructor => none

namespace Main

def init : Main where
  machine := .init
  pos := .running
  exited := fun _ => false

/-- `stop()` has been called on the `i`-th `io_context`. -/
def stopped (p : Main) (i : Nat) : Bool :=
  match p.pos with
  | .running => false
  | .stopping k => decide (i < k)
  | .joining _ | .returned => true

/-- What the process lets happen. `HandleAccept` runs on the main thread, as the signal handler
does; the singletons are destroyed behind `main`. -/
def allows (size : Nat) (p : Main) (a : Machine.Act) : Bool :=
  match a with
  | .handleAccept _ | .acceptor => decide (p.pos = .running)
  | .destructor => decide (p.pos = .returned)
  | _ =>
    match a.service size with
    | some i => !p.stopped i
    | none => true

/-- The signal arrives, between two handlers of the acceptor. -/
def signal (p : Main) : Option Main :=
  match p.pos, p.machine.acceptor with
  | .running, .accepting => some { p with pos := .stopping 0 }
  | _, _ => none

/-- The next step of `Stop`. -/
def stopStep (size : Nat) (p : Main) : Option Main :=
  match p.pos with
  | .running | .returned => none
  | .stopping k =>
    if k < size then some { p with pos := .stopping (k + 1) }
    else some { p with pos := .joining 0 }
  | .joining k =>
    if k < size then
      if p.exited k then some { p with pos := .joining (k + 1) } else none
    else some { p with pos := .returned }

/-- Pool thread `i` finds its `io_context` stopped. -/
def exit (size i : Nat) (p : Main) : Option Main :=
  if i < size ∧ p.stopped i = true ∧ p.machine.free i = true ∧ p.exited i = false then
    some { p with exited := Function.update p.exited i true }
  else none

inductive Act where
  | machine (a : Machine.Act)
  | signal
  | stop
  | exit (i : Nat)

def step (size : Nat) (f : Short × Bytes → Bytes × Short) (p : Main) (a : Act) : Option Main :=
  if p.machine.fate = .alive then
    match a with
    | .machine a =>
      if p.allows size a = true then
        (p.machine.step size f a).map fun m => { p with machine := m }
      else none
    | .signal => p.signal
    | .stop => p.stopStep size
    | .exit i => p.exit size i
  else none

def system (size : Nat) (f : Short × Bytes → Bytes × Short) : Lib.System Main Act where
  init := init
  step := step size f

/-! ## What a step can do -/

variable {size i : Nat} {f : Short × Bytes → Bytes × Short} {p p' : Main}

inductive StepSpec (size : Nat) (f : Short × Bytes → Bytes × Short) (p : Main) :
    Act → Main → Prop where
  | machine {a : Machine.Act} {m : Machine} (allowed : p.allows size a = true)
      (step : p.machine.step size f a = some m) :
      StepSpec size f p (.machine a) { p with machine := m }
  | signal (pos : p.pos = .running) (between : p.machine.acceptor = .accepting) :
      StepSpec size f p .signal { p with pos := .stopping 0 }
  | stop {k : Nat} (pos : p.pos = .stopping k) (more : k < size) :
      StepSpec size f p .stop { p with pos := .stopping (k + 1) }
  | stopLast {k : Nat} (pos : p.pos = .stopping k) (last : size ≤ k) :
      StepSpec size f p .stop { p with pos := .joining 0 }
  | join {k : Nat} (pos : p.pos = .joining k) (more : k < size) (left : p.exited k = true) :
      StepSpec size f p .stop { p with pos := .joining (k + 1) }
  | joinLast {k : Nat} (pos : p.pos = .joining k) (last : size ≤ k) :
      StepSpec size f p .stop { p with pos := .returned }
  | exit {i : Nat} (lt : i < size) (stopped : p.stopped i = true)
      (free : p.machine.free i = true) (inside : p.exited i = false) :
      StepSpec size f p (.exit i) { p with exited := Function.update p.exited i true }

theorem stopStep_cases (h : p.stopStep size = some p') : StepSpec size f p .stop p' := by
  unfold stopStep at h
  cases hpos : p.pos with
  | running | returned =>
    rw [hpos] at h
    cases h
  | stopping k =>
    simp only [hpos] at h
    split at h
    · rename_i hmore
      cases h
      exact .stop hpos hmore
    · rename_i hlast
      cases h
      exact .stopLast hpos (Nat.not_lt.mp hlast)
  | joining k =>
    simp only [hpos] at h
    split at h
    · rename_i hmore
      simp only [Option.ite_none_right_eq_some] at h
      obtain ⟨hleft, hp⟩ := h
      cases hp
      exact .join hpos hmore hleft
    · rename_i hlast
      cases h
      exact .joinLast hpos (Nat.not_lt.mp hlast)

theorem step_cases {a : Act} (h : p.step size f a = some p') :
    StepSpec size f p a p' ∧ p.machine.fate = .alive := by
  unfold step at h
  split at h
  · rename_i halive
    refine ⟨?_, halive⟩
    cases a with
    | machine a =>
      simp only [Option.ite_none_right_eq_some] at h
      obtain ⟨hallowed, hstep⟩ := h
      obtain ⟨m, hm, rfl⟩ := Option.map_eq_some_iff.mp hstep
      exact .machine hallowed hm
    | signal =>
      simp only [Main.signal] at h
      split at h
      · rename_i hpos hacc
        cases h
        exact .signal hpos hacc
      · cases h
    | stop => exact stopStep_cases h
    | exit i =>
      simp only [Main.exit, Option.ite_none_right_eq_some] at h
      obtain ⟨⟨hlt, hstopped, hfree, hinside⟩, hp⟩ := h
      cases hp
      exact .exit hlt hstopped hfree hinside
  · cases h

end Main

/-! ## A thread that is free -/

theorem Threads.free_iff {s : Threads} {i : Nat} :
    s.free i = true ↔ s.pool i = .idle ∧ s.logic.producers i = .idle := by
  refine ⟨Threads.free_idle, fun ⟨hpool, hidle⟩ => ?_⟩
  unfold Threads.free
  rw [hpool, hidle]

namespace Machine

variable {size i : Nat} {f : Short × Bytes → Bytes × Short} {m m' : Machine}

/-- A free thread stays free, unless it is given a handler to run. -/
theorem step_free {a : Act} (hfree : m.free i = true) (ha : a.service size ≠ some i)
    (hstep : m.step size f a = some m') : m'.free i = true := by
  obtain ⟨hpool, hidle⟩ := Threads.free_iff.mp hfree
  obtain ⟨hspec, _⟩ := step_cases hstep
  have hbegin : ∀ {uuid : Nat} {p : PoolPos}, some (ioService size uuid) ≠ some i →
      Function.update m.pool (ioService size uuid) p i = .idle := by
    intro uuid p hne
    rw [Function.update_of_ne fun heq => hne (by rw [heq])]
    exact hpool
  have hmoved : ∀ {j : Nat} {p q : PoolPos}, m.pool j = p → p ≠ .idle →
      Function.update m.pool j q i = .idle := by
    intro j p q hpos hne
    have hij : i ≠ j := by
      rintro rfl
      exact hne (hpos.symm.trans hpool)
    rw [Function.update_of_ne hij]
    exact hpool
  rw [Threads.free_iff]
  cases hspec with
  | read | readError | writeError | write => exact ⟨hbegin ha, hidle⟩
  | @turn j uuid n data copyLen turn logic pos idle left body posted =>
    refine ⟨hmoved pos nofun, ?_⟩
    have hij : i ≠ j := by
      rintro rfl
      cases pos.symm.trans hpool
    unfold postTurn at posted
    split at posted
    · cases posted
      exact hidle
    · exact ((LogicSystem.post_work (c := 0) posted).2.2 i hij).trans hidle
  | passEnd pos | clearLock pos | clearErase pos | clearUnlock pos =>
    exact ⟨hmoved pos nofun, hidle⟩
  | writeLock pos | written pos | writeUnlock pos => exact ⟨hmoved pos nofun, hidle⟩
  | callbackReturn pos sender step => exact ⟨hpool, LogicSystem.step_idle step nofun hidle⟩
  | queue act step =>
    refine ⟨hpool, LogicSystem.step_idle step (fun j n heq => ?_) hidle⟩
    subst heq
    cases act
  | accept | acceptError | acceptLock | acceptInsert | acceptUnlock | writeFailed | sendLock | send |
    sendFailed | sendUnlock => exact ⟨hpool, hidle⟩

/-- Only the acceptor moves the acceptor. -/
theorem step_accepting {a : Act} (hacc : m.acceptor = .accepting)
    (ha : ∀ error, a ≠ .handleAccept error) (hstep : m.step size f a = some m') :
    m'.acceptor = .accepting := by
  obtain ⟨hspec, _⟩ := step_cases hstep
  cases hspec with
  | accept => exact absurd rfl (ha false)
  | acceptError => exact absurd rfl (ha true)
  | acceptLock pos | acceptInsert pos => cases pos.symm.trans hacc
  | acceptUnlock => rfl
  | read | readError | writeError | write | turn | passEnd | clearLock | clearErase | clearUnlock |
    writeLock | written | writeFailed | writeUnlock | sendLock | send | sendFailed | sendUnlock |
    callbackReturn | queue => exact hacc

end Machine

namespace Main

variable {size i : Nat} {f : Short × Bytes → Bytes × Short} {p p' : Main}

/-- What `Stop` has brought about. -/
structure Inv (size : Nat) (f : Short × Bytes → Bytes × Short) (p : Main) : Prop where
  machine : (Machine.system size f).Reachable p.machine
  between : p.pos ≠ .running → p.machine.acceptor = .accepting
  left : ∀ i, p.exited i = true → p.stopped i = true ∧ p.machine.free i = true
  joined : ∀ k, p.pos = .joining k → ∀ i, i < k → p.exited i = true
  done : p.pos = .returned → ∀ i, i < size → p.exited i = true

theorem init_inv : Inv size f init where
  machine := .init
  between h := absurd rfl h
  left _ h := by cases h
  joined _ h := by cases h
  done h := by cases h

theorem stopped_of_pos {q : MainPos} (h : p.stopped i = true)
    (hq : q = .returned ∨ (∃ k, q = .joining k) ∨ ∃ k, p.pos = .stopping k ∧ q = .stopping (k + 1)) :
    Main.stopped { p with pos := q } i = true := by
  rcases hq with rfl | ⟨k, rfl⟩ | ⟨k, hpos, rfl⟩
  · rfl
  · rfl
  · simp only [stopped, hpos, decide_eq_true_eq] at h ⊢
    exact Nat.lt_succ_of_lt h

theorem step_inv {a : Act} (hi : Inv size f p) (h : p.step size f a = some p') :
    Inv size f p' := by
  obtain ⟨hspec, _⟩ := step_cases h
  cases hspec with
  | @machine a m allowed step =>
    have hmachine : (Machine.system size f).Reachable m := hi.machine.step step
    refine ⟨hmachine, fun hpos => ?_, fun i hexit => ?_, hi.joined, hi.done⟩
    · refine Machine.step_accepting (hi.between hpos) (fun error heq => ?_) step
      rw [heq] at allowed
      exact hpos (of_decide_eq_true allowed)
    · obtain ⟨hstopped, hfree⟩ := hi.left i hexit
      refine ⟨hstopped, Machine.step_free hfree (fun hserv => ?_) step⟩
      cases a with
      | handleRead | handleReadError | handleWrite =>
        cases hserv
        simp only [allows, Machine.Act.service, hstopped] at allowed
        cases allowed
      | handleAccept | acceptor | pool | worker | spurious | destructor => cases hserv
  | signal pos between =>
    refine ⟨hi.machine, fun _ => between, fun i hexit => ?_, nofun, nofun⟩
    have hstopped := (hi.left i hexit).1
    simp only [stopped, pos, Bool.false_eq_true] at hstopped
  | @stop k pos more =>
    refine ⟨hi.machine, fun _ => hi.between (by rw [pos]; nofun), fun i hexit => ?_, nofun, nofun⟩
    obtain ⟨hstopped, hfree⟩ := hi.left i hexit
    exact ⟨stopped_of_pos hstopped (Or.inr (Or.inr ⟨k, pos, rfl⟩)), hfree⟩
  | stopLast pos last =>
    refine ⟨hi.machine, fun _ => hi.between (by rw [pos]; nofun), fun i hexit => ?_, ?_, nofun⟩
    · exact ⟨rfl, (hi.left i hexit).2⟩
    · intro k hk i hlt
      cases hk
      exact absurd hlt (Nat.not_lt_zero i)
  | @join k pos more left =>
    refine ⟨hi.machine, fun _ => hi.between (by rw [pos]; nofun), fun i hexit => ?_, ?_, nofun⟩
    · exact ⟨rfl, (hi.left i hexit).2⟩
    · intro k' hk i hlt
      cases hk
      rcases Nat.lt_succ_iff_lt_or_eq.mp hlt with hlt | rfl
      · exact hi.joined k pos i hlt
      · exact left
  | @joinLast k pos last =>
    refine ⟨hi.machine, fun _ => hi.between (by rw [pos]; nofun), fun i hexit => ?_, nofun, ?_⟩
    · exact ⟨rfl, (hi.left i hexit).2⟩
    · exact fun _ i hlt => hi.joined k pos i (Nat.lt_of_lt_of_le hlt last)
  | @exit j lt stopped free inside =>
    have hexits : ∀ i, Function.update p.exited j true i = true → i = j ∨ p.exited i = true := by
      intro i hexit
      by_cases hij : i = j
      · exact Or.inl hij
      · rw [Function.update_of_ne hij] at hexit
        exact Or.inr hexit
    have hstays : ∀ i, p.exited i = true → Function.update p.exited j true i = true := by
      intro i hexit
      by_cases hij : i = j
      · rw [hij, Function.update_self]
      · rw [Function.update_of_ne hij]
        exact hexit
    refine ⟨hi.machine, hi.between, fun i hexit => ?_, fun k hk i hlt => ?_, fun hret i hlt => ?_⟩
    · rcases hexits i hexit with rfl | hexit
      · exact ⟨stopped, free⟩
      · exact hi.left i hexit
    · exact hstays i (hi.joined k hk i hlt)
    · exact hstays i (hi.done hret i hlt)

theorem reachable_inv (h : (system size f).Reachable p) : Inv size f p :=
  h.invariant (I := Inv size f) init_inv step_inv

/-! ## Somebody can go on -/

/-- A step of the process itself. -/
def Act.own : Act → Bool
  | .machine a => a.internal
  | .signal => false
  | .stop | .exit _ => true

/-- A thread that has not left `run()` has a step to do. -/
def stays (exited : Nat → Bool) (i : Nat) : Nat := if exited i = true then 0 else 1

/-- What the process still has to do, once it has been told to stop. -/
def work (size : Nat) (p : Main) : Nat :=
  p.machine.work size + p.pos.work size + ∑ i ∈ Finset.range size, stays p.exited i

theorem stays_exit {exited : Nat → Bool} (hi : i < size) (hinside : exited i = false) :
    (∑ j ∈ Finset.range size, stays (Function.update exited i true) j) + 1 =
      ∑ j ∈ Finset.range size, stays exited j := by
  have hsum : (∑ j ∈ Finset.range size, stays (Function.update exited i true) j) + stays exited i =
      (∑ j ∈ Finset.range size, stays exited j) + stays (Function.update exited i true) i := by
    refine sum_of_eq_except hi fun j hj => ?_
    rw [stays, stays, Function.update_of_ne hj]
  rw [stays, stays, hinside, Function.update_self] at hsum
  exact hsum

def Act.credit (size : Nat) : Act → Nat
  | .machine a => a.credit
  | .signal => size + size + 2
  | .stop | .exit _ => 0

theorem step_pays {a : Act} (hsize : 0 < size) (hr : (system size f).Reachable p)
    (hneg : p.machine.Unbroken) (hstep : p.step size f a = some p') :
    (p'.work size + if a.own then 1 else 0) ≤ p.work size + a.credit size := by
  obtain ⟨hspec, _⟩ := step_cases hstep
  unfold work
  cases hspec with
  | @machine a m allowed step =>
    have hpays := Machine.step_pays hsize (reachable_inv hr).machine hneg step
    show Machine.work size m + p.pos.work size + (∑ i ∈ Finset.range size, stays p.exited i) +
      (if a.internal = true then 1 else 0) ≤ _ + a.credit
    omega
  | signal pos between =>
    rw [pos]
    simp only [Act.own, Act.credit, MainPos.work, Bool.false_eq_true, if_false]
    omega
  | stop pos more =>
    rw [pos]
    simp only [Act.own, Act.credit, MainPos.work, if_true]
    omega
  | stopLast pos last =>
    rw [pos]
    simp only [Act.own, Act.credit, MainPos.work, if_true]
    omega
  | join pos more left =>
    rw [pos]
    simp only [Act.own, Act.credit, MainPos.work, if_true]
    omega
  | joinLast pos last =>
    rw [pos]
    simp only [Act.own, Act.credit, MainPos.work, if_true]
    omega
  | @exit j lt stopped free inside =>
    have hless := stays_exit lt inside
    simp only [Act.own, Act.credit, if_true]
    omega

theorem unbroken_before {a : Act} (hstep : p.step size f a = some p')
    (hneg : p'.machine.Unbroken) : p.machine.Unbroken := by
  obtain ⟨hspec, _⟩ := step_cases hstep
  cases hspec with
  | machine allowed step => exact Machine.unbroken_before step hneg
  | signal | stop | stopLast | join | joinLast | exit => exact hneg

def potential (f : Short × Bytes → Bytes × Short) (hsize : 0 < size) :
    (system size f).Potential where
  good p := p.machine.Unbroken
  value := work size
  internal := Act.own
  credit := Act.credit size
  before := unbroken_before
  uncredited {a} ha := by
    cases a with
    | machine a => exact Machine.credit_of_internal ha
    | signal => cases ha
    | stop | exit => rfl
  pays := step_pays hsize

/-- The process brings nothing in by itself. -/
theorem own_received {a : Act} (ha : a.own = true) (hstep : p.step size f a = some p') (s : Nat) :
    (p'.machine.conns s).received = (p.machine.conns s).received := by
  obtain ⟨hspec, _⟩ := step_cases hstep
  cases hspec with
  | machine allowed step => exact (Machine.internal_frame ha step).1 s
  | signal => cases ha
  | stop | stopLast | join | joinLast | exit => rfl

/-- Every `io_context` has been stopped. -/
def AllStopped (p : Main) : Prop := (∃ k, p.pos = .joining k) ∨ p.pos = .returned

theorem AllStopped.stopped (h : p.AllStopped) (i : Nat) : p.stopped i = true := by
  unfold Main.stopped
  rcases h with ⟨k, hpos⟩ | hpos <;> rw [hpos]

/-- Nothing comes in any more but a wakeup or, behind `main`, the destructor. -/
theorem AllStopped.step {a : Act} (h : p.AllStopped) (hstep : p.step size f a = some p') :
    p'.AllStopped ∧ a.credit size ≤ wakeWork ∧
      ∀ s, (p'.machine.conns s).received = (p.machine.conns s).received := by
  have hout : p.pos ≠ .running := by
    rintro hpos
    rcases h with ⟨k, hk⟩ | hk <;> cases hk.symm.trans hpos
  by_cases ha : a.own = true
  · refine ⟨?_, ?_, own_received ha hstep⟩
    · obtain ⟨hspec, _⟩ := step_cases hstep
      cases hspec with
      | machine | exit => exact h
      | signal => cases ha
      | stop pos | stopLast pos => rcases h with ⟨k, hk⟩ | hk <;> cases hk.symm.trans pos
      | @join k => exact Or.inl ⟨k + 1, rfl⟩
      | joinLast => exact Or.inr rfl
    · cases a with
      | machine a =>
        rw [Act.credit, Machine.credit_of_internal ha]
        exact Nat.zero_le _
      | signal => cases ha
      | stop | exit => exact Nat.zero_le _
  · obtain ⟨hspec, _⟩ := step_cases hstep
    cases hspec with
    | signal pos => exact absurd pos hout
    | stop | stopLast | join | joinLast | exit => exact absurd rfl ha
    | @machine a m allowed step =>
      refine ⟨h, ?_⟩
      cases a with
      | acceptor | pool | worker => exact absurd rfl ha
      | handleAccept => exact absurd (of_decide_eq_true allowed) hout
      | handleRead | handleReadError | handleWrite =>
        simp only [allows, Machine.Act.service, h.stopped] at allowed
        cases allowed
      | spurious | destructor =>
        obtain ⟨hspec, _⟩ := Machine.step_cases step
        cases hspec
        exact ⟨Nat.le_refl _, fun _ => rfl⟩

theorem AllStopped.run {as : List Act} (h : p.AllStopped)
    (hrun : (system size f).run p as = some p') :
    (∀ a ∈ as, a.credit size ≤ wakeWork) ∧
      ∀ s, (p'.machine.conns s).received = (p.machine.conns s).received := by
  induction as generalizing p with
  | nil =>
    cases hrun
    exact ⟨fun _ ha => absurd ha List.not_mem_nil, fun _ => rfl⟩
  | cons a as ih =>
    rw [Lib.System.run_cons] at hrun
    obtain ⟨p₁, hstep, hrest⟩ := Option.bind_eq_some_iff.mp hrun
    obtain ⟨hstopped, hcredit, hrecv₁⟩ := h.step hstep
    obtain ⟨hcredits, hrecv⟩ := ih hstopped hrest
    refine ⟨fun b hb => ?_, fun s => (hrecv s).trans (hrecv₁ s)⟩
    rcases List.mem_cons.mp hb with rfl | hb
    · exact hcredit
    · exact hcredits b hb

end Main
end ServerV3Mt
end AsyncEchoServer
