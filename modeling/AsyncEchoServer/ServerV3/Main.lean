import AsyncEchoServer.ServerV3.Quiet

/-!
# `ServerV3/Main.lean` — `main` waits for a signal

`main` of the single-threaded server starts the network thread, installs `signal_handler` for
`SIGINT` and `SIGTERM`, and waits on `cond_terminated` until `is_server_terminated` is set; then it
stops the `io_context` and joins the thread. A signal is delivered to any of the three threads, and
its handler runs on top of whatever the thread was at, another handler included. It takes
`mutex_terminated`, sets the flag and notifies.

Two things go wrong with that, and nothing else. A handler that runs on top of a critical section of
its own thread waits for itself; and a notification that comes when `main` has tested the flag and
not yet taken the mutex is lost, and `main` sleeps on. `main_returns` says exactly when `main` comes
back.
-/

set_option autoImplicit false

namespace AsyncEchoServer
namespace ServerV3

/-- The signals with a handler. -/
inductive Signal where
  | sigint
  | sigterm
  deriving Repr, DecidableEq

/-- The threads of the process. -/
inductive Thread where
  | main
  | network
  | worker
  deriving Repr, DecidableEq

/-- Where a call of `signal_handler` is. -/
inductive HandlerPos where
  /-- in front of `lock_quit` -/
  | entered
  | locked
  /-- the flag is set -/
  | notifying
  | unlocking
  deriving Repr, DecidableEq

/-- Where `main` is. -/
inductive MainPos where
  /-- the network thread has been started -/
  | started
  /-- the first handler has been installed -/
  | installed
  /-- at the test of the loop -/
  | testing
  /-- in front of `lock_quit` -/
  | entering
  | locked
  /-- in `cond_terminated.wait` -/
  | waiting
  /-- … and about to take the mutex again -/
  | woken
  /-- at the end of the body -/
  | leaving
  /-- at `ioc.stop()` -/
  | stopping
  /-- at `network_thread.join()` -/
  | joining
  | returned
  deriving Repr, DecidableEq

/-- The handler of the signal has been installed. -/
def MainPos.handles : MainPos → Signal → Bool
  | .started, _ => false
  | .installed, .sigint => true
  | .installed, .sigterm => false
  | _, _ => true

/-- In a critical section of `mutex_terminated`. -/
def MainPos.inside : MainPos → Bool
  | .locked | .leaving => true
  | .started | .installed | .testing | .entering | .waiting | .woken => false
  | .stopping | .joining | .returned => false

def HandlerPos.inside : HandlerPos → Bool
  | .entered => false
  | .locked | .notifying | .unlocking => true

/-- Behind the loop. -/
def MainPos.past : MainPos → Bool
  | .stopping | .joining | .returned => true
  | .started | .installed | .testing | .entering | .locked | .waiting | .woken | .leaving => false

/-- `notify_one` wakes whoever is in `wait`, and that is `main`. -/
def MainPos.notified : MainPos → MainPos
  | .waiting => .woken
  | pos => pos

/-- The steps to `wait`, or to the end. -/
def MainPos.work : MainPos → Nat
  | .waiting | .returned => 0
  | .locked | .joining => 1
  | .entering | .stopping => 2
  | .testing => 3
  | .leaving | .installed => 4
  | .woken | .started => 5

/-- A notification may wake `main`. -/
def HandlerPos.work : HandlerPos → Nat
  | .unlocking => 1
  | .notifying => 7
  | .locked => 8
  | .entered => 9

structure Main where
  server : CServer
  pos : MainPos
  /-- the calls of `signal_handler` on a thread, the one that runs first -/
  calls : Thread → List (Signal × HandlerPos)
  mutexTerminated : Option Thread
  isServerTerminated : Bool
  /-- `ioc.stop()` has been called -/
  stopped : Bool
  /-- the network thread has left `run()` -/
  ended : Bool
  /-- a signal without a handler has come -/
  killed : Bool

namespace Main

def init : Main where
  server := .init
  pos := .started
  calls := fun _ => []
  mutexTerminated := none
  isServerTerminated := false
  stopped := false
  ended := false
  killed := false

/-- The thread is there. -/
def runs (p : Main) : Thread → Bool
  | .main => decide (p.pos ≠ .returned)
  | .network => !p.ended
  | .worker =>
    match p.server.machine.logic.worker with
    | .exited => false
    | _ => true

/-- No handler runs on top of the thread. -/
def free (p : Main) (t : Thread) : Bool := (p.calls t).isEmpty

def setCalls (p : Main) (t : Thread) (calls : List (Signal × HandlerPos)) : Main :=
  { p with calls := Function.update p.calls t calls }

theorem free_iff {p : Main} {t : Thread} : p.free t = true ↔ p.calls t = [] := List.isEmpty_iff

/-- The next step of `main`. -/
def mainStep (p : Main) : Option Main :=
  if p.free .main = true then
    match p.pos with
    | .started => some { p with pos := .installed }
    | .installed => some { p with pos := .testing }
    | .testing =>
      if p.isServerTerminated = true then some { p with pos := .stopping }
      else some { p with pos := .entering }
    | .entering =>
      match p.mutexTerminated with
      | none => some { p with mutexTerminated := some .main, pos := .locked }
      | some _ => none
    | .locked => some { p with mutexTerminated := none, pos := .waiting }
    | .waiting => none
    | .woken =>
      match p.mutexTerminated with
      | none => some { p with mutexTerminated := some .main, pos := .leaving }
      | some _ => none
    | .leaving => some { p with mutexTerminated := none, pos := .testing }
    | .stopping => some { p with stopped := true, pos := .joining }
    | .joining => if p.ended = true then some { p with pos := .returned } else none
    | .returned => none
  else none

/-- The next step of the `signal_handler` that runs on a thread. -/
def handlerStep (t : Thread) (p : Main) : Option Main :=
  match p.calls t with
  | [] => none
  | (sig, .entered) :: rest =>
    match p.mutexTerminated with
    | none => some { p.setCalls t ((sig, .locked) :: rest) with mutexTerminated := some t }
    | some _ => none
  | (sig, .locked) :: rest =>
    some { p.setCalls t ((sig, .notifying) :: rest) with isServerTerminated := true }
  | (sig, .notifying) :: rest =>
    some { p.setCalls t ((sig, .unlocking) :: rest) with pos := p.pos.notified }
  | (_, .unlocking) :: rest => some { p.setCalls t rest with mutexTerminated := none }

/-- A signal is delivered to a thread; while its handler runs there, it is blocked. -/
def deliver (t : Thread) (sig : Signal) (p : Main) : Option Main :=
  if p.runs t = true ∧ ∀ call ∈ p.calls t, call.1 ≠ sig then
    if p.pos.handles sig = true then some (p.setCalls t ((sig, .entered) :: p.calls t))
    else some { p with killed := true }
  else none

/-- What the process lets happen. A stopped `io_context` starts no handler; a thread does not go on
while it runs a `signal_handler`; the singleton is destroyed behind `main`. -/
def allows (p : Main) : CServer.Act → Bool
  | .handleAccept _ | .run (.handleRead _ _) | .run (.handleReadError _) |
    .run (.handleWrite _ _ _) => !p.stopped && !p.ended && p.free .network
  | .run .pass | .run .post => !p.ended && p.free .network
  | .run .worker => p.free .worker
  | .run .spurious => true
  | .run .destructor => decide (p.pos = .returned)

inductive Act where
  | main
  | handler (t : Thread)
  | deliver (t : Thread) (sig : Signal)
  /-- `cond_terminated.wait` returns by itself -/
  | spurious
  /-- the network thread leaves `run()` -/
  | leave
  | server (a : CServer.Act)

def step (J : JsonCpp) (p : Main) (a : Act) : Option Main :=
  if p.killed = false ∧ p.server.machine.fate = .alive then
    match a with
    | .main => p.mainStep
    | .handler t => p.handlerStep t
    | .deliver t sig => p.deliver t sig
    | .spurious => if p.pos = .waiting then some { p with pos := .woken } else none
    | .leave =>
      if p.stopped = true ∧ p.ended = false ∧ p.free .network = true ∧
          p.server.machine.networkFree = true then
        some { p with ended := true }
      else none
    | .server a =>
      if p.allows a = true then (CServer.step J p.server a).map fun c => { p with server := c }
      else none
  else none

def system (J : JsonCpp) : Lib.System Main Act where
  init := init
  step := step J

/-! ## What a step can do -/

variable {J : JsonCpp} {p p' : Main} {t : Thread}

/-- The steps of `main`. -/
inductive MainSpec (p : Main) : Main → Prop where
  | install (pos : p.pos = .started) : MainSpec p { p with pos := .installed }
  | installed (pos : p.pos = .installed) : MainSpec p { p with pos := .testing }
  | sawSet (pos : p.pos = .testing) (set : p.isServerTerminated = true) :
      MainSpec p { p with pos := .stopping }
  | sawClear (pos : p.pos = .testing) (clear : p.isServerTerminated = false) :
      MainSpec p { p with pos := .entering }
  | lock (pos : p.pos = .entering) (unheld : p.mutexTerminated = none) :
      MainSpec p { p with mutexTerminated := some .main, pos := .locked }
  | wait (pos : p.pos = .locked) : MainSpec p { p with mutexTerminated := none, pos := .waiting }
  | relock (pos : p.pos = .woken) (unheld : p.mutexTerminated = none) :
      MainSpec p { p with mutexTerminated := some .main, pos := .leaving }
  | unlock (pos : p.pos = .leaving) : MainSpec p { p with mutexTerminated := none, pos := .testing }
  | stop (pos : p.pos = .stopping) : MainSpec p { p with stopped := true, pos := .joining }
  | join (pos : p.pos = .joining) (ended : p.ended = true) : MainSpec p { p with pos := .returned }

theorem mainStep_cases (h : p.mainStep = some p') : MainSpec p p' ∧ p.calls .main = [] := by
  unfold mainStep at h
  split at h
  · rename_i hfree
    refine ⟨?_, free_iff.mp hfree⟩
    split at h
    · rename_i pos
      cases h
      exact .install pos
    · rename_i pos
      cases h
      exact .installed pos
    · rename_i pos
      split at h
      · rename_i set
        cases h
        exact .sawSet pos set
      · rename_i clear
        cases h
        exact .sawClear pos (Bool.eq_false_iff.mpr clear)
    · rename_i pos
      split at h
      · rename_i unheld
        cases h
        exact .lock pos unheld
      · cases h
    · rename_i pos
      cases h
      exact .wait pos
    · cases h
    · rename_i pos
      split at h
      · rename_i unheld
        cases h
        exact .relock pos unheld
      · cases h
    · rename_i pos
      cases h
      exact .unlock pos
    · rename_i pos
      cases h
      exact .stop pos
    · rename_i pos
      split at h
      · rename_i ended
        cases h
        exact .join pos ended
      · cases h
    · cases h
  · cases h

/-- The steps of `signal_handler`. -/
inductive HandlerSpec (p : Main) (t : Thread) : Main → Prop where
  | lock {sig : Signal} {rest : List (Signal × HandlerPos)}
      (calls : p.calls t = (sig, .entered) :: rest) (unheld : p.mutexTerminated = none) :
      HandlerSpec p t { p.setCalls t ((sig, .locked) :: rest) with mutexTerminated := some t }
  | set {sig : Signal} {rest : List (Signal × HandlerPos)}
      (calls : p.calls t = (sig, .locked) :: rest) :
      HandlerSpec p t { p.setCalls t ((sig, .notifying) :: rest) with isServerTerminated := true }
  | notify {sig : Signal} {rest : List (Signal × HandlerPos)}
      (calls : p.calls t = (sig, .notifying) :: rest) :
      HandlerSpec p t { p.setCalls t ((sig, .unlocking) :: rest) with pos := p.pos.notified }
  | unlock {sig : Signal} {rest : List (Signal × HandlerPos)}
      (calls : p.calls t = (sig, .unlocking) :: rest) :
      HandlerSpec p t { p.setCalls t rest with mutexTerminated := none }

theorem handlerStep_cases (h : p.handlerStep t = some p') : HandlerSpec p t p' := by
  unfold handlerStep at h
  split at h
  · cases h
  · rename_i calls
    split at h
    · rename_i unheld
      cases h
      exact .lock calls unheld
    · cases h
  · rename_i calls
    cases h
    exact .set calls
  · rename_i calls
    cases h
    exact .notify calls
  · rename_i calls
    cases h
    exact .unlock calls

inductive StepSpec (J : JsonCpp) (p : Main) : Act → Main → Prop where
  | main {p' : Main} (free : p.calls .main = []) (moves : MainSpec p p') : StepSpec J p .main p'
  | handler {t : Thread} {p' : Main} (moves : HandlerSpec p t p') : StepSpec J p (.handler t) p'
  | deliver {t : Thread} {sig : Signal} (runs : p.runs t = true)
      (handles : p.pos.handles sig = true) :
      StepSpec J p (.deliver t sig) (p.setCalls t ((sig, .entered) :: p.calls t))
  | kill {t : Thread} {sig : Signal} (handles : p.pos.handles sig = false) :
      StepSpec J p (.deliver t sig) { p with killed := true }
  | spurious (pos : p.pos = .waiting) : StepSpec J p .spurious { p with pos := .woken }
  | leave (stopped : p.stopped = true) (ended : p.ended = false)
      (idle : p.server.machine.networkFree = true) : StepSpec J p .leave { p with ended := true }
  | server {a : CServer.Act} {c : CServer} (allowed : p.allows a = true)
      (step : CServer.step J p.server a = some c) :
      StepSpec J p (.server a) { p with server := c }

/-- The process is neither killed nor dead. -/
def Alive (p : Main) : Prop := p.killed = false ∧ p.server.machine.fate = .alive

theorem step_cases {a : Act} (h : step J p a = some p') : StepSpec J p a p' ∧ p.Alive := by
  unfold step at h
  split at h
  · rename_i halive
    refine ⟨?_, halive⟩
    cases a with
    | main =>
      obtain ⟨hspec, hfree⟩ := mainStep_cases h
      exact .main hfree hspec
    | handler t => exact .handler (handlerStep_cases h)
    | deliver t sig =>
      simp only [deliver] at h
      split at h
      · rename_i hguard
        split at h
        · rename_i handles
          cases h
          exact .deliver hguard.1 handles
        · rename_i handles
          cases h
          exact .kill (Bool.eq_false_iff.mpr handles)
      · cases h
    | spurious =>
      simp only at h
      split at h
      · rename_i pos
        cases h
        exact .spurious pos
      · cases h
    | leave =>
      simp only at h
      split at h
      · rename_i hguard
        cases h
        exact .leave hguard.1 hguard.2.1 hguard.2.2.2
      · cases h
    | server a =>
      simp only at h
      split at h
      · rename_i allowed
        obtain ⟨c, hc, rfl⟩ := Option.map_eq_some_iff.mp h
        exact .server allowed hc
      · cases h
  · cases h

/-! ## The mutex -/

/-- How many critical sections of `mutex_terminated` the thread is in. -/
def sections (p : Main) (t : Thread) : Nat :=
  (p.calls t).countP (·.2.inside) + if t = .main ∧ p.pos.inside = true then 1 else 0

/-- A thread that does not move. -/
theorem sections_kept (hcalls : p'.calls t = p.calls t)
    (hpos : t = .main → p'.pos.inside = p.pos.inside) : p'.sections t = p.sections t := by
  unfold sections
  rw [hcalls]
  by_cases ht : t = .main
  · rw [hpos ht]
  · simp only [ht, false_and, if_false]

/-- `main` moves, and no handler. -/
theorem sections_main (hcalls : p'.calls = p.calls) (hin : p.pos.inside = false)
    (hin' : p'.pos.inside = true) : p'.sections .main = p.sections .main + 1 := by
  unfold sections
  rw [hcalls, hin, hin']
  rfl

/-- A handler moves, and `main` stays where it is. -/
theorem sections_handler {l l' : List (Signal × HandlerPos)} {k j : Nat} (hcalls : p.calls t = l)
    (hpos : p'.pos.inside = p.pos.inside) (hcalls' : p'.calls = Function.update p.calls t l')
    (hcount : l'.countP (·.2.inside) + k = l.countP (·.2.inside) + j) :
    p'.sections t + k = p.sections t + j := by
  unfold sections
  rw [hcalls', Function.update_self, hcalls, hpos]
  omega

theorem sections_others {l' : List (Signal × HandlerPos)} (hpos : p'.pos.inside = p.pos.inside)
    (hcalls' : p'.calls = Function.update p.calls t l') :
    ∀ u, u ≠ t → p'.sections u = p.sections u := by
  intro u hu
  exact sections_kept (by rw [hcalls', Function.update_of_ne hu]) fun _ => hpos

/-- … between two positions outside, or two inside. -/
theorem sections_same {l l' : List (Signal × HandlerPos)} (hcalls : p.calls t = l)
    (hpos : p'.pos.inside = p.pos.inside) (hcalls' : p'.calls = Function.update p.calls t l')
    (hcount : l'.countP (·.2.inside) = l.countP (·.2.inside)) (u : Thread) :
    p'.sections u = p.sections u := by
  by_cases hu : u = t
  · rw [hu]
    exact sections_handler (k := 0) (j := 0) hcalls hpos hcalls' hcount
  · exact sections_others hpos hcalls' u hu

theorem MainSpec.counts (h : MainSpec p p') (hc : Lib.Counts p.mutexTerminated p.sections) :
    Lib.Counts p'.mutexTerminated p'.sections := by
  have hothers : p'.calls = p.calls → ∀ u, u ≠ .main → p'.sections u = p.sections u :=
    fun hcalls u hu => sections_kept (congrFun hcalls u) fun heq => absurd heq hu
  cases h with
  | install pos | installed pos | sawSet pos | sawClear pos | stop pos | join pos =>
    exact hc.kept fun u => sections_kept rfl fun _ => by rw [pos]; rfl
  | lock pos unheld | relock pos unheld =>
    rw [unheld] at hc
    exact hc.acquire (sections_main rfl (by rw [pos]; rfl) rfl) (hothers rfl)
  | wait pos | unlock pos =>
    refine hc.release (Eq.symm ?_) (hothers rfl)
    exact sections_main rfl rfl (by rw [pos]; rfl)

theorem notified_inside (pos : MainPos) : pos.notified.inside = pos.inside := by
  cases pos <;> rfl

theorem HandlerSpec.counts (h : HandlerSpec p t p')
    (hc : Lib.Counts p.mutexTerminated p.sections) :
    Lib.Counts p'.mutexTerminated p'.sections := by
  cases h with
  | lock calls unheld =>
    rw [unheld] at hc
    refine hc.acquire (sections_handler (k := 0) (j := 1) calls rfl rfl ?_)
      (sections_others rfl rfl)
    rw [List.countP_cons_of_pos rfl, List.countP_cons_of_neg Bool.false_ne_true]
  | set calls => exact hc.kept (sections_same calls rfl rfl rfl)
  | notify calls => exact hc.kept (sections_same calls (notified_inside _) rfl rfl)
  | unlock calls =>
    refine hc.release (sections_handler (k := 1) (j := 0) calls rfl rfl ?_)
      (sections_others rfl rfl)
    rw [List.countP_cons_of_pos rfl]

/-! ## The invariant -/

structure Inv (p : Main) : Prop where
  counts : Lib.Counts p.mutexTerminated p.sections
  /-- a handler sets the flag before it notifies -/
  set : ∀ t, ∀ call ∈ p.calls t, call.2 = .notifying → p.isServerTerminated = true
  seen : p.pos.past = true → p.isServerTerminated = true
  stopped : p.pos = .joining → p.stopped = true
  idle : p.ended = true → p.server.machine.networkFree = true
  lives : p.pos ≠ .returned → p.server.machine.logic.destructor = .alive

theorem init_inv : Inv init where
  counts t := by cases t <;> rfl
  set _ _ hcall := absurd hcall List.not_mem_nil
  seen h := by cases h
  stopped h := by cases h
  idle h := by cases h
  lives _ := rfl

theorem networkFree_iff {m : Machine} :
    m.networkFree = true ↔ m.net = .idle ∧ m.logic.producers 0 = .idle := by
  unfold Machine.networkFree
  constructor
  · intro h
    split at h
    · rename_i hnet hidle
      exact ⟨hnet, hidle⟩
    · cases h
  · rintro ⟨hnet, hidle⟩
    rw [hnet, hidle]

/-- When the network thread has ended, nothing brings it back. -/
theorem server_idle {a : CServer.Act} {c : CServer} (hended : p.ended = true)
    (hallowed : p.allows a = true) (hstep : CServer.step J p.server a = some c)
    (hidle : p.server.machine.networkFree = true) : c.machine.networkFree = true := by
  have hbegins : (!p.ended) = false := by rw [hended]; rfl
  obtain ⟨hnet, hprod⟩ := networkFree_iff.mp hidle
  cases CServer.step_cases hstep with
  | acceptFailed | accepted =>
    simp only [allows, hbegins, Bool.and_false, Bool.false_and, Bool.false_eq_true] at hallowed
  | threw => exact hidle
  | @ran a m _ known replies hrun performed =>
    refine networkFree_iff.mpr ?_
    rw [performed.net, performed.logic]
    obtain ⟨hspec, _⟩ := Machine.step_cases hrun
    cases hspec with
    | read | readError | turn | passEnd | write =>
      simp only [allows, hbegins, Bool.and_false, Bool.false_and, Bool.false_eq_true] at hallowed
    | sendFailed => exact ⟨hnet, hprod⟩
    | replied pos sent step =>
      exact ⟨hnet, LogicSystem.step_idle (a := .worker) step (fun _ _ heq => by cases heq) hprod⟩
    | @queue a b logic act out step =>
      refine ⟨hnet, LogicSystem.step_idle step (fun i n heq => ?_) hprod⟩
      subst heq
      cases a <;> cases act

theorem MainSpec.inv (hi : Inv p) (h : MainSpec p p') : Inv p' := by
  have hcounts := h.counts hi.counts
  have hlives : ∀ {pos : MainPos}, p.pos = pos → pos ≠ .returned →
      p.server.machine.logic.destructor = .alive := fun hpos hne => hi.lives (by rwa [hpos])
  cases h with
  | install pos | installed pos | sawClear pos | lock pos | wait pos | relock pos | unlock pos =>
    exact ⟨hcounts, hi.set, (fun h => by cases h), (fun h => by cases h), hi.idle,
      fun _ => hlives pos nofun⟩
  | sawSet pos set =>
    exact ⟨hcounts, hi.set, fun _ => set, (fun h => by cases h), hi.idle,
      fun _ => hlives pos nofun⟩
  | stop pos =>
    exact ⟨hcounts, hi.set, fun _ => hi.seen (by rw [pos]; rfl), fun _ => rfl, hi.idle,
      fun _ => hlives pos nofun⟩
  | join pos =>
    exact ⟨hcounts, hi.set, fun _ => hi.seen (by rw [pos]; rfl), (fun h => by cases h), hi.idle,
      fun h => absurd rfl h⟩

theorem mem_setCalls {l : List (Signal × HandlerPos)} {u : Thread} {call : Signal × HandlerPos}
    (h : call ∈ (p.setCalls t l).calls u) : call ∈ l ∨ call ∈ p.calls u := by
  by_cases hu : u = t
  · rw [hu, show (p.setCalls t l).calls t = l from Function.update_self ..] at h
    exact Or.inl h
  · rw [show (p.setCalls t l).calls u = p.calls u from Function.update_of_ne hu ..] at h
    exact Or.inr h

/-- No call gets to its notification. -/
theorem Inv.set_calls {l l' : List (Signal × HandlerPos)} (hi : Inv p) (hcalls : p.calls t = l)
    (hsub : ∀ call ∈ l', call.2 = .notifying → call ∈ l) :
    ∀ u, ∀ call ∈ (p.setCalls t l').calls u, call.2 = .notifying →
      p.isServerTerminated = true := by
  intro u call hmem hnot
  rcases mem_setCalls hmem with hnew | hold
  · exact hi.set t call (by rw [hcalls]; exact hsub call hnew hnot) hnot
  · exact hi.set u call hold hnot

/-- The call in front is not at its notification. -/
theorem notifying_of_cons {c d : Signal × HandlerPos} {rest : List (Signal × HandlerPos)}
    (hc : c.2 ≠ .notifying) : ∀ call ∈ c :: rest, call.2 = .notifying → call ∈ d :: rest := by
  intro call hmem hnot
  rcases List.mem_cons.mp hmem with rfl | hrest
  · exact absurd hnot hc
  · exact List.mem_cons_of_mem d hrest

theorem notified_past (pos : MainPos) : pos.notified.past = pos.past := by
  cases pos <;> rfl

theorem notified_eq {pos pos' : MainPos} (h : pos.notified = pos') (hwoken : pos' ≠ .woken) :
    pos = pos' := by
  cases pos with
  | waiting => exact absurd h.symm hwoken
  | _ => exact h

theorem HandlerSpec.inv (hi : Inv p) (h : HandlerSpec p t p') : Inv p' := by
  have hcounts := h.counts hi.counts
  cases h with
  | lock calls unheld =>
    refine ⟨hcounts, ?_, hi.seen, hi.stopped, hi.idle, hi.lives⟩
    exact hi.set_calls calls (notifying_of_cons (d := _) nofun)
  | set calls => exact ⟨hcounts, fun _ _ _ _ => rfl, fun _ => rfl, hi.stopped, hi.idle, hi.lives⟩
  | notify calls =>
    refine ⟨hcounts, hi.set_calls calls (notifying_of_cons (d := _) nofun), fun hpast => ?_,
      fun hpos => hi.stopped (notified_eq hpos nofun), hi.idle, fun hpos => hi.lives fun heq => ?_⟩
    · rw [notified_past] at hpast
      exact hi.seen hpast
    · refine hpos ?_
      rw [heq]
      rfl
  | unlock calls =>
    refine ⟨hcounts, ?_, hi.seen, hi.stopped, hi.idle, hi.lives⟩
    exact hi.set_calls calls fun call hmem _ => List.mem_cons_of_mem _ hmem

theorem step_inv {a : Act} (hi : Inv p) (h : step J p a = some p') : Inv p' := by
  obtain ⟨hspec, _⟩ := step_cases h
  cases hspec with
  | main free moves => exact moves.inv hi
  | handler moves => exact moves.inv hi
  | @deliver t sig runs handles =>
    refine ⟨?_, ?_, hi.seen, hi.stopped, hi.idle, hi.lives⟩
    · refine hi.counts.kept (sections_same (l := p.calls t) rfl rfl rfl ?_)
      exact List.countP_cons_of_neg Bool.false_ne_true
    · refine hi.set_calls (l := p.calls t) rfl fun call hmem hnot => ?_
      rcases List.mem_cons.mp hmem with rfl | hrest
      · cases hnot
      · exact hrest
  | kill => exact ⟨hi.counts, hi.set, hi.seen, hi.stopped, hi.idle, hi.lives⟩
  | spurious pos =>
    refine ⟨hi.counts.kept fun u => sections_kept rfl fun _ => by rw [pos]; rfl, hi.set,
      (fun h => by cases h), (fun h => by cases h), hi.idle, fun _ => hi.lives ?_⟩
    rw [pos]
    nofun
  | leave stopped ended idle =>
    exact ⟨hi.counts, hi.set, hi.seen, hi.stopped, fun _ => idle, hi.lives⟩
  | @server a c allowed step =>
    refine ⟨hi.counts, hi.set, hi.seen, hi.stopped, fun hended => ?_, fun hpos => ?_⟩
    · have hended : p.ended = true := hended
      exact server_idle hended allowed step (hi.idle hended)
    · refine (CServer.step_destructor ?_ step).trans (hi.lives hpos)
      rintro rfl
      exact absurd (of_decide_eq_true allowed) hpos

theorem reachable_inv (h : (system J).Reachable p) : Inv p :=
  h.invariant init_inv step_inv

/-- What the signals leave of the server is the server. -/
theorem reachable_server (h : (system J).Reachable p) : (CServer.system J).Reachable p.server := by
  induction h with
  | init => exact .init
  | @step p p' a hr hstep ih =>
    obtain ⟨hspec, _⟩ := step_cases hstep
    cases hspec with
    | main free moves => cases moves <;> exact ih
    | handler moves => cases moves <;> exact ih
    | deliver | kill | spurious | leave => exact ih
    | server allowed step => exact ih.step step

/-! ## A handler that waits for its own thread -/

/-- The handler on top waits for a mutex that its thread holds. -/
def SelfLocked (p : Main) (t : Thread) : Prop :=
  p.mutexTerminated = some t ∧ ∃ sig rest, p.calls t = (sig, .entered) :: rest

/-- The step starts no handler on a thread that holds the mutex. -/
def Spares (p : Main) : Act → Prop
  | .deliver t sig => p.pos.handles sig = true → p.mutexTerminated ≠ some t
  | _ => True

/-- A thread whose handlers and whose hold on the mutex have not changed. -/
theorem not_selfLocked_of_same {u : Thread} (h : ¬ p.SelfLocked u)
    (hmutex : p'.mutexTerminated = some u → p.mutexTerminated = some u)
    (hcalls : p'.calls u = p.calls u) : ¬ p'.SelfLocked u := by
  rintro ⟨hheld, sig, rest, hin⟩
  exact h ⟨hmutex hheld, sig, rest, by rwa [hcalls] at hin⟩

/-- … and one with another call on top. -/
theorem not_selfLocked_of_top {u : Thread} {sig : Signal} {pos : HandlerPos}
    {rest : List (Signal × HandlerPos)} (hcalls : p'.calls u = (sig, pos) :: rest)
    (hpos : pos ≠ .entered) : ¬ p'.SelfLocked u := by
  rintro ⟨_, sig', rest', hin⟩
  rw [hcalls] at hin
  cases hin
  exact hpos rfl

theorem HandlerSpec.not_selfLocked (h : HandlerSpec p t p') (hnot : ∀ u, ¬ p.SelfLocked u) :
    ∀ u, ¬ p'.SelfLocked u := by
  intro u
  by_cases hu : u = t
  · subst hu
    cases h with
    | lock | set | notify =>
      exact not_selfLocked_of_top (show Function.update _ _ _ _ = _ from Function.update_self ..)
        nofun
    | unlock =>
      rintro ⟨hheld, _⟩
      cases hheld
  · cases h with
    | lock calls unheld =>
      refine not_selfLocked_of_same (hnot u) (fun heq => ?_) (Function.update_of_ne hu ..)
      exact absurd (Option.some.inj heq).symm hu
    | set | notify =>
      exact not_selfLocked_of_same (hnot u) id (Function.update_of_ne hu ..)
    | unlock =>
      exact not_selfLocked_of_same (hnot u) (fun heq => by cases heq) (Function.update_of_ne hu ..)

theorem MainSpec.not_selfLocked (h : MainSpec p p') (hfree : p.calls .main = [])
    (hnot : ∀ u, ¬ p.SelfLocked u) : ∀ u, ¬ p'.SelfLocked u := by
  intro u
  have hmain : ∀ {q : Main}, q.calls = p.calls → ¬ q.SelfLocked .main := by
    rintro q hcalls ⟨_, sig, rest, hin⟩
    rw [hcalls, hfree] at hin
    cases hin
  by_cases hu : u = .main
  · subst hu
    cases h <;> exact hmain rfl
  · cases h with
    | install | installed | sawSet | sawClear | stop | join =>
      exact not_selfLocked_of_same (hnot u) id rfl
    | lock | relock =>
      refine not_selfLocked_of_same (hnot u) (fun heq => ?_) rfl
      exact absurd (Option.some.inj heq).symm hu
    | wait | unlock =>
      exact not_selfLocked_of_same (hnot u) (fun heq => by cases heq) rfl

theorem step_not_selfLocked {a : Act} (hnot : ∀ u, ¬ p.SelfLocked u) (hc : p.Spares a)
    (h : step J p a = some p') : ∀ u, ¬ p'.SelfLocked u := by
  obtain ⟨hspec, _⟩ := step_cases h
  cases hspec with
  | main free moves => exact moves.not_selfLocked free hnot
  | handler moves => exact moves.not_selfLocked hnot
  | @deliver t sig runs handles =>
    intro u
    by_cases hu : u = t
    · subst hu
      exact fun hlocked => hc handles hlocked.1
    · exact not_selfLocked_of_same (hnot u) id (Function.update_of_ne hu ..)
  | kill | spurious | leave | server => exact fun u => not_selfLocked_of_same (hnot u) id rfl

theorem selfLocked_of_not_spares {a : Act} (hc : ¬ p.Spares a) (h : step J p a = some p') :
    ¬ ∀ u, ¬ p'.SelfLocked u := by
  obtain ⟨hspec, _⟩ := step_cases h
  cases hspec with
  | @deliver t sig runs handles =>
    intro hall
    refine hc fun _ hheld => hall t ⟨hheld, sig, p.calls t, ?_⟩
    exact Function.update_self ..
  | @kill t sig handles =>
    refine absurd (fun hhandles => ?_) hc
    rw [handles] at hhandles
    cases hhandles
  | main | handler | spurious | leave | server => exact absurd trivial hc

/-! ## Rest -/

/-- A step of one of the process's own threads. -/
def Act.internal : Act → Bool
  | .main | .handler _ | .leave => true
  | .server a => a.internal
  | .deliver _ _ | .spurious => false

/-- No thread of the process can take a step. -/
def Quiet (J : JsonCpp) (p : Main) : Prop := ∀ a, a.internal = true → step J p a = none

theorem Quiet.mainStep (h : p.Quiet J) (halive : p.Alive) : p.mainStep = none := by
  have hstep := h .main rfl
  unfold step at hstep
  rwa [if_pos ⟨halive.1, halive.2⟩] at hstep

theorem Quiet.handlerStep (h : p.Quiet J) (halive : p.Alive) (t : Thread) :
    p.handlerStep t = none := by
  have hstep := h (.handler t) rfl
  unfold step at hstep
  rwa [if_pos ⟨halive.1, halive.2⟩] at hstep

/-- Where no handler waits for its own thread, nobody holds the mutex at rest, … -/
theorem Quiet.unheld (h : p.Quiet J) (halive : p.Alive) (hi : Inv p)
    (hnot : ∀ t, ¬ p.SelfLocked t) : p.mutexTerminated = none := by
  by_contra hheld
  obtain ⟨t, ht⟩ := Option.ne_none_iff_exists'.mp hheld
  have hone := hi.counts t
  rw [if_pos ht] at hone
  have hhandler := h.handlerStep halive t
  unfold Main.handlerStep at hhandler
  split at hhandler
  · -- only `main` holds it without a handler
    rename_i hcalls
    unfold sections at hone
    rw [hcalls, List.countP_nil, Nat.zero_add] at hone
    split at hone
    · rename_i hin
      obtain ⟨rfl, hinside⟩ := hin
      have hmain := h.mainStep halive
      unfold Main.mainStep at hmain
      rw [if_pos (free_iff.mpr hcalls)] at hmain
      cases hpos : p.pos with
      | locked | leaving =>
        rw [hpos] at hmain
        cases hmain
      | _ =>
        rw [hpos] at hinside
        cases hinside
    · cases hone
  · rename_i sig rest hcalls
    exact hnot t ⟨ht, sig, rest, hcalls⟩
  · cases hhandler
  · cases hhandler
  · cases hhandler

/-- … and no handler is running. -/
theorem Quiet.free (h : p.Quiet J) (halive : p.Alive) (hi : Inv p)
    (hnot : ∀ t, ¬ p.SelfLocked t) (t : Thread) : p.calls t = [] := by
  have hhandler := h.handlerStep halive t
  unfold Main.handlerStep at hhandler
  split at hhandler
  · assumption
  · rw [h.unheld halive hi hnot] at hhandler
    cases hhandler
  · cases hhandler
  · cases hhandler
  · cases hhandler

/-- A network thread in `run()` has no pass to do, and no step of `PostMsgtoQueue`. -/
theorem step_of_idle {c : CServer} (hidle : c.machine.networkFree = true) {a : Machine.Act}
    (ha : a = .pass ∨ a = .post) : CServer.step J c (.run a) = none := by
  obtain ⟨hnet, hprod⟩ := networkFree_iff.mp hidle
  by_contra hsome
  obtain ⟨c', hc'⟩ := Option.ne_none_iff_exists'.mp hsome
  cases CServer.step_cases hc' with
  | threw => rcases ha with heq | heq <;> cases heq
  | ran known replies hrun performed =>
    obtain ⟨hspec, _⟩ := Machine.step_cases hrun
    cases hspec with
    | turn pos | passEnd pos =>
      rw [hnet] at pos
      cases pos
    | read | readError | write | replied | sendFailed => rcases ha with heq | heq <;> cases heq
    | queue act out step =>
      rcases ha with rfl | rfl
      · cases act
      · cases act
        have hstep : c.machine.logic.producerStep .notifyUnderLock 0 = some _ := step
        simp only [LogicSystem.producerStep, hprod, reduceCtorEq] at hstep

theorem Quiet.server (h : p.Quiet J) (halive : p.Alive) (hi : Inv p)
    (hfree : ∀ t, p.calls t = []) : p.server.Quiet J := by
  have hon : ∀ t, p.free t = true := fun t => free_iff.mpr (hfree t)
  intro a ha
  have hstep := h (.server a) ha
  unfold step at hstep
  rw [if_pos ⟨halive.1, halive.2⟩] at hstep
  dsimp only at hstep
  split at hstep
  · exact Option.map_eq_none_iff.mp hstep
  · rename_i hforbids
    have hended : ∀ b, a = .run b → b = .pass ∨ b = .post → p.ended = true := by
      rintro b rfl hb
      by_contra hruns
      have hruns : p.ended = false := Bool.eq_false_iff.mpr hruns
      refine hforbids ?_
      rcases hb with rfl | rfl <;> simp [allows, hruns, hon .network]
    cases a with
    | handleAccept => cases ha
    | run a =>
      cases a with
      | pass => exact step_of_idle (hi.idle (hended _ rfl (Or.inl rfl))) (Or.inl rfl)
      | post => exact step_of_idle (hi.idle (hended _ rfl (Or.inr rfl))) (Or.inr rfl)
      | worker => exact absurd (hon .worker) hforbids
      | handleRead | handleReadError | handleWrite | spurious | destructor => cases ha

/-- **At rest `main` waits, or has returned**, where no handler waits for its own thread. -/
theorem quiet_pos (hr : (system J).Reachable p) (hneg : p.server.machine.Unbroken)
    (halive : p.Alive) (hnot : ∀ t, ¬ p.SelfLocked t) (hquiet : p.Quiet J) :
    p.pos = .waiting ∨ p.pos = .returned := by
  have hi := reachable_inv hr
  have hfree := hquiet.free halive hi hnot
  have hunheld := hquiet.unheld halive hi hnot
  have hmain := hquiet.mainStep halive
  unfold mainStep at hmain
  rw [if_pos (free_iff.mpr (hfree .main))] at hmain
  cases hpos : p.pos with
  | waiting => exact Or.inl rfl
  | returned => exact Or.inr rfl
  | started | installed | locked | leaving | stopping =>
    rw [hpos] at hmain
    cases hmain
  | entering | woken =>
    rw [hpos, hunheld] at hmain
    cases hmain
  | testing =>
    rw [hpos] at hmain
    dsimp only at hmain
    split at hmain <;> cases hmain
  | joining =>
    rw [hpos] at hmain
    dsimp only at hmain
    split at hmain
    · cases hmain
    · -- the network thread is in `run()`, and can leave it
      rename_i hended
      have hrest := CServer.quiet_resting (reachable_server hr) hneg halive.2
        (hi.lives (by rw [hpos]; nofun)) (hquiet.server halive hi hfree)
      have hleave := hquiet .leave rfl
      unfold step at hleave
      rw [if_pos ⟨halive.1, halive.2⟩] at hleave
      dsimp only at hleave
      rw [if_pos ⟨hi.stopped hpos, Bool.eq_false_iff.mpr hended,
        free_iff.mpr (hfree .network),
        networkFree_iff.mpr ⟨hrest.net, hrest.idle 0⟩⟩] at hleave
      cases hleave

/-! ## Who tells `main` -/

/-- `main` will see the flag. -/
def Served (p : Main) : Prop :=
  p.isServerTerminated = true ∧ p.pos ≠ .entering ∧ p.pos ≠ .locked ∧ p.pos ≠ .waiting

/-- The step is a notification that is not lost: `main` is not on its way from the test to the
mutex. A wakeup without a notification does as well, when the flag is set. -/
def Tells (p : Main) : Act → Prop
  | .handler t => (∃ sig rest, p.calls t = (sig, .notifying) :: rest) ∧ p.pos ≠ .entering
  | .spurious => p.isServerTerminated = true
  | .main | .deliver _ _ | .leave | .server _ => False

theorem Served.of_same (h : p.Served) (hset : p'.isServerTerminated = p.isServerTerminated)
    (hpos : p'.pos = p.pos) : p'.Served := by
  unfold Served
  rwa [hset, hpos]

/-- Whoever is told stays so. -/
theorem step_served {a : Act} (hs : p.Served) (h : step J p a = some p') : p'.Served := by
  obtain ⟨hspec, _⟩ := step_cases h
  obtain ⟨hset, hentering, hlocked, hwaiting⟩ := hs
  cases hspec with
  | main free moves =>
    cases moves with
    | sawClear pos clear =>
      rw [hset] at clear
      cases clear
    | lock pos => exact absurd pos hentering
    | wait pos => exact absurd pos hlocked
    | install | installed | sawSet | relock | unlock | stop | join =>
      exact ⟨hset, nofun, nofun, nofun⟩
  | handler moves =>
    cases moves with
    | lock | unlock => exact ⟨hset, hentering, hlocked, hwaiting⟩
    | set => exact ⟨rfl, hentering, hlocked, hwaiting⟩
    | notify calls =>
      refine ⟨hset, fun heq => ?_, fun heq => ?_, fun heq => ?_⟩
      · exact hentering (notified_eq heq nofun)
      · exact hlocked (notified_eq heq nofun)
      · exact hwaiting (notified_eq heq nofun)
  | spurious pos => exact absurd pos hwaiting
  | deliver | kill | leave | server => exact ⟨hset, hentering, hlocked, hwaiting⟩

/-- A handler in its critical section keeps `main` out of its own. -/
theorem Inv.main_outside (hi : Inv p) {call : Signal × HandlerPos}
    {rest : List (Signal × HandlerPos)} (hcalls : p.calls t = call :: rest)
    (hin : call.2.inside = true) : p.pos.inside = false := by
  by_contra hinside
  have hpos : p.pos.inside = true := by simpa using hinside
  have hcount : (call :: rest).countP (·.2.inside) = rest.countP (·.2.inside) + 1 :=
    List.countP_cons_of_pos hin
  have hmain : p.mutexTerminated = some .main := by
    refine hi.counts.held ?_
    unfold sections
    rw [if_pos ⟨rfl, hpos⟩]
    omega
  have ht : p.mutexTerminated = some t := by
    refine hi.counts.held ?_
    unfold sections
    rw [hcalls, hcount]
    omega
  obtain rfl : t = .main := Option.some.inj (ht.symm.trans hmain)
  have hone := hi.counts .main
  rw [if_pos hmain] at hone
  unfold sections at hone
  rw [hcalls, hcount, if_pos ⟨rfl, hpos⟩] at hone
  omega

/-- A notification that is not lost tells. -/
theorem served_of_tells {a : Act} (hi : Inv p) (ht : p.Tells a) (h : step J p a = some p') :
    p'.Served := by
  obtain ⟨hspec, _⟩ := step_cases h
  cases hspec with
  | main | deliver | kill | leave | server => exact ht.elim
  | spurious pos => exact ⟨ht, nofun, nofun, nofun⟩
  | @handler t p' moves =>
    obtain ⟨⟨sig, rest, hnot⟩, hentering⟩ := ht
    cases moves with
    | lock calls | set calls | unlock calls =>
      rw [hnot] at calls
      cases calls
    | notify calls =>
      have hset := hi.set t (sig, .notifying) (by rw [hnot]; exact List.mem_cons_self) rfl
      have hout : p.pos.inside = false := hi.main_outside hnot rfl
      refine ⟨hset, fun heq => hentering (notified_eq heq nofun), fun heq => ?_, fun heq => ?_⟩
      · rw [notified_eq heq nofun] at hout
        cases hout
      · have heq : p.pos.notified = .waiting := heq
        rw [notified_eq heq nofun] at heq
        cases heq

/-- `main` will see the flag, and no handler is about to notify. -/
structure Told (p : Main) : Prop where
  served : p.Served
  settled : ∀ t, ∀ call ∈ p.calls t, call.2 ≠ .notifying

theorem Told.before (h : p'.Told) (hserved : p'.Served → p.Served)
    (hcalls : ∀ t, ∀ call ∈ p.calls t, call.2 = .notifying → call ∈ p'.calls t) : p.Told :=
  ⟨hserved h.served, fun t call hmem hnot => h.settled t call (hcalls t call hmem hnot) hnot⟩

/-- A call that is about to notify is still there when another one has moved. -/
theorem mem_calls_kept {l l' : List (Signal × HandlerPos)} (hcalls : p.calls t = l)
    (hsub : ∀ call ∈ l, call.2 = .notifying → call ∈ l') :
    ∀ u, ∀ call ∈ p.calls u, call.2 = .notifying → call ∈ (p.setCalls t l').calls u := by
  intro u call hmem hnot
  by_cases hu : u = t
  · rw [hu, hcalls] at hmem
    rw [hu, show (p.setCalls t l').calls t = l' from Function.update_self ..]
    exact hsub call hmem hnot
  · rwa [show (p.setCalls t l').calls u = p.calls u from Function.update_of_ne hu ..]

/-- **Nothing else tells.** -/
theorem told_cause {a : Act} (h : p'.Told) (hstep : step J p a = some p') : p.Told ∨ p.Tells a := by
  obtain ⟨hspec, _⟩ := step_cases hstep
  cases hspec with
  | main free moves =>
    refine Or.inl ?_
    cases moves with
    | sawClear => exact absurd rfl h.served.2.1
    | lock => exact absurd rfl h.served.2.2.1
    | wait => exact absurd rfl h.served.2.2.2
    | install pos | installed pos | sawSet pos | relock pos | unlock pos | stop pos | join pos =>
      refine h.before (fun hs => ⟨hs.1, ?_⟩) fun _ _ hmem _ => hmem
      rw [pos]
      exact ⟨nofun, nofun, nofun⟩
  | @handler t p' moves =>
    cases moves with
    | lock calls =>
      exact Or.inl (h.before id (mem_calls_kept calls (notifying_of_cons nofun)))
    | @set sig rest calls =>
      refine absurd rfl (h.settled t (sig, .notifying) ?_)
      show (sig, HandlerPos.notifying) ∈ Function.update p.calls t ((sig, .notifying) :: rest) t
      rw [Function.update_self]
      exact List.mem_cons_self
    | notify calls =>
      refine Or.inr ⟨⟨_, _, calls⟩, fun hpos => h.served.2.1 ?_⟩
      show p.pos.notified = .entering
      rw [hpos]
      rfl
    | unlock calls =>
      refine Or.inl (h.before id (mem_calls_kept calls fun call hmem hnot => ?_))
      rcases List.mem_cons.mp hmem with rfl | hrest
      · cases hnot
      · exact hrest
  | deliver =>
    exact Or.inl (h.before id (mem_calls_kept rfl fun _ hmem _ => List.mem_cons_of_mem _ hmem))
  | kill | leave | server => exact Or.inl (h.before id fun _ _ hmem _ => hmem)
  | spurious => exact Or.inr h.served.1

/-! ## What is to be done -/

def callsWork : List (Signal × HandlerPos) → Nat
  | [] => 0
  | call :: rest => call.2.work + callsWork rest

/-- The calls of all three threads. -/
def handlersWork (p : Main) : Nat :=
  callsWork (p.calls .main) + callsWork (p.calls .network) + callsWork (p.calls .worker)

/-- What the threads of the process still have to do. -/
def work (p : Main) : Nat :=
  p.pos.work + p.handlersWork + (if p.ended then 0 else 1) + p.server.machine.work

/-- What comes from outside, and what it makes there to do. -/
def Act.credit : Act → Nat
  | .deliver _ _ => HandlerPos.entered.work
  | .spurious => MainPos.woken.work
  | .server a => a.credit
  | .main | .handler _ | .leave => 0

theorem handlersWork_setCalls {l l' : List (Signal × HandlerPos)} (hcalls : p.calls t = l) :
    (p.setCalls t l').handlersWork + callsWork l = p.handlersWork + callsWork l' := by
  subst hcalls
  unfold handlersWork
  cases t <;> simp only [setCalls, Function.update, reduceCtorEq, dite_true, dite_false] <;> omega

theorem MainSpec.work_lt (h : MainSpec p p') : p'.work < p.work := by
  have hmoves : ∀ {pos : MainPos} {q : Main}, p.pos = pos → q.calls = p.calls →
      q.ended = p.ended → q.server = p.server → q.pos.work + 1 = pos.work → q.work < p.work := by
    intro pos q hpos hcalls hended hserver hone
    unfold work handlersWork
    rw [hcalls, hended, hserver, hpos]
    omega
  cases h with
  | install pos | installed pos | sawSet pos | sawClear pos | lock pos | wait pos | relock pos
  | unlock pos | stop pos | join pos => exact hmoves pos rfl rfl rfl rfl

theorem notified_work (pos : MainPos) : pos.notified.work ≤ pos.work + 5 := by
  cases pos <;> decide

theorem HandlerSpec.work_lt (h : HandlerSpec p t p') : p'.work < p.work := by
  have hmoves : ∀ {l l' : List (Signal × HandlerPos)} {q : Main}, p.calls t = l →
      q.calls = (p.setCalls t l').calls → q.ended = p.ended → q.server = p.server →
      q.pos.work + callsWork l' < p.pos.work + callsWork l → q.work < p.work := by
    intro l l' q hcalls hcalls' hended hserver hlt
    have hsame : q.handlersWork = (p.setCalls t l').handlersWork := by
      unfold handlersWork
      rw [hcalls']
    have hsum : (p.setCalls t l').handlersWork + callsWork l = p.handlersWork + callsWork l' :=
      handlersWork_setCalls hcalls
    unfold work
    rw [hended, hserver, hsame]
    omega
  cases h with
  | lock calls | set calls | unlock calls =>
    refine hmoves calls rfl rfl rfl ?_
    simp only [callsWork, HandlerPos.work]
    show p.pos.work + _ < _
    omega
  | notify calls =>
    refine hmoves calls rfl rfl rfl ?_
    have hwakes := notified_work p.pos
    simp only [callsWork, HandlerPos.work]
    omega

theorem step_pays {a : Act} (hr : (system J).Reachable p) (hneg : p.server.machine.Unbroken)
    (h : step J p a = some p') :
    (p'.work + if a.internal then 1 else 0) ≤ p.work + a.credit := by
  obtain ⟨hspec, _⟩ := step_cases h
  cases hspec with
  | main free moves => exact moves.work_lt
  | handler moves => exact moves.work_lt
  | @deliver t sig runs handles =>
    have hsum : (p.setCalls t ((sig, .entered) :: p.calls t)).handlersWork +
        callsWork (p.calls t) = p.handlersWork + callsWork ((sig, .entered) :: p.calls t) :=
      handlersWork_setCalls rfl
    show p.pos.work + (p.setCalls t _).handlersWork + (if p.ended then 0 else 1) +
      p.server.machine.work ≤ p.work + HandlerPos.entered.work
    simp only [callsWork] at hsum
    unfold work
    omega
  | kill => exact Nat.le_add_right _ _
  | spurious pos =>
    show MainPos.woken.work + p.handlersWork + (if p.ended then 0 else 1) +
      p.server.machine.work ≤ p.work + MainPos.woken.work
    unfold work
    omega
  | leave stopped ended idle =>
    show p.pos.work + p.handlersWork + 0 + p.server.machine.work + 1 ≤ p.work + 0
    unfold work
    rw [ended, if_neg Bool.false_ne_true]
    omega
  | @server a c allowed step =>
    have hpays := CServer.step_pays (CServer.reachable_inv (reachable_server hr) hneg) hneg step
    show p.pos.work + p.handlersWork + (if p.ended then 0 else 1) + c.machine.work +
      (if a.internal then 1 else 0) ≤ p.work + a.credit
    unfold work
    omega

theorem unbroken_before {a : Act} (h : step J p a = some p')
    (hneg : p'.server.machine.Unbroken) : p.server.machine.Unbroken := by
  obtain ⟨hspec, _⟩ := step_cases h
  cases hspec with
  | main free moves => cases moves <;> exact hneg
  | handler moves => cases moves <;> exact hneg
  | deliver | kill | spurious | leave => exact hneg
  | server allowed step => exact CServer.unbroken_before step hneg

/-- … and what the process does by itself breaks no stream. -/
theorem unbroken_step {a : Act} (ha : a.internal = true) (hneg : p.server.machine.Unbroken)
    (h : step J p a = some p') : p'.server.machine.Unbroken := by
  obtain ⟨hspec, _⟩ := step_cases h
  cases hspec with
  | main free moves => cases moves <;> exact hneg
  | handler moves => cases moves <;> exact hneg
  | deliver | kill | spurious => cases ha
  | leave => exact hneg
  | server allowed step =>
    exact CServer.unbroken_of_received hneg (CServer.internal_received ha step)

def potential (J : JsonCpp) : (system J).Potential where
  good p := p.server.machine.Unbroken
  value := work
  internal := Act.internal
  credit := Act.credit
  before := unbroken_before
  uncredited := by
    intro a ha
    cases a with
    | main | handler | leave => rfl
    | deliver | spurious => cases ha
    | server a => exact (CServer.potential J).uncredited ha
  pays hr hneg h := step_pays hr hneg h

/-- **When `main` returns.** On streams without negative lengths, with signals delivered to any
thread at any time:

A run never has a handler that waits for its own thread, exactly when no signal is delivered to a
thread that holds `mutex_terminated`.

Then, wherever the threads of the process are at rest and it lives (a signal that comes before its
handler is installed kills it, and so does a callback that throws or a reply that fits in no node),
`main` has returned or waits in the loop. It has returned exactly when some notification of the run
found `main` elsewhere than between its test of the flag and the mutex, or `wait` came back by
itself with the flag set. One signal is not enough: if it comes in between, `main` waits though the
flag is set.

And by themselves the threads come to rest, after at most `work` steps. -/
theorem main_returns {as : List Act} (hrun : (system J).run init as = some p)
    (hneg : p.server.machine.Unbroken) :
    ((∀ pre q, pre <+: as → (system J).run init pre = some q → ∀ t, ¬ q.SelfLocked t) ↔
      ∀ pre a q, pre ++ [a] <+: as → (system J).run init pre = some q → q.Spares a) ∧
    (p.Alive → p.Quiet J → (∀ t, ¬ p.SelfLocked t) → (p.pos = .waiting ∨ p.pos = .returned) ∧
      (p.pos = .returned ↔
        ∃ pre a q, pre ++ [a] <+: as ∧ (system J).run init pre = some q ∧ q.Tells a)) ∧
    (∃ as' p', (∀ a ∈ as', a.internal = true) ∧ (system J).run p as' = some p' ∧ p'.Quiet J) ∧
    ∀ as' p', (∀ a ∈ as', a.internal = true) → (system J).run p as' = some p' →
      as'.length ≤ p.work := by
  have hreach : (system J).Reachable p := .of_run hrun
  have hi := reachable_inv hreach
  refine ⟨?_, fun halive hquiet hnot => ?_, ?_, fun as' p' has hrun' => ?_⟩
  · exact Lib.System.run_prefix_iff (I := fun q => ∀ t, ¬ q.SelfLocked t)
      (fun t hlocked => by cases hlocked.1) step_not_selfLocked selfLocked_of_not_spares hrun
  · have hpos := quiet_pos hreach hneg halive hnot hquiet
    refine ⟨hpos, fun hreturned => ?_, ?_⟩
    · have htold : p.Told := by
        refine ⟨⟨hi.seen (by rw [hreturned]; rfl), ?_⟩, fun t call hmem => ?_⟩
        · rw [hreturned]
          exact ⟨nofun, nofun, nofun⟩
        · rw [hquiet.free halive hi hnot t] at hmem
          cases hmem
      refine Lib.System.exists_cause (Q := Told) (fun h => ?_) (fun _ h hs => told_cause h hs)
        hrun htold
      cases h.served.1
    · intro htold
      have hserved : p.Served := Lib.System.of_cause (P := Served)
        (fun hr ht hs => served_of_tells (reachable_inv hr) ht hs) step_served hrun htold
      exact hpos.resolve_left hserved.2.2.2
  · obtain ⟨as', p', has, hrun', _, hquiet⟩ :=
      (potential J).exists_quiet (fun ha hgood hs => unbroken_step ha hgood hs) hreach hneg
    exact ⟨as', p', has, hrun', hquiet⟩
  · have hneg' : p'.server.machine.Unbroken :=
      Lib.System.run_keeps (G := fun q => q.server.machine.Unbroken) unbroken_step has hrun' hneg
    exact (potential J).run_length hreach hrun' hneg' has

/-- Nobody has connected, and `main` and the worker wait. -/
def allWait : List Act :=
  [.main, .main, .main, .main, .main, .server (.run .worker), .server (.run .worker),
    .server (.run .worker)]

/-- `SIGINT` comes, on the network thread. -/
def onSigint : List Act :=
  allWait ++ [.deliver .network .sigint, .handler .network, .handler .network, .handler .network,
    .handler .network, .main, .main, .main, .main, .leave, .main]

theorem main_returns_onSigint : ∃ p, (system CServer.noJson).run init onSigint = some p ∧
    (∀ t, ¬ p.SelfLocked t) ∧ p.pos = .returned := by
  obtain ⟨p, hp, hquiet, halive, hfree, hrecv⟩ : ∃ p,
      (system CServer.noJson).run init onSigint = some p ∧ p.Quiet CServer.noJson ∧ p.Alive ∧
        (∀ t, p.calls t = []) ∧ ∀ u, (p.server.conns u).received = [] := by
    refine ⟨_, rfl, fun a ha => ?_, ⟨rfl, rfl⟩, fun t => by cases t <;> rfl, fun _ => rfl⟩
    cases a with
    | main | leave => rfl
    | handler t => cases t <;> rfl
    | deliver | spurious => cases ha
    | server a =>
      cases a with
      | handleAccept => cases ha
      | run a =>
        cases a with
        | pass | post | worker => rfl
        | handleRead | handleReadError | handleWrite | spurious | destructor => cases ha
  have hneg : p.server.machine.Unbroken := by
    intro u
    rw [show (p.server.machine.conns u).received = _ from hrecv u, Lib.Format.parse_nil]
    nofun
  have hnot : ∀ t, ¬ p.SelfLocked t := by
    rintro t ⟨_, sig, rest, hin⟩
    rw [hfree t] at hin
    cases hin
  obtain ⟨q, hq, hcall, hpos⟩ : ∃ q, (system CServer.noJson).run init (allWait ++
      [.deliver .network .sigint, .handler .network, .handler .network]) = some q ∧
        q.calls .network = [(.sigint, .notifying)] ∧ q.pos = .waiting := ⟨_, rfl, rfl, rfl⟩
  obtain ⟨_, hrest, _⟩ := main_returns hp hneg
  refine ⟨p, hp, hnot, (hrest halive hquiet hnot).2.mpr ⟨_, .handler .network, q, ?_, hq, ?_⟩⟩
  · exact ⟨[.handler .network, .main, .main, .main, .main, .leave, .main], rfl⟩
  · exact ⟨⟨_, _, hcall⟩, by rw [hpos]; nofun⟩

/-- The same signal between the test and the mutex: the flag is set, and `main` waits. -/
example : ((system CServer.noJson).run init
    [.main, .main, .main, .deliver .network .sigint, .handler .network, .handler .network,
      .handler .network, .handler .network, .main, .main]).map
    (fun p => (p.isServerTerminated, p.pos)) = some (true, .waiting) := rfl

end Main
end ServerV3
end AsyncEchoServer
