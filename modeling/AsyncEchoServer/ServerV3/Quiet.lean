import AsyncEchoServer.Lib.Potential
import AsyncEchoServer.Logic.Work
import AsyncEchoServer.Logic.Progress
import AsyncEchoServer.Logic.Reply
import AsyncEchoServer.ServerV3.CServer

/-!
# `ServerV3/Quiet.lean` — the single-threaded server answers, or dies of a message

By themselves the two threads of the server come to rest: `Machine.work` is what they still have to
do, and every step of theirs lowers it. At rest the network thread is in `io_context::run` and the
worker waits on an empty queue, so all that has been framed has been dealt with.

The callback is the real one, so it can also end otherwise: it throws, or `Send` cannot build the
node of its reply, and the process is over. That takes a message which does it to the callback
(`reachable_deadly`), and one such message is enough. `requests_answered` has both endings.
-/

set_option autoImplicit false

namespace AsyncEchoServer
namespace ServerV3

/-! ## What is to be done -/

/-- The passes that are left of a `HandleRead`, each with a message to post. -/
def NetPos.work : NetPos → Nat
  | .idle => 0
  | .inHandleRead _ _ _ n => byteWork * n + 1

theorem nextPos_work {uuid n : Nat} {data : Bytes} {turn : Turn Short} (hn : 0 < n)
    (hless : ∀ l, turn.2 = .again l → l.bytesTransferred < n) :
    (nextPos uuid data turn).work + postWork < byteWork * n + 1 := by
  unfold nextPos
  split
  · rename_i l hagain
    have hmul : byteWork * l.bytesTransferred + byteWork ≤ byteWork * n :=
      Nat.mul_le_mul_left _ (hless l hagain)
    simp only [NetPos.work]
    unfold byteWork at *
    omega
  · have hmul : byteWork * 1 ≤ byteWork * n := Nat.mul_le_mul_left _ hn
    simp only [NetPos.work]
    unfold byteWork at *
    omega

namespace Machine

variable {f : Short × Bytes → Bytes × Short} {m m' : Machine}

/-- What the two threads still have to do. -/
def work (m : Machine) : Nat :=
  m.net.work + (m.logic.producers 0).work + m.logic.work 0 + m.fate.work

/-- A step of one of the server's own threads. -/
def Act.internal : Act → Bool
  | .pass | .post | .worker => true
  | .handleRead _ _ | .handleReadError _ | .handleWrite _ _ _ | .spurious | .destructor => false

/-- What comes from outside, and what it makes there to do. -/
def Act.credit : Act → Nat
  | .handleRead _ chunk => byteWork * chunk.length + 1
  | .spurious | .destructor => wakeWork
  | .handleReadError _ | .handleWrite _ _ _ | .pass | .post | .worker => 0

theorem credit_of_internal {a : Act} (ha : a.internal = true) : a.credit = 0 := by
  cases a with
  | pass | post | worker => rfl
  | handleRead | handleReadError | handleWrite | spurious | destructor => cases ha

/-- The process dies. -/
theorem work_death {fate : Fate} (halive : m.fate = .alive) (hdead : fate ≠ .alive) :
    Machine.work { m with fate := fate } < m.work := by
  show _ + fate.work < _ + m.fate.work
  rw [Fate.work_dead hdead, halive]
  exact Nat.lt_succ_self _

/-- The worker moves. -/
theorem work_worker {logic : LogicSystem NodeRef CallBackArgs} {conns : Nat → Conn}
    (hstep : m.logicStep .worker = some logic) :
    Machine.work { m with conns := conns, logic := logic } < m.work := by
  have hstep : m.logic.workerStep (findCallBack m.heap) = some logic := hstep
  have hless : logic.work 0 < m.logic.work 0 := LogicSystem.workerStep_work (Nat.zero_le 3) hstep
  show m.net.work + (logic.producers 0).work + logic.work 0 + m.fate.work < _
  rw [LogicSystem.workerStep_producers hstep]
  unfold work
  omega

/-- In a callback it is the `Send` that may fail. -/
theorem workerStep_work (halive : m.fate = .alive) (h : m.workerStep f = some m') :
    m'.work < m.work := by
  unfold workerStep at h
  split at h
  · dsimp only at h
    split at h
    · obtain ⟨logic, hstep, rfl⟩ := Option.map_eq_some_iff.mp h
      exact work_worker hstep
    · cases h
      exact work_death halive nofun
    · cases h
      exact work_death halive nofun
    · cases h
      exact work_death halive nofun
  · obtain ⟨logic, hstep, rfl⟩ := Option.map_eq_some_iff.mp h
    exact work_worker hstep

/-- A pass, with the call of `PostMsgtoQueue` in it. -/
theorem work_turn {uuid n : Nat} {data : Bytes} {copyLen : Int} {turn : Turn Short}
    {logic : LogicSystem NodeRef CallBackArgs} {heap : Heap Short} {conns : Nat → Conn}
    (hpos : m.net = .inHandleRead uuid data copyLen n) (hidle : m.logic.producers 0 = .idle)
    (hleft : 0 < n) (hless : ∀ l, turn.2 = .again l → l.bytesTransferred < n)
    (hpost : m.postTurn uuid turn = some logic) :
    Machine.work
      { heap := heap, conns := conns, net := nextPos uuid data turn, logic := logic,
        fate := m.fateAfter turn } < m.work := by
  have hnext : (nextPos uuid data turn).work + postWork < byteWork * n + 1 :=
    nextPos_work hleft hless
  have hfate : (m.fateAfter turn).work ≤ m.fate.work := by
    unfold fateAfter
    split
    · exact Nat.zero_le _
    · exact Nat.zero_le _
    · exact Nat.le_refl _
  obtain ⟨hwork, hcall⟩ :
      logic.work 0 = m.logic.work 0 ∧ (logic.producers 0).work ≤ postWork := by
    unfold postTurn at hpost
    split at hpost
    · cases hpost
      refine ⟨rfl, ?_⟩
      rw [hidle]
      exact Nat.zero_le _
    · obtain ⟨hwork, hcall, _⟩ := LogicSystem.post_work (c := 0) hpost
      exact ⟨hwork, Nat.le_of_eq hcall⟩
  have hown : m.work = byteWork * n + 1 + m.logic.work 0 + m.fate.work := by
    unfold work
    rw [hpos, hidle]
    rfl
  show (nextPos uuid data turn).work + (logic.producers 0).work + logic.work 0 +
    (m.fateAfter turn).work < _
  rw [hown, hwork]
  omega

/-- **Every step pays**: a thread's own step with one of what is to be done, and the others with
what they bring. -/
theorem step_pays {a : Act} (hi : Inv f m) (hneg : m.Unbroken) (hstep : m.step f a = some m') :
    (m'.work + if a.internal then 1 else 0) ≤ m.work + a.credit := by
  obtain ⟨hspec, halive⟩ := step_cases hstep
  have hqueue : ∀ {logic : LogicSystem NodeRef CallBackArgs} {k c : Nat},
      (logic.producers 0).work + logic.work 0 + k ≤
        (m.logic.producers 0).work + m.logic.work 0 + c →
      Machine.work { m with logic := logic } + k ≤ m.work + c := by
    intro logic k c hle
    show m.net.work + (logic.producers 0).work + logic.work 0 + m.fate.work + k ≤ _
    unfold work
    omega
  cases hspec with
  | @read uuid chunk free =>
    have hnet : m.net = .idle := networkFree_idle free
    show byteWork * chunk.length + 1 + (m.logic.producers 0).work + m.logic.work 0 +
      m.fate.work ≤ m.work + (byteWork * chunk.length + 1)
    unfold work
    rw [hnet]
    simp only [NetPos.work]
    omega
  | readError | write => exact Nat.le_refl _
  | @turn uuid n data copyLen turn logic pos idle left body posted =>
    refine work_turn pos idle left (fun l hagain => ?_) posted
    obtain ⟨done, _, hstage⟩ := hi.receives.parsed uuid
    rw [pos, NetPos.at_self] at hstage
    exact hstage.again (hneg uuid) body hagain
  | passEnd pos =>
    show 0 + _ + _ + _ + 1 ≤ _
    unfold work
    rw [pos]
    simp only [NetPos.work]
    omega
  | replied pos sent step => exact work_worker step
  | @sendFailed n uuid msg d fate pos fails =>
    have hstep' : m.workerStep f = some { m with fate := fate } := by
      unfold Machine.step at hstep
      rwa [if_pos halive] at hstep
    exact workerStep_work halive hstep'
  | @queue a b logic act out step =>
    cases a with
    | post =>
      cases act
      have hprod : m.logic.producerStep .notifyUnderLock 0 = some logic := step
      have hless := (LogicSystem.producerStep_work (c := 0) hprod).1
      exact hqueue (k := 1) (c := 0) (by omega)
    | worker =>
      cases act
      exact work_worker step
    | spurious =>
      cases act
      obtain ⟨hle, hprod⟩ := LogicSystem.step_wakes (c := 0) (Or.inl rfl) step
      exact hqueue (k := 0) (c := wakeWork) (by rw [hprod]; omega)
    | destructor =>
      cases act
      obtain ⟨hle, hprod⟩ := LogicSystem.step_wakes (c := 0) (Or.inr rfl) step
      exact hqueue (k := 0) (c := wakeWork) (by rw [hprod]; omega)
    | handleRead | handleReadError | pass | handleWrite => cases act

/-! ### A machine at rest -/

/-- A step of the machine is a step of the logic queue, or leaves the queue alone; and it is the
network thread that posts. -/
theorem step_logic {a : Act} (h : step f m a = some m') :
    m'.logic = m.logic ∨ ∃ b, m.logicStep b = some m'.logic ∧ (∀ i n, b = .post i n → i = 0) ∧
      (b = .destructor → a = .destructor) := by
  obtain ⟨hspec, _⟩ := step_cases h
  cases hspec with
  | read | readError | passEnd | write | sendFailed => exact Or.inl rfl
  | @turn uuid n data copyLen turn logic pos idle left body posted =>
    unfold postTurn at posted
    split at posted
    · cases posted
      exact Or.inl rfl
    · refine Or.inr ⟨_, posted, fun i n heq => ?_, fun heq => ?_⟩
      · cases heq
        rfl
      · cases heq
  | replied pos sent step =>
    exact Or.inr ⟨_, step, fun i n heq => (by cases heq), fun heq => (by cases heq)⟩
  | @queue a b logic act out step =>
    refine Or.inr ⟨_, step, fun i n heq => ?_, fun heq => ?_⟩
    · subst heq
      cases a <;> cases act
    · subst heq
      cases a <;> cases act
      rfl

/-- Only the destructor's own steps move it. -/
theorem step_destructor {a : Act} (ha : a ≠ .destructor) (h : step f m a = some m') :
    m'.logic.destructor = m.logic.destructor := by
  rcases step_logic h with heq | ⟨b, hb, _, hdest⟩
  · rw [heq]
  · exact LogicSystem.step_destructor (fun heq => ha (hdest heq)) hb

/-- The threads bring nothing in by themselves. -/
theorem internal_received {a : Act} (ha : a.internal = true) (h : step f m a = some m') (u : Nat) :
    (m'.conns u).received = (m.conns u).received := by
  obtain ⟨hspec, _⟩ := step_cases h
  cases hspec with
  | read | readError | write => cases ha
  | passEnd | sendFailed | queue => rfl
  | turn | replied => exact field_update Conn.received (by rfl) u

/-- A worker that cannot go on is in no callback. -/
theorem stuck_worker (h : m.workerStep f = none) : m.logicStep .worker = none := by
  unfold workerStep at h
  split at h
  · dsimp only at h
    split at h
    · exact Option.map_eq_none_iff.mp h
    · cases h
    · cases h
    · cases h
  · exact Option.map_eq_none_iff.mp h

/-- Nor is a network thread in `HandleRead` that cannot go on with it. -/
theorem stuck_pass (h : m.pass = none) (hidle : m.logic.producers 0 = .idle) : m.net = .idle := by
  cases hnet : m.net with
  | idle => rfl
  | inHandleRead uuid data copyLen n =>
    unfold pass at h
    rw [hnet, hidle] at h
    dsimp only at h
    split at h
    · have hlogic := Option.map_eq_none_iff.mp h
      split at hlogic
      · cases hlogic
      · simp [logicStep, LogicSystem.step, hidle] at hlogic
    · cases h

/-- What holds of a logic queue that no other thread posts to. -/
structure Orderly (s : LogicSystem NodeRef CallBackArgs) : Prop where
  owned : Lib.Owned s.mutex s.holds
  serves : s.Serves
  alone : ∀ i, i ≠ 0 → s.producers i = .idle

theorem init_orderly : Orderly .init := ⟨Lib.Owned.free, LogicSystem.init_serves, fun _ _ => rfl⟩

theorem step_orderly {a : Act} (ho : Orderly m.logic) (h : step f m a = some m') :
    Orderly m'.logic := by
  rcases step_logic h with heq | ⟨b, hb, hpost, _⟩
  · rw [heq]
    exact ho
  · refine ⟨LogicSystem.step_owned ho.owned hb, LogicSystem.step_serves ho.serves hb,
      fun i hi => ?_⟩
    by_cases hcall : ∃ j n, b = .post j n
    · obtain ⟨j, n, rfl⟩ := hcall
      obtain rfl : j = 0 := hpost j n rfl
      rw [(LogicSystem.post_work (c := 0) hb).2.2 i hi]
      exact ho.alone i hi
    · exact LogicSystem.step_idle hb (fun j n heq => hcall ⟨j, n, heq⟩) (ho.alone i hi)

/-- **When neither thread can go on, both rest**: neither is left blocked on `_mutex`. -/
theorem Orderly.rests (ho : Orderly m.logic) (hinv : m.logic.Inv (findCallBack m.heap))
    (hlives : m.logic.destructor = .alive) (hworker : m.logicStep .worker = none)
    (hpost : m.logicStep (.producer 0) = none) :
    m.logic.worker = .waiting ∧ ∀ i, m.logic.producers i = .idle := by
  have hproducers : ∀ i, m.logic.producerStep .notifyUnderLock i = none := by
    intro i
    by_cases hi : i = 0
    · subst hi
      exact hpost
    · unfold LogicSystem.producerStep
      rw [ho.alone i hi]
  obtain ⟨hrest, hidle⟩ := LogicSystem.quiet_rests hinv ho.owned hworker hproducers
  refine ⟨hrest.resolve_right fun hexit => ?_, hidle⟩
  refine ho.serves.told (ho.serves.drains ?_) hlives
  rw [hexit]
  trivial

/-- Then every message that was framed has been dealt with, and every request answered. -/
theorem Inv.rest_sends (hi : Inv f m) (hnet : m.net = .idle)
    (hidle : ∀ i, m.logic.producers i = .idle) (hwait : m.logic.worker = .waiting) (uuid : Nat) :
    (m.conns uuid).sends = ((m.framed uuid).filter (·.1 = msgHelloWord)).map f := by
  have hd := hi.dispatches
  have hempty : m.logic.msgQueue = [] := by
    by_contra hne
    obtain ⟨i, hnotify⟩ := hd.inv.wake hwait hne
    simp only [LogicSystem.willNotify, hidle i] at hnotify
  have hhandled : m.logic.handled = m.logic.posted := by
    have hbooked : m.logic.posted = m.logic.finished ++ _ := hd.booked
    rw [hbooked, hempty]
    unfold LogicSystem.handled
    rw [hwait]
  have hposted : m.logic.handedOver 0 = m.logic.posted := by
    unfold LogicSystem.handedOver LogicSystem.pendingPost
    rw [hidle 0, List.append_nil]
  obtain ⟨done, hread, hstage⟩ := hi.receives.parsed uuid
  rw [hnet] at hstage
  cases hstage with
  | waiting parse ready =>
    rw [hd.sent uuid, hhandled]
    refine repliesTo_eq ?_
    rw [← hposted, hread, ← parse]
    rfl

/-- A pass on a stream without negative lengths is no danger. -/
theorem Inv.fate_turn (hi : Inv f m) (hneg : m.Unbroken) {uuid n : Nat} {data : Bytes}
    {copyLen : Int} {turn : Turn Short} (hpos : m.net = .inHandleRead uuid data copyLen n)
    (hturn : loopBody receiver data (m.loopAt uuid copyLen n) = turn) :
    m.fateAfter turn = m.fate := by
  obtain ⟨done, _, hstage⟩ := hi.receives.parsed uuid
  rw [hpos, NetPos.at_self] at hstage
  cases hstage with
  | reading parse coupled remains more reads =>
    have hspec : TurnSpec receiver ref data _
        (loopBody receiver data (m.loopAt uuid copyLen n)) :=
      loopBody_spec receiver_reads coupled remains
    rw [hturn] at hspec
    cases hspec with
    | wait | reject | last | more => rfl
    | broken next =>
      rw [Lib.Format.parse_broken next] at parse
      refine absurd ?_ (hneg uuid)
      rw [parse]

end Machine

namespace CServer

variable {J : JsonCpp} {c c' : CServer}

def Act.internal : Act → Bool
  | .handleAccept _ => false
  | .run a => a.internal

/-- A connection makes nothing to do but a read. -/
def Act.credit : Act → Nat
  | .handleAccept _ => 0
  | .run a => a.credit

theorem step_alive {a : Act} (h : step J c a = some c') : c.machine.fate = .alive := by
  have hrun : ∀ {b : Machine.Act}, c.runStep J b = some c' → c.machine.fate = .alive := by
    intro b hb
    obtain ⟨m, hm, _⟩ := Option.map_eq_some_iff.mp hb
    exact (Machine.step_cases hm).2
  cases a with
  | handleAccept error =>
    simp only [step] at h
    split at h
    · rename_i hguard
      exact hguard.1
    · cases h
  | run a =>
    cases a with
    | worker =>
      simp only [step] at h
      split at h
      · rename_i hguard
        exact hguard.1
      · exact hrun h
    | handleRead | handleReadError | pass | handleWrite | post | spurious | destructor =>
      simp only [step] at h
      split at h
      · exact hrun h
      · cases h

theorem foldl_fate (es : List (Nat × Effect)) (c : CServer) :
    (es.foldl perform c).machine.fate = c.machine.fate := by
  induction es generalizing c with
  | nil => rfl
  | cons e es ih =>
    refine (ih _).trans ?_
    obtain ⟨uuid, e⟩ := e
    cases e <;> rfl

/-- What the handlers do to the registry is no matter of life and death. -/
theorem ran_fate {a : Machine.Act} {m : Machine}
    (replies : a = .worker → c.machine.callBackThrows J = false)
    (hstep : c.machine.step (reply J) a = some m) (h : step J c (.run a) = some c') :
    c'.machine.fate = m.fate := by
  have hrun : ∀ {b : Machine.Act}, c.machine.step (reply J) b = some m →
      c.runStep J b = some c' → c'.machine.fate = m.fate := by
    intro b hb h
    rw [runStep, hb] at h
    cases h
    exact foldl_fate _ _
  cases a with
  | worker =>
    simp only [step] at h
    split at h
    · rename_i hguard
      rw [replies rfl] at hguard
      cases hguard.2
    · exact hrun hstep h
  | handleRead | handleReadError | pass | handleWrite | post | spurious | destructor =>
    simp only [step] at h
    split at h
    · exact hrun hstep h
    · cases h

/-- **Every step pays.** -/
theorem step_pays {a : Act} (hi : Inv J c) (hneg : c.machine.Unbroken)
    (h : step J c a = some c') :
    (c'.machine.work + if a.internal then 1 else 0) ≤ c.machine.work + a.credit := by
  have halive := step_alive h
  cases step_cases h with
  | acceptFailed | accepted => exact Nat.le_refl _
  | threw throws => exact Machine.work_death halive nofun
  | @ran a m _ known replies hstep performed =>
    have hpays := Machine.step_pays hi.machine hneg hstep
    have hsame : c'.machine.work = m.work := by
      unfold Machine.work
      rw [performed.net, performed.logic, ran_fate replies hstep h]
    rw [hsame]
    exact hpays

theorem unbroken_before {a : Act} (h : step J c a = some c') (hneg : c'.machine.Unbroken) :
    c.machine.Unbroken := by
  intro u
  obtain ⟨b, hb⟩ := step_received h u
  have hu := hneg u
  rw [show (c'.machine.conns u).received = (c.conns u).received ++ b from hb] at hu
  exact tail_ne_broken_of_append hu

/-- What is to be done, as a potential. -/
def potential (J : JsonCpp) : (system J).Potential where
  good c := c.machine.Unbroken
  value c := c.machine.work
  internal := Act.internal
  credit := Act.credit
  before := unbroken_before
  uncredited := by
    intro a ha
    cases a with
    | handleAccept error => cases ha
    | run a => exact Machine.credit_of_internal ha
  pays hr hneg h := step_pays (reachable_inv hr hneg) hneg h

/-! ## Rest -/

/-- The logic queue is the machine's. -/
theorem reachable_orderly (h : (system J).Reachable c) : Machine.Orderly c.machine.logic := by
  refine h.invariant (I := fun c => Machine.Orderly c.machine.logic) Machine.init_orderly
    fun {c c' a} ho hs => ?_
  have hs : step J c a = some c' := hs
  cases step_cases hs with
  | acceptFailed | accepted | threw => exact ho
  | ran known replies hrun performed =>
    rw [performed.logic]
    exact Machine.step_orderly ho hrun

/-- Neither thread of the server can take a step. -/
def Quiet (J : JsonCpp) (c : CServer) : Prop := ∀ a, a.internal = true → step J c a = none

/-- The network thread is in `io_context::run`, and the worker waits. -/
structure Resting (c : CServer) : Prop where
  net : c.machine.net = .idle
  idle : ∀ i, c.machine.logic.producers i = .idle
  waiting : c.machine.logic.worker = .waiting

/-- When the worker cannot go on, it is not in a callback. -/
theorem Quiet.worker (hquiet : c.Quiet J) (halive : c.machine.fate = .alive) :
    c.machine.logicStep .worker = none := by
  have hstep : step J c (.run .worker) = none := hquiet (.run .worker) rfl
  simp only [step] at hstep
  split at hstep
  · cases hstep
  · have hnone : c.machine.step (reply J) .worker = none := Option.map_eq_none_iff.mp hstep
    unfold Machine.step at hnone
    rw [if_pos halive] at hnone
    exact Machine.stuck_worker hnone

/-- Nor can the network thread, in `PostMsgtoQueue` or with the next pass. -/
theorem Quiet.post (hquiet : c.Quiet J) (halive : c.machine.fate = .alive) :
    c.machine.logicStep (.producer 0) = none := by
  have hstep : step J c (.run .post) = none := hquiet (.run .post) rfl
  simp only [step] at hstep
  rw [if_pos fun _ hmem => by cases hmem] at hstep
  have hnone : c.machine.step (reply J) .post = none := Option.map_eq_none_iff.mp hstep
  unfold Machine.step at hnone
  rw [if_pos halive] at hnone
  exact Option.map_eq_none_iff.mp hnone

theorem Quiet.pass (hquiet : c.Quiet J) (halive : c.machine.fate = .alive)
    (hidle : c.machine.logic.producers 0 = .idle) : c.machine.net = .idle := by
  have hstep : step J c (.run .pass) = none := hquiet (.run .pass) rfl
  simp only [step] at hstep
  rw [if_pos fun _ hmem => by cases hmem] at hstep
  have hnone : c.machine.step (reply J) .pass = none := Option.map_eq_none_iff.mp hstep
  unfold Machine.step at hnone
  rw [if_pos halive] at hnone
  exact Machine.stuck_pass hnone hidle

/-- **Quiet is rest**: neither thread is left blocked on `_mutex`. -/
theorem quiet_resting (h : (system J).Reachable c) (hneg : c.machine.Unbroken)
    (halive : c.machine.fate = .alive) (hlives : c.machine.logic.destructor = .alive)
    (hquiet : c.Quiet J) : c.Resting := by
  obtain ⟨hwait, hidle⟩ := (reachable_orderly h).rests
    (reachable_inv h hneg).machine.dispatches.inv hlives (hquiet.worker halive)
    (hquiet.post halive)
  exact ⟨hquiet.pass halive (hidle 0), hidle, hwait⟩

/-- At rest every message that was framed has been dealt with, and every request answered. -/
theorem Resting.sends (hrest : c.Resting) (hi : Inv J c) (uuid : Nat) :
    (c.conns uuid).sends =
      ((c.machine.framed uuid).filter (·.1 = msgHelloWord)).map (reply J) :=
  hi.machine.rest_sends hrest.net hrest.idle hrest.waiting uuid

/-! ## Dying -/

/-- The callback does not survive the message: it throws, or its reply fits in no node. -/
def Deadly (J : JsonCpp) (msg : Short × Bytes) : Prop :=
  ∀ answer, replyOf J msg = some answer → 32763 < answer.1.length % 65536

/-- The message of a callback has been framed. -/
theorem Inv.framed_running (hi : Inv J c) {n : NodeRef} {uuid : Nat} {msg : Short × Bytes}
    {d : Bool} (hw : c.machine.logic.worker = .running n (uuid, msg) d) :
    msg ∈ c.machine.framed uuid ∧ msg.1 = msgHelloWord := by
  have hd := hi.machine.dispatches
  have hfound := hd.inv.inCallBack n _ d hw
  have hposted : n ∈ c.machine.logic.posted := by
    have hfront := hd.inv.front
    unfold LogicSystem.picked at hfront
    rw [hw] at hfront
    rw [show c.machine.logic.posted = c.machine.logic.finished ++ c.machine.logic.msgQueue from
      hd.booked]
    exact List.mem_append_right _ (List.mem_of_head? hfront)
  obtain ⟨done, hread, hdone⟩ := hi.machine.handed_prefix n.1
  have hnode : n.2 ∈ nodesOf (c.machine.logic.handedOver 0) n.1 :=
    List.mem_map.mpr ⟨n, List.mem_filter.mpr ⟨List.mem_append_left _ hposted, by simp⟩, rfl⟩
  have hmsg : messageAt c.machine.heap n.2 ∈ done.map some := by
    rw [← hread]
    exact List.mem_map_of_mem hnode
  obtain ⟨msg', hmem, hat⟩ := List.mem_map.mp hmsg
  rw [Machine.findCallBack_of_message hat.symm] at hfound
  split at hfound
  · rename_i hhello
    cases hfound
    exact ⟨hdone.subset hmem, hhello⟩
  · cases hfound

/-- **The process dies of a message**: of one that was framed and that the callback does not
survive. -/
theorem step_deadly {a : Act} (hi : Inv J c) (hneg : c.machine.Unbroken)
    (h : step J c a = some c') (hdead : c'.machine.fate ≠ .alive) :
    ∃ uuid, ∃ msg ∈ c.machine.framed uuid, msg.1 = msgHelloWord ∧ Deadly J msg := by
  have halive := step_alive h
  cases step_cases h with
  | acceptFailed | accepted => exact absurd halive hdead
  | threw throws =>
    unfold Machine.callBackThrows at throws
    split at throws
    · rename_i n uuid msg d hw
      obtain ⟨hmem, hhello⟩ := hi.framed_running hw
      refine ⟨uuid, msg, hmem, hhello, fun answer hanswer => ?_⟩
      rw [hanswer] at throws
      cases throws
    · cases throws
  | @ran a m _ known replies hstep performed =>
    rw [ran_fate replies hstep h] at hdead
    obtain ⟨hspec, _⟩ := Machine.step_cases hstep
    cases hspec with
    | read | readError | passEnd | write | replied | queue => exact absurd halive hdead
    | turn pos idle left body posted =>
      refine absurd ?_ hdead
      exact (hi.machine.fate_turn hneg pos body).trans halive
    | @sendFailed n uuid msg d fate pos fails =>
      obtain ⟨hmem, hhello⟩ := hi.framed_running pos
      refine ⟨uuid, msg, hmem, hhello, fun answer hanswer => ?_⟩
      have hreply : reply J msg = answer := by
        unfold reply
        rw [hanswer]
        rfl
      by_contra hfits
      obtain ⟨q', hq'⟩ := sendString_returned_iff.mpr (Or.inr (Nat.not_lt.mp hfits))
      rw [hreply] at fails
      exact fails q' hq'

theorem reachable_deadly (h : (system J).Reachable c) (hneg : c.machine.Unbroken)
    (hdead : c.machine.fate ≠ .alive) :
    ∃ uuid, ∃ msg ∈ c.machine.framed uuid, msg.1 = msgHelloWord ∧ Deadly J msg := by
  cases h with
  | init => exact absurd rfl hdead
  | @step c₀ _ a hr hstep =>
    have hbefore : c₀.machine.Unbroken := unbroken_before hstep hneg
    obtain ⟨uuid, msg, hmem, hrest⟩ := step_deadly (reachable_inv hr hbefore) hbefore hstep hdead
    obtain ⟨b, hb⟩ := step_received hstep uuid
    refine ⟨uuid, msg, ?_, hrest⟩
    unfold Machine.framed
    rw [show (c.machine.conns uuid).received = _ from hb]
    exact Lib.Format.mem_msgs_append hmem

/-! ## Every request -/

theorem step_destructor {a : Act} (ha : a ≠ .run .destructor) (h : step J c a = some c') :
    c'.machine.logic.destructor = c.machine.logic.destructor := by
  cases step_cases h with
  | acceptFailed | accepted | threw => rfl
  | ran known replies hstep performed =>
    rw [performed.logic]
    exact Machine.step_destructor (fun heq => ha (by rw [heq])) hstep

theorem internal_received {a : Act} (ha : a.internal = true) (h : step J c a = some c') (u : Nat) :
    (c'.conns u).received = (c.conns u).received := by
  cases step_cases h with
  | acceptFailed | accepted => cases ha
  | threw => rfl
  | ran known replies hstep performed =>
    refine (performed.same Conn.received (fun _ => rfl) u).trans ?_
    exact Machine.internal_received ha hstep u

theorem internal_frame {a : Act} (ha : a.internal = true) (h : step J c a = some c') :
    (∀ u, (c'.conns u).received = (c.conns u).received) ∧
      c'.machine.logic.destructor = c.machine.logic.destructor := by
  refine ⟨internal_received ha h, step_destructor ?_ h⟩
  rintro rfl
  cases ha

theorem internal_run {as : List Act} (has : ∀ a ∈ as, a.internal = true)
    (hrun : (system J).run c as = some c') :
    (∀ u, (c'.conns u).received = (c.conns u).received) ∧
      c'.machine.logic.destructor = c.machine.logic.destructor := by
  refine Lib.System.run_keeps (A := fun a => a.internal = true)
    (G := fun d => (∀ u, (d.conns u).received = (c.conns u).received) ∧
      d.machine.logic.destructor = c.machine.logic.destructor)
    (fun ha hG hs => ?_) has hrun ⟨fun _ => rfl, rfl⟩
  obtain ⟨hrecv, hdest⟩ := internal_frame ha hs
  exact ⟨fun u => (hrecv u).trans (hG.1 u), hdest.trans hG.2⟩

theorem unbroken_of_received (hneg : c.machine.Unbroken)
    (hrecv : ∀ u, (c'.conns u).received = (c.conns u).received) : c'.machine.Unbroken := by
  intro u
  rw [show (c'.machine.conns u).received = _ from hrecv u]
  exact hneg u

/-- **The single-threaded server answers, or dies of a message.** Let nothing more come in, at any
point of any run, on streams without negative lengths and while the singleton lives. Whatever the
order of their steps, the two threads come to rest after at most `work` of them. At rest `Send`
has been called, for every session, with the replies to all the `MSG_HELLO_WORD` messages that are
framed in what it has received, in order, and with nothing else; or the process is dead, and among
those messages is one the callback does not survive. -/
theorem requests_answered (h : (system J).Reachable c) (hneg : c.machine.Unbroken)
    (hlives : c.machine.logic.destructor = .alive) :
    (∃ as c', (∀ a ∈ as, a.internal = true) ∧ (system J).run c as = some c' ∧ c'.Quiet J) ∧
    ∀ as c', (∀ a ∈ as, a.internal = true) → (system J).run c as = some c' →
      as.length ≤ c.machine.work ∧
      (c'.Quiet J → (∀ uuid, (c'.conns uuid).sends =
          ((c.machine.framed uuid).filter (·.1 = msgHelloWord)).map (reply J)) ∨
        (c'.machine.fate ≠ .alive ∧
          ∃ uuid, ∃ msg ∈ c.machine.framed uuid, msg.1 = msgHelloWord ∧ Deadly J msg)) := by
  constructor
  · obtain ⟨as, c', has, hrun, _, hquiet⟩ := (potential J).exists_quiet
      (fun ha hgood hs => unbroken_of_received hgood (internal_frame ha hs).1) h hneg
    exact ⟨as, c', has, hrun, hquiet⟩
  · intro as c' has hrun
    obtain ⟨hrecv, hdest⟩ := internal_run has hrun
    have hneg' : c'.machine.Unbroken := unbroken_of_received hneg hrecv
    have hreach := h.run hrun
    have hframed : ∀ uuid, c'.machine.framed uuid = c.machine.framed uuid := by
      intro uuid
      unfold Machine.framed
      rw [show (c'.machine.conns uuid).received = _ from hrecv uuid]
    refine ⟨(potential J).run_length h hrun hneg' has, fun hquiet => ?_⟩
    by_cases halive : c'.machine.fate = .alive
    · have hrest := quiet_resting hreach hneg' halive (hdest.trans hlives) hquiet
      refine Or.inl fun uuid => ?_
      rw [hrest.sends (reachable_inv hreach hneg') uuid, hframed]
    · obtain ⟨uuid, msg, hmem, hdeadly⟩ := reachable_deadly hreach hneg' halive
      rw [hframed] at hmem
      exact Or.inr ⟨halive, uuid, msg, hmem, hdeadly⟩

/-- `MSG_HELLO_WORD`, with the data `hi`. -/
def hello : Short × Bytes := (1001, asBytes "\x7b\"id\":1001,\"data\":\"hi\"\x7d")

/-- A request has just been read. -/
def justAsked : List Act :=
  [.handleAccept false, .run (.handleRead 0 ([3, 0xe9, 0, 23] ++ hello.2))]

theorem requests_answered_justAsked : ∃ c, (system replyJsonCpp).run init justAsked = some c ∧
    (c.conns 0).sends = [] ∧ ∃ as c', (system replyJsonCpp).run c as = some c' ∧
      as.length ≤ 659 ∧ (c'.conns 0).sends = [reply replyJsonCpp hello] := by
  obtain ⟨c, hc, hnone, hlives, hwork, h₀, hrest⟩ : ∃ c,
      (system replyJsonCpp).run init justAsked = some c ∧ (c.conns 0).sends = [] ∧
        c.machine.logic.destructor = .alive ∧ c.machine.work = 659 ∧
        (c.conns 0).received = [3, 0xe9, 0, 23] ++ hello.2 ∧
        ∀ u, (c.conns (u + 1)).received = [] := ⟨_, rfl, rfl, rfl, rfl, rfl, fun _ => rfl⟩
  have hparse : ref.parse ([3, 0xe9, 0, 23] ++ hello.2) = ⟨[hello], .pending []⟩ := by decide
  have hframed : ∀ u, ref.parse (c.conns u).received =
      ⟨if u = 0 then [hello] else [], .pending []⟩ := by
    intro u
    cases u with
    | zero => rw [h₀, hparse, if_pos rfl]
    | succ u => rw [hrest, Lib.Format.parse_nil, if_neg (Nat.succ_ne_zero u)]
  have hneg : c.machine.Unbroken := by
    intro u
    rw [show ref.parse (c.machine.conns u).received = _ from hframed u]
    nofun
  obtain ⟨⟨as, c', has, hrun, hquiet⟩, hall⟩ := requests_answered (.of_run hc) hneg hlives
  obtain ⟨hlen, hends⟩ := hall as c' has hrun
  refine ⟨c, hc, hnone, as, c', hrun, hwork ▸ hlen, ?_⟩
  rcases hends hquiet with hsends | ⟨_, u, msg, hmem, _, hdeadly⟩
  · rw [hsends 0, Machine.framed, show ref.parse (c.machine.conns 0).received = _ from hframed 0]
    rfl
  · -- the reply to `hi` is a short one
    rw [Machine.framed, show ref.parse (c.machine.conns u).received = _ from hframed u] at hmem
    obtain rfl : msg = hello := by
      split at hmem
      · exact List.mem_singleton.mp hmem
      · cases hmem
    obtain ⟨answer, hanswer, hshort⟩ : ∃ answer, replyOf replyJsonCpp hello = some answer ∧
        answer.1.length % 65536 ≤ 32763 := ⟨_, rfl, by decide⟩
    exact absurd (hdeadly answer hanswer) (Nat.not_lt.mpr hshort)

end CServer
end ServerV3
end AsyncEchoServer
