import AsyncEchoServer.Logic.HelloWorld

/-!
# `Logic/Process.lean` — the logic system with its real callback

`LogicSystem` takes it that a callback comes back. Here it is `HelloWorldCallBack`, and the
process has a fate: an exception that leaves the callback leaves `DealMsg` and the thread's entry
function too, which is `std::terminate`.

As long as the process lives it is the logic system (`toLogicSystem`), so the results about the
queue and its threads hold of it; `helloWorld_iff` says which requests it lives through. That
depends on the session's send queue, which is not the worker's alone: between the call of the
callback and its `Send` a write may complete. So the answer is about the state in which the worker
comes to `Send`, whatever the other threads have done before, and whatever they do until the pop.
-/

set_option autoImplicit false

namespace AsyncEchoServer

inductive Fate where
  | alive
  | terminated
  /-- the behaviour is undefined from here on -/
  | undefined
  deriving Repr, DecidableEq

structure Process where
  logic : LogicSystem LogicNode CallBackArgs
  /-- the send queue of each session -/
  sendQueues : Nat → SendQueue SendNode
  fate : Fate

namespace Process

def init : Process where
  logic := .init
  sendQueues := fun _ => .fresh
  fate := .alive

/-- The next step of the worker; in a callback, the callback's. -/
def workerStep (J : JsonCpp) (v : Variant) (p : Process) : Option Process :=
  match p.logic.worker with
  | .running _ (session, _, msgData) _ =>
    match helloWorldCallBack J v msgData (p.sendQueues session) with
    | some (.returned, q) =>
      (p.logic.workerStep LogicNode.findCallBack).map fun l =>
        { p with logic := l, sendQueues := Function.update p.sendQueues session q }
    -- nothing catches
    | some (.threw, _) => some { p with fate := .terminated }
    | some (.undefined, _) | none => some { p with fate := .undefined }
  | _ => (p.logic.workerStep LogicNode.findCallBack).map fun l => { p with logic := l }

inductive Act where
  | logic (a : LogicSystem.Act LogicNode)
  /-- a write of the session's completes -/
  | handleWrite (session i : Nat) (error : Bool)

def step (J : JsonCpp) (v : Variant) (p : Process) (a : Act) : Option Process :=
  if p.fate = .alive then
    match a with
    | .logic .worker => p.workerStep J v
    | .logic a =>
      (LogicSystem.step v LogicNode.findCallBack p.logic a).map fun l => { p with logic := l }
    | .handleWrite session i error =>
      ((p.sendQueues session).step (.handleWrite i error)).map fun q =>
        { p with sendQueues := Function.update p.sendQueues session q }
  else none

def system (J : JsonCpp) (v : Variant) : Lib.System Process Act where
  init := init
  step := step J v

variable {J : JsonCpp} {v : Variant} {p p' : Process}

/-- What a step of the worker is to the logic system. -/
theorem workerStep_logic (h : p.workerStep J v = some p') :
    p'.logic = p.logic ∨ p.logic.workerStep LogicNode.findCallBack = some p'.logic := by
  unfold workerStep at h
  split at h
  · split at h
    · obtain ⟨l, hl, rfl⟩ := Option.map_eq_some_iff.mp h
      exact Or.inr hl
    all_goals
      cases h
      exact Or.inl rfl
  · obtain ⟨l, hl, rfl⟩ := Option.map_eq_some_iff.mp h
    exact Or.inr hl

/-- **The process is the logic system.** -/
def toLogicSystem :
    Lib.System.Simulation (system J v) (LogicSystem.system v LogicNode.findCallBack) where
  rel p l := l = p.logic
  init := rfl
  step := by
    rintro p p' l a _ _ rfl hstep
    have h : p.step J v a = some p' := hstep
    -- no step, or the same one
    have hnone : p'.logic = p.logic → ∃ bs t',
        (LogicSystem.system v LogicNode.findCallBack).run p.logic bs = some t' ∧
          t' = p'.logic := fun heq => ⟨[], p.logic, rfl, heq.symm⟩
    have hone : ∀ b, LogicSystem.step v LogicNode.findCallBack p.logic b = some p'.logic →
        ∃ bs t', (LogicSystem.system v LogicNode.findCallBack).run p.logic bs = some t' ∧
          t' = p'.logic :=
      fun b hb => ⟨[b], _, Lib.System.run_one hb, rfl⟩
    unfold step at h
    split at h
    · split at h
      · rcases workerStep_logic h with heq | hw
        · exact hnone heq
        · exact hone .worker hw
      · obtain ⟨l, hl, rfl⟩ := Option.map_eq_some_iff.mp h
        exact hone _ hl
      · obtain ⟨q, _, rfl⟩ := Option.map_eq_some_iff.mp h
        exact hnone rfl
    · cases h

/-- Up to the last state it has, a process has lost no message and answered none twice. -/
theorem reachable_booked (h : (system J v).Reachable p) :
    p.logic.posted = p.logic.finished ++ p.logic.msgQueue ∧
      p.logic.calls = p.logic.finished.filterMap LogicNode.findCallBack ++
        p.logic.inCall LogicNode.findCallBack := by
  obtain ⟨l, hl, hrel⟩ := toLogicSystem.reachable h
  have hlogic : l = p.logic := hrel
  rw [← hlogic]
  exact ⟨LogicSystem.posted_eq hl, (LogicSystem.reachable_inv hl).called⟩

/-! ## One request -/

/-- The worker is at the front node: before its callback, with the process alive. -/
structure AtFront (p : Process) (n : LogicNode) (rest : List LogicNode) : Prop where
  alive : p.fate = .alive
  que : p.logic.msgQueue = n :: rest
  worker : p.logic.worker = .drain ∨ (p.logic.worker = .dispatch ∧ p.logic.bStop = false)

theorem worker_step (halive : p.fate = .alive) :
    (system J v).step p (.logic .worker) = p.workerStep J v := by
  show p.step J v (.logic .worker) = _
  rw [step, if_pos halive]

/-- … which takes the worker into the callback, … -/
theorem AtFront.enter {n : LogicNode} {rest : List LogicNode} (h : AtFront p n rest)
    (hid : n.recvNode.msgId = msgHelloWord) :
    ∃ d, (system J v).step p (.logic .worker) = some { p with logic := { p.logic with
      worker := .running n (n.session, n.recvNode.message) d
      calls := p.logic.calls ++ [(n.session, n.recvNode.message)] } } := by
  have hfind : n.findCallBack = some (n.session, n.recvNode.message) := by
    rw [LogicNode.findCallBack, if_pos hid]
  rw [worker_step h.alive]
  rcases h.worker with hw | ⟨hw, hstop⟩
  · refine ⟨true, ?_⟩
    simp only [workerStep, LogicSystem.workerStep, LogicSystem.take, hw, h.que, hfind,
      Option.map_some]
  · refine ⟨false, ?_⟩
    simp only [workerStep, LogicSystem.workerStep, LogicSystem.take, hw, hstop, h.que, hfind,
      Option.map_some, Bool.false_eq_true, if_false]

/-- … from where it goes on to the pop when the callback comes back, … -/
theorem running_returns {n : LogicNode} {session : Nat} {id : Short} {msgData : Bytes} {d : Bool}
    {q : SendQueue SendNode} (halive : p.fate = .alive)
    (hw : p.logic.worker = .running n (session, id, msgData) d)
    (h : helloWorldCallBack J v msgData (p.sendQueues session) = some (.returned, q)) :
    (system J v).step p (.logic .worker) = some { p with
      logic := { p.logic with worker := .toPop n d }
      sendQueues := Function.update p.sendQueues session q } := by
  rw [worker_step halive]
  simp only [workerStep, LogicSystem.workerStep, hw, h, Option.map_some]

/-- … and otherwise nowhere. -/
theorem running_stops {n : LogicNode} {session : Nat} {id : Short} {msgData : Bytes} {d : Bool}
    (halive : p.fate = .alive) (hw : p.logic.worker = .running n (session, id, msgData) d)
    (h : ∀ q, helloWorldCallBack J v msgData (p.sendQueues session) ≠ some (.returned, q)) :
    ∃ p', (system J v).step p (.logic .worker) = some p' ∧ p'.fate ≠ .alive := by
  rw [worker_step halive]
  simp only [workerStep, hw]
  split
  · rename_i q hq
    exact absurd hq (h q)
  · exact ⟨_, rfl, nofun⟩
  · exact ⟨_, rfl, nofun⟩
  · exact ⟨_, rfl, nofun⟩

theorem stopped_step {a : Act} (h : p.fate ≠ .alive) : (system J v).step p a = none :=
  if_neg h

/-- The pop. -/
theorem toPop_pops {n : LogicNode} {rest : List LogicNode} {d : Bool} (halive : p.fate = .alive)
    (hw : p.logic.worker = .toPop n d) (hque : p.logic.msgQueue = n :: rest) :
    ∃ p', (system J v).step p (.logic .worker) = some p' ∧ p'.fate = .alive ∧
      p'.logic.msgQueue = rest ∧ p'.logic.finished = p.logic.finished ++ [n] ∧
      (p'.logic.worker = .drain ∨ p'.logic.worker = .top) := by
  rw [worker_step halive]
  cases d with
  | true =>
    refine ⟨{ p with logic := { p.logic with
      worker := .drain, msgQueue := rest, finished := p.logic.finished ++ [n] } }, ?_, halive, rfl,
      rfl, Or.inl rfl⟩
    simp only [workerStep, LogicSystem.workerStep, hw, hque, Option.map_some, if_true]
  | false =>
    refine ⟨{ p with logic := { p.logic with
      worker := .top, mutex := none, msgQueue := rest, finished := p.logic.finished ++ [n] } }, ?_,
      halive, rfl, rfl, Or.inr rfl⟩
    simp only [workerStep, LogicSystem.workerStep, hw, hque, Option.map_some, Bool.false_eq_true,
      if_false]

/-! ## The other threads -/

/-- The worker takes no step. -/
def Aside (as : List Act) : Prop := ∀ a ∈ as, a ≠ .logic .worker

/-- While the worker is inside its critical section, the others can neither kill the process nor
get at the queue. -/
theorem step_undisturbed {a : Act} (hr : (system J v).Reachable p)
    (hin : p.logic.holds .worker) (ha : a ≠ .logic .worker) (h : p.step J v a = some p') :
    p'.fate = .alive ∧ p'.logic.worker = p.logic.worker ∧
      p'.logic.msgQueue = p.logic.msgQueue ∧ p'.logic.finished = p.logic.finished := by
  obtain ⟨l, hl, hrel⟩ := toLogicSystem.reachable hr
  have hinv : p.logic.Inv LogicNode.findCallBack := by
    rw [← show l = p.logic from hrel]
    exact LogicSystem.reachable_inv hl
  unfold step at h
  split at h
  · rename_i halive
    split at h
    · exact absurd rfl ha
    · obtain ⟨l', hl', rfl⟩ := Option.map_eq_some_iff.mp h
      exact ⟨halive, hinv.undisturbed hin (fun heq => ha (by rw [heq])) hl'⟩
    · obtain ⟨q, _, rfl⟩ := Option.map_eq_some_iff.mp h
      exact ⟨halive, rfl, rfl, rfl⟩
  · cases h

theorem run_undisturbed {as : List Act} (hr : (system J v).Reachable p)
    (halive : p.fate = .alive) (hin : p.logic.holds .worker) (has : Aside as)
    (hrun : (system J v).run p as = some p') :
    p'.fate = .alive ∧ p'.logic.worker = p.logic.worker ∧
      p'.logic.msgQueue = p.logic.msgQueue ∧ p'.logic.finished = p.logic.finished := by
  induction as generalizing p with
  | nil =>
    cases hrun
    exact ⟨halive, rfl, rfl, rfl⟩
  | cons a as ih =>
    rw [Lib.System.run_cons] at hrun
    obtain ⟨p₁, hstep, hrest⟩ := Option.bind_eq_some_iff.mp hrun
    obtain ⟨halive₁, hworker, hque, hfin⟩ :=
      step_undisturbed hr hin (has a List.mem_cons_self) hstep
    have hin₁ : p₁.logic.holds .worker := by
      unfold LogicSystem.holds at hin ⊢
      rwa [hworker]
    rw [← hworker, ← hque, ← hfin]
    exact ih (hr.step hstep) halive₁ hin₁ (fun b hb => has b (List.mem_cons_of_mem a hb)) hrest

/-- The callback of the front node comes back, and whatever the other threads do meanwhile, the
worker's next step pops the node and goes on with the queue. -/
def GoesOn (J : JsonCpp) (v : Variant) (p : Process) (n : LogicNode) (rest : List LogicNode) :
    Prop :=
  ∃ p₁, (system J v).step p (.logic .worker) = some p₁ ∧
    ∀ as p₂, Aside as → (system J v).run p₁ as = some p₂ →
      ∃ p₃, (system J v).step p₂ (.logic .worker) = some p₃ ∧ p₃.fate = .alive ∧
        p₃.logic.msgQueue = rest ∧ p₃.logic.finished = p.logic.finished ++ [n] ∧
        (p₃.logic.worker = .drain ∨ p₃.logic.worker = .top)

/-- In the callback. -/
theorem goesOn_iff {n : LogicNode} {rest : List LogicNode} {d : Bool}
    (hr : (system J v).Reachable p) (halive : p.fate = .alive)
    (hw : p.logic.worker = .running n (n.session, n.recvNode.message) d)
    (hque : p.logic.msgQueue = n :: rest) :
    GoesOn J v p n rest ↔ Answerable J v n.recvNode.message.2 (p.sendQueues n.session) := by
  rw [← helloWorldCallBack_returned_iff]
  constructor
  · rintro ⟨p₁, hstep, hgoes⟩
    by_contra hnot
    obtain ⟨p₂, hstop, hdead⟩ := running_stops (J := J) (v := v) halive hw
      fun q hq => hnot ⟨q, hq⟩
    cases hstep.symm.trans hstop
    obtain ⟨p₃, hnext, _⟩ := hgoes [] p₁ nofun rfl
    rw [stopped_step hdead] at hnext
    cases hnext
  · rintro ⟨q, hq⟩
    have hreturn := running_returns halive hw hq
    refine ⟨_, hreturn, fun as p₂ has hrun => ?_⟩
    have hr₁ := hr.step hreturn
    obtain ⟨halive₂, hw₂, hque₂, hfin₂⟩ := run_undisturbed hr₁ halive trivial has hrun
    obtain ⟨p₃, hpop, halive₃, hrest, hfin, hpos⟩ :=
      toPop_pops (J := J) (v := v) halive₂ hw₂ (hque₂.trans hque)
    exact ⟨p₃, hpop, halive₃, hrest, hfin.trans (congrArg (· ++ [n]) hfin₂), hpos⟩

/-- **Which requests the process lives through.** From any reachable state the worker goes from a
`MSG_HELLO_WORD` node at the front of the queue into its callback. Whatever the other threads do
before the worker's next step, which is the callback's, and behind it until the pop: the callback
comes back and the worker pops the node and goes on with the queue exactly when the request is
answerable, with the send queue as `Send` finds it. -/
theorem helloWorld_iff {n : LogicNode} {rest : List LogicNode} (hr : (system J v).Reachable p)
    (h : AtFront p n rest) (hid : n.recvNode.msgId = msgHelloWord) :
    ∃ p₀, (system J v).step p (.logic .worker) = some p₀ ∧
      ∀ as p₁, Aside as → (system J v).run p₀ as = some p₁ →
        (GoesOn J v p₁ n rest ↔
          Answerable J v n.recvNode.message.2 (p₁.sendQueues n.session)) := by
  obtain ⟨d, henter⟩ := h.enter (J := J) (v := v) hid
  refine ⟨_, henter, fun as p₁ has hrun => ?_⟩
  have hr₀ := hr.step henter
  obtain ⟨halive, hw, hque, _⟩ := run_undisturbed hr₀ h.alive trivial has hrun
  exact goesOn_iff (hr₀.run hrun) halive hw (hque.trans h.que)

/-- jsoncpp on the two payloads below: it reads an empty array, and nothing in two zero bytes. -/
def sampleJsonCpp : JsonCpp where
  parse b := if b = asBytes "[]" then .array [] else .null
  toStyledString := fun
    | .object _ => asBytes
      "\x7b\n\t\"data\" : \"Server has received msg, msg data is \",\n\t\"id\" : null\n\x7d\n"
    | _ => []
  doubleToString _ := []

def arrayNode : LogicNode where
  session := 7
  recvNode := { (((MsgNode.zeroed (toShort 2)).write 0 (asBytes "[]")).advance 2) with
    msgId := msgHelloWord }

/-- A node is posted, and the worker takes the mutex and comes to it. -/
def toFront (n : LogicNode) : List Act :=
  [.logic (.post 0 n), .logic (.producer 0), .logic (.producer 0), .logic (.producer 0),
    .logic (.producer 0), .logic (.producer 0), .logic .worker, .logic .worker]

/-- The payload of two zero bytes parses to `null`, and another message is posted while the worker
is in the callback. -/
theorem helloWorld_iff_zeros : ∃ p p₀ p₁,
    (system sampleJsonCpp .notifyUnderLock).run init (toFront helloNode) = some p ∧
      (system sampleJsonCpp .notifyUnderLock).step p (.logic .worker) = some p₀ ∧
      (system sampleJsonCpp .notifyUnderLock).run p₀ [.logic (.post 1 otherNode)] = some p₁ ∧
      GoesOn sampleJsonCpp .notifyUnderLock p₁ helloNode [] := by
  obtain ⟨p, p₀, p₁, hp, halive, hque, hw, hstop, hp₀, hp₁, hsend⟩ : ∃ p p₀ p₁,
      (system sampleJsonCpp .notifyUnderLock).run init (toFront helloNode) = some p ∧
        p.fate = .alive ∧ p.logic.msgQueue = [helloNode] ∧ p.logic.worker = .dispatch ∧
        p.logic.bStop = false ∧
        (system sampleJsonCpp .notifyUnderLock).step p (.logic .worker) = some p₀ ∧
        (system sampleJsonCpp .notifyUnderLock).run p₀ [.logic (.post 1 otherNode)] = some p₁ ∧
        p₁.sendQueues helloNode.session = .fresh := ⟨_, _, _, rfl, rfl, rfl, rfl, rfl, rfl, rfl, rfl⟩
  have hanswer : Answerable sampleJsonCpp .notifyUnderLock helloNode.recvNode.message.2
      (p₁.sendQueues helloNode.session) :=
    ⟨[], [], rfl, nofun, rfl, Or.inr (by decide)⟩
  obtain ⟨p₀', hp₀', hiff⟩ := helloWorld_iff (.of_run hp) ⟨halive, hque, Or.inr ⟨hw, hstop⟩⟩ rfl
  cases hp₀.symm.trans hp₀'
  have haside : Aside [.logic (.post 1 otherNode)] := by
    intro a ha
    rw [List.mem_singleton.mp ha]
    nofun
  exact ⟨p, p₀, p₁, hp, hp₀, hp₁, (hiff _ p₁ haside hp₁).mpr hanswer⟩

/-- The two bytes `[]`: the callback throws on `root["id"]`, and the process is gone. -/
theorem helloWorld_array : ¬ ∀ p n rest,
    (system sampleJsonCpp .notifyUnderLock).Reachable p → AtFront p n rest →
      n.recvNode.msgId = msgHelloWord →
      ∃ p₀, (system sampleJsonCpp .notifyUnderLock).step p (.logic .worker) = some p₀ ∧
        ∀ as p₁, Aside as → (system sampleJsonCpp .notifyUnderLock).run p₀ as = some p₁ →
          GoesOn sampleJsonCpp .notifyUnderLock p₁ n rest := by
  intro h
  obtain ⟨p, p₀, p₁, hp, halive, hque, hw, hstop, hp₀, hp₁, hdead⟩ : ∃ p p₀ p₁,
      (system sampleJsonCpp .notifyUnderLock).run init (toFront arrayNode) = some p ∧
        p.fate = .alive ∧ p.logic.msgQueue = [arrayNode] ∧ p.logic.worker = .dispatch ∧
        p.logic.bStop = false ∧
        (system sampleJsonCpp .notifyUnderLock).step p (.logic .worker) = some p₀ ∧
        (system sampleJsonCpp .notifyUnderLock).step p₀ (.logic .worker) = some p₁ ∧
        p₁.fate = .terminated := ⟨_, _, _, rfl, rfl, rfl, rfl, rfl, rfl, rfl, rfl⟩
  obtain ⟨p₀', hp₀', hgoes⟩ := h p arrayNode [] (.of_run hp) ⟨halive, hque, Or.inr ⟨hw, hstop⟩⟩ rfl
  cases hp₀.symm.trans hp₀'
  obtain ⟨p₁', hp₁', hpops⟩ := hgoes [] p₀ nofun rfl
  cases hp₁.symm.trans hp₁'
  obtain ⟨p₃, hnext, _⟩ := hpops [] p₁ nofun rfl
  rw [stopped_step (by rw [hdead]; nofun)] at hnext
  cases hnext

end Process
end AsyncEchoServer
