import Mathlib.Data.Finset.Basic
import AsyncEchoServer.Logic.HelloWorld
import AsyncEchoServer.ServerV3.Order
import AsyncEchoServer.Session.Exits

/-!
# `ServerV3/CServer.lean` — `CServer::_sessions` of the single-threaded server

Around the machine: `HandleAccept` starts a session and registers it, in one handler;
`clear_session` erases it; `Close()` sets `_b_close`, which nothing reads. What a handler does to
the registry is in its effects, and the handlers of one session run beside a read or a write of
the same session that is still outstanding, or has completed and is delivered later.

The callback is `HelloWorldCallBack` on a `JsonCpp`. When it throws, the process is over.

`registry_invariant` is the registry's law, as long as no header declares a negative length: a
registered session is listened to exactly once between two handlers, and a cleared one never comes
back.
-/

set_option autoImplicit false

namespace AsyncEchoServer
namespace ServerV3

/-- `Close()`. -/
def Conn.close (c : Conn) : Conn := { c with sendQueue := { c.sendQueue with bClose := true } }

/-- What reading works on. -/
def Conn.recvHalf (c : Conn) : Nat × Session × Bytes := (c.reads, c.session, c.received)

/-- `_b_close`. -/
def Conn.Closed (c : Conn) : Prop := c.sendQueue.bClose = true

structure CServer where
  machine : Machine
  /-- the keys of `_sessions` -/
  sessions : Finset Nat
  /-- the uuid of the next session -/
  fresh : Nat
  /-- the sessions `clear_session` was called for -/
  gone : List Nat

/-- The text and the id `HelloWorldCallBack` calls `Send` with; `none` is an exception. -/
def replyOf (J : JsonCpp) (msg : Short × Bytes) : Option (Bytes × Short) :=
  (replyTo J .notifyUnderLock (J.parse msg.2)).map fun reply => (reply.1, toShort reply.2)

/-- … where it does not throw. -/
def reply (J : JsonCpp) (msg : Short × Bytes) : Bytes × Short := (replyOf J msg).getD ([], 0)

namespace Machine

/-- The worker is in a callback that throws. -/
def callBackThrows (J : JsonCpp) (m : Machine) : Bool :=
  match m.logic.worker with
  | .running _ (_, msg) _ => (replyOf J msg).isNone
  | _ => false

/-- What the network thread does in a step, and for which session. -/
def effects (m : Machine) : Act → List (Nat × Effect)
  | .handleReadError uuid => [(uuid, .close), (uuid, .clearSession)]
  | .handleWrite uuid _ error => if error then [(uuid, .close), (uuid, .clearSession)] else []
  | .pass =>
    match m.net with
    | .inHandleRead uuid data copyLen n =>
      if 0 < n then (loopBody receiver data (m.loopAt uuid copyLen n)).1.map (uuid, ·) else []
    | .idle => []
  | .handleRead _ _ | .post | .worker | .spurious | .destructor => []

/-- The session whose completion is delivered. -/
def Act.session : Act → Option Nat
  | .handleRead uuid _ | .handleReadError uuid | .handleWrite uuid _ _ => some uuid
  | .pass | .post | .worker | .spurious | .destructor => none

end Machine

namespace CServer

def init : CServer where
  machine := { Machine.init with
    conns := fun _ =>
      { session := .fresh receiver, reads := 0, sendQueue := .fresh, received := [], sends := [] } }
  sessions := ∅
  fresh := 0
  gone := []

abbrev conns (c : CServer) : Nat → Conn := c.machine.conns

/-- `Close()` and `clear_session`, as a handler comes to them. -/
def perform (c : CServer) : Nat × Effect → CServer
  | (uuid, .close) => { c with machine := c.machine.setConn uuid (c.conns uuid).close }
  | (uuid, .clearSession) =>
    { c with sessions := c.sessions.erase uuid, gone := c.gone ++ [uuid] }
  | _ => c

inductive Act where
  /-- `async_accept` completes -/
  | handleAccept (error : Bool)
  | run (a : Machine.Act)

/-- `HandleAccept` without an error: `Start()`, then the insert. -/
def accept (c : CServer) : CServer where
  machine := c.machine.setConn c.fresh
    { c.conns c.fresh with reads := (c.conns c.fresh).reads + 1 }
  sessions := insert c.fresh c.sessions
  fresh := c.fresh + 1
  gone := c.gone

/-- A step of the machine, and what its handlers do to the registry. -/
def runStep (J : JsonCpp) (c : CServer) (a : Machine.Act) : Option CServer :=
  (c.machine.step (reply J) a).map fun m =>
    (c.machine.effects a).foldl perform { c with machine := m }

def step (J : JsonCpp) (c : CServer) : Act → Option CServer
  | .handleAccept error =>
    if c.machine.fate = .alive ∧ c.machine.networkFree = true then
      some (if error then c else c.accept)
    else none
  | .run .worker =>
    if c.machine.fate = .alive ∧ c.machine.callBackThrows J = true then
      some { c with machine := { c.machine with fate := .terminated } }
    else c.runStep J .worker
  | .run a =>
    if ∀ uuid ∈ a.session, uuid < c.fresh then c.runStep J a else none

def system (J : JsonCpp) : Lib.System CServer Act where
  init := init
  step := step J

/-! ## What a step can do -/

variable {J : JsonCpp} {c c' : CServer}

/-- The sessions cleared in a list of effects, in order. -/
def clears (es : List (Nat × Effect)) : List Nat :=
  es.filterMap fun
    | (uuid, .clearSession) => some uuid
    | _ => none

/-- What a handler's effects leave of the server: sessions closed, sessions cleared, and everything
else as it was. -/
structure Performed (c : CServer) (es : List (Nat × Effect)) (c' : CServer) : Prop where
  heap : c'.machine.heap = c.machine.heap
  net : c'.machine.net = c.machine.net
  logic : c'.machine.logic = c.machine.logic
  conn : ∀ u, c'.conns u = if (u, Effect.close) ∈ es then (c.conns u).close else c.conns u
  sessions : c'.sessions = (clears es).foldl Finset.erase c.sessions
  fresh : c'.fresh = c.fresh
  gone : c'.gone = c.gone ++ clears es

theorem perform_performed (c : CServer) (e : Nat × Effect) : Performed c [e] (c.perform e) := by
  obtain ⟨uuid, e⟩ := e
  cases e with
  | close =>
    refine ⟨rfl, rfl, rfl, ?_, rfl, rfl, (List.append_nil _).symm⟩
    intro u
    show Function.update c.conns uuid (c.conns uuid).close u = _
    by_cases hu : u = uuid
    · subst hu
      rw [Function.update_self, if_pos (List.mem_singleton_self _)]
    · rw [Function.update_of_ne hu, if_neg]
      intro hmem
      exact hu (Prod.mk.inj (List.mem_singleton.mp hmem)).1
  | clearSession =>
    refine ⟨rfl, rfl, rfl, fun u => (if_neg ?_).symm, rfl, rfl, rfl⟩
    intro hmem
    cases (Prod.mk.inj (List.mem_singleton.mp hmem)).2
  | newArray | memcpy | store | deliver | asyncReadSome =>
    refine ⟨rfl, rfl, rfl, fun u => (if_neg ?_).symm, rfl, rfl, (List.append_nil _).symm⟩
    intro hmem
    cases (Prod.mk.inj (List.mem_singleton.mp hmem)).2

theorem Performed.refl (c : CServer) : Performed c [] c :=
  ⟨rfl, rfl, rfl, fun _ => (if_neg List.not_mem_nil).symm, rfl, rfl, (List.append_nil _).symm⟩

theorem Performed.trans {c₁ c₂ c₃ : CServer} {es es' : List (Nat × Effect)}
    (h : Performed c₁ es c₂) (h' : Performed c₂ es' c₃) : Performed c₁ (es ++ es') c₃ where
  heap := h'.heap.trans h.heap
  net := h'.net.trans h.net
  logic := h'.logic.trans h.logic
  conn u := by
    rw [h'.conn, h.conn]
    by_cases hu : (u, Effect.close) ∈ es
    · rw [if_pos hu, if_pos (List.mem_append_left _ hu)]
      split <;> rfl
    · rw [if_neg hu]
      simp only [List.mem_append, hu, false_or]
  sessions := by
    rw [h'.sessions, h.sessions, clears, clears, clears, List.filterMap_append, List.foldl_append]
  fresh := h'.fresh.trans h.fresh
  gone := by
    rw [h'.gone, h.gone, clears, clears, clears, List.filterMap_append, List.append_assoc]

theorem foldl_performed (es : List (Nat × Effect)) (c : CServer) :
    Performed c es (es.foldl perform c) := by
  induction es generalizing c with
  | nil => exact .refl c
  | cons e es ih => exact (perform_performed c e).trans (ih _)

/-- The steps of the server. -/
inductive StepSpec (J : JsonCpp) (c : CServer) : Act → CServer → Prop where
  | acceptFailed : StepSpec J c (.handleAccept true) c
  | accepted (free : c.machine.networkFree = true) : StepSpec J c (.handleAccept false) c.accept
  | threw (throws : c.machine.callBackThrows J = true) :
      StepSpec J c (.run .worker) { c with machine := { c.machine with fate := .terminated } }
  | ran {a : Machine.Act} {m : Machine} {c' : CServer} (known : ∀ uuid ∈ a.session, uuid < c.fresh)
      (replies : a = .worker → c.machine.callBackThrows J = false)
      (step : c.machine.step (reply J) a = some m)
      (performed : Performed { c with machine := m } (c.machine.effects a) c') :
      StepSpec J c (.run a) c'

theorem runStep_cases {a : Machine.Act} (known : ∀ uuid ∈ a.session, uuid < c.fresh)
    (replies : a = .worker → c.machine.callBackThrows J = false)
    (h : c.runStep J a = some c') : StepSpec J c (.run a) c' := by
  obtain ⟨m, hm, rfl⟩ := Option.map_eq_some_iff.mp h
  exact .ran known replies hm (foldl_performed _ _)

theorem step_cases {a : Act} (h : step J c a = some c') : StepSpec J c a c' := by
  cases a with
  | handleAccept error =>
    simp only [step] at h
    split at h
    · rename_i hguard
      cases error with
      | true =>
        cases h
        exact .acceptFailed
      | false =>
        cases h
        exact .accepted hguard.2
    · cases h
  | run a =>
    cases a with
    | worker =>
      simp only [step] at h
      split at h
      · rename_i hguard
        cases h
        exact .threw hguard.2
      · rename_i hguard
        refine runStep_cases nofun (fun _ => ?_) h
        obtain ⟨m, hm, _⟩ := Option.map_eq_some_iff.mp h
        have halive := (Machine.step_cases hm).2
        cases hthrows : c.machine.callBackThrows J with
        | false => rfl
        | true => exact absurd ⟨halive, hthrows⟩ hguard
    | handleRead | handleReadError | pass | handleWrite | post | spurious | destructor =>
      simp only [step] at h
      split at h
      · rename_i hknown
        exact runStep_cases hknown nofun h
      · cases h

/-! ## What a handler clears -/

theorem clears_map (uuid : Nat) (es : List Effect) :
    clears (es.map (uuid, ·)) = List.replicate (cleared es) uuid := by
  induction es with
  | nil => rfl
  | cons e es ih =>
    cases e with
    | clearSession =>
      have hcount : cleared (.clearSession :: es) = cleared es + 1 := List.count_cons_self
      rw [hcount, List.replicate_succ, ← ih]
      rfl
    | newArray | memcpy | store | deliver | asyncReadSome | close =>
      refine ih.trans (congrArg (List.replicate · uuid) (List.count_cons_of_ne ?_).symm)
      exact nofun

/-- No handler clears two sessions, or one of them twice. -/
theorem effects_clears (m : Machine) (a : Machine.Act) :
    clears (m.effects a) = [] ∨ ∃ uuid, clears (m.effects a) = [uuid] := by
  cases a with
  | handleReadError uuid => exact Or.inr ⟨uuid, rfl⟩
  | handleWrite uuid i error =>
    cases error with
    | true => exact Or.inr ⟨uuid, rfl⟩
    | false => exact Or.inl rfl
  | pass =>
    unfold Machine.effects
    dsimp only
    split
    · rename_i uuid data copyLen n hnet
      split
      · rw [clears_map]
        cases loopBody_exit receiver data (m.loopAt uuid copyLen n) with
        | rejects _ _ _ clr => exact Or.inr ⟨uuid, by rw [clr]; rfl⟩
        | fails _ _ _ _ clr => exact Or.inl (by rw [clr]; rfl)
        | goesOn _ _ _ clr => exact Or.inl (by rw [clr]; rfl)
      · exact Or.inl rfl
    · exact Or.inl rfl
  | handleRead | post | worker | spurious | destructor => exact Or.inl rfl

/-- **A handler erases one entry at most**, and notes which. -/
theorem step_sessions {a : Machine.Act} (h : step J c (.run a) = some c') :
    (c'.gone = c.gone ∧ c'.sessions = c.sessions) ∨
      ∃ uuid, c'.gone = c.gone ++ [uuid] ∧ c'.sessions = c.sessions.erase uuid := by
  cases step_cases h with
  | threw => exact Or.inl ⟨rfl, rfl⟩
  | ran known replies step performed =>
    have hcleared := performed.gone
    have hsessions := performed.sessions
    rcases effects_clears c.machine a with hnone | ⟨uuid, hone⟩
    · rw [hnone] at hcleared hsessions
      exact Or.inl ⟨hcleared.trans (List.append_nil _), hsessions⟩
    · rw [hone] at hcleared hsessions
      exact Or.inr ⟨uuid, hcleared, hsessions⟩

/-! ## The invariant -/

structure Inv (J : JsonCpp) (c : CServer) : Prop where
  machine : c.machine.Inv (reply J)
  /-- a session that is not accepted yet -/
  ahead : ∀ u, c.fresh ≤ u → (c.conns u).recvHalf = (0, .fresh receiver, [])
  running : ∀ u data copyLen n, c.machine.net = .inHandleRead u data copyLen n → u < c.fresh
  listens : ∀ u ∈ c.sessions, c.machine.net.at u = none → (c.conns u).reads = 1
  known : ∀ u ∈ c.gone, u < c.fresh
  removed : ∀ u ∈ c.gone, u ∉ c.sessions

theorem init_inv : Inv J init where
  machine :=
    { receives :=
        { fills := fun _ _ hq => Bool.noConfusion hq.1
          apart := fun _ _ _ hq => Bool.noConfusion hq.1
          settled := fun _ hn => absurd hn List.not_mem_nil
          parsed := fun _ => ⟨[], rfl, .waiting (by rw [init, Lib.Format.parse_nil])
            fun hreads => absurd rfl hreads⟩ }
      dispatches := ⟨LogicSystem.init_inv, rfl, fun _ => rfl⟩ }
  ahead _ _ := rfl
  running _ _ _ _ h := by cases h
  listens u hu := absurd hu (Finset.notMem_empty u)
  known _ hu := absurd hu List.not_mem_nil
  removed _ hu := absurd hu List.not_mem_nil

theorem Inv.accept (hi : Inv J c) (hfree : c.machine.networkFree = true) : Inv J c.accept := by
  have hidle := Machine.networkFree_idle hfree
  obtain ⟨hreads, hsess, hrecv⟩ : (c.conns c.fresh).reads = 0 ∧
      (c.conns c.fresh).session = .fresh receiver ∧ (c.conns c.fresh).received = [] := by
    have h := hi.ahead c.fresh (Nat.le_refl _)
    simpa only [Conn.recvHalf, Prod.mk.injEq] using h
  have hother : ∀ u, u ≠ c.fresh → c.accept.conns u = c.conns u :=
    fun u hu => Function.update_of_ne hu _ _
  have hself : (c.accept.conns c.fresh).reads = 1 := by
    show (Function.update c.conns c.fresh _ c.fresh).reads = 1
    rw [Function.update_self]
    show (c.conns c.fresh).reads + 1 = 1
    rw [hreads]
  refine ⟨⟨?_, ?_⟩, ?_, ?_, ?_, ?_, ?_⟩
  · have hold := hi.machine.receives
    rw [hidle] at hold
    show Receives c.machine.heap _ c.machine.net _
    rw [hidle]
    exact hold.start hsess hrecv rfl (by rw [hreads]) rfl
  · exact hi.machine.dispatches.of_kept (fun _ _ => rfl) (Machine.field_update Conn.sends rfl)
  · intro u hu
    have hlt : c.fresh < u := hu
    rw [hother u (Nat.ne_of_gt hlt)]
    exact hi.ahead u (Nat.le_of_lt hlt)
  · intro u data copyLen n hnet
    rw [show c.accept.machine.net = c.machine.net from rfl, hidle] at hnet
    cases hnet
  · intro u hu _
    by_cases hfresh : u = c.fresh
    · rw [hfresh]
      exact hself
    · rw [hother u hfresh]
      refine hi.listens u ?_ (by rw [hidle]; rfl)
      exact (Finset.mem_insert.mp hu).resolve_left hfresh
  · exact fun u hu => Nat.lt_succ_of_lt (hi.known u hu)
  · intro u hu hmem
    have hlt := hi.known u hu
    rcases Finset.mem_insert.mp hmem with hfresh | hold
    · exact Nat.lt_irrefl _ (hfresh ▸ hlt)
    · exact hi.removed u hu hold

/-- What `Close()` leaves alone. -/
theorem Performed.same {es : List (Nat × Effect)} (h : Performed c es c') {α : Type}
    (g : Conn → α) (hg : ∀ d : Conn, g d.close = g d) (u : Nat) :
    g (c'.conns u) = g (c.conns u) := by
  rw [h.conn]
  split
  · exact hg _
  · rfl

/-- The machine's invariant does not look at the closed flag. -/
theorem Performed.machine_inv {es : List (Nat × Effect)} (h : Performed c es c')
    (hi : c.machine.Inv (reply J)) : c'.machine.Inv (reply J) where
  receives := by
    rw [h.heap, h.net, h.logic]
    exact hi.receives.of_conns (h.same Conn.session fun _ => rfl) (h.same Conn.reads fun _ => rfl)
      (h.same Conn.received fun _ => rfl)
  dispatches := by
    rw [h.heap, h.logic]
    exact hi.dispatches.of_kept (fun _ _ => rfl) (h.same Conn.sends fun _ => rfl)

theorem mem_foldl_erase {us : List Nat} {sessions : Finset Nat} {v : Nat} :
    v ∈ us.foldl Finset.erase sessions ↔ v ∈ sessions ∧ v ∉ us := by
  induction us generalizing sessions with
  | nil => simp
  | cons u us ih =>
    rw [List.foldl_cons, ih, Finset.mem_erase, List.mem_cons, not_or]
    exact ⟨fun h => ⟨h.1.2, h.1.1, h.2⟩, fun h => ⟨⟨h.2.1, h.1⟩, h.2.2⟩⟩

theorem mem_clears {es : List (Nat × Effect)} {u : Nat} (h : u ∈ clears es) :
    (u, Effect.clearSession) ∈ es := by
  obtain ⟨⟨uuid, e⟩, hmem, heq⟩ := List.mem_filterMap.mp h
  cases e with
  | clearSession =>
    cases heq
    exact hmem
  | newArray | memcpy | store | deliver | asyncReadSome | close => cases heq

/-- A handler's effects are on the session it was called for, or is running for. -/
theorem mem_effects {m : Machine} {a : Machine.Act} {u : Nat} {e : Effect}
    (h : (u, e) ∈ m.effects a) : u ∈ a.session ∨ ∃ data copyLen n,
      m.net = .inHandleRead u data copyLen n ∧
        e ∈ (loopBody receiver data (m.loopAt u copyLen n)).1 := by
  cases a with
  | handleReadError uuid =>
    rcases List.mem_pair.mp h with heq | heq <;>
      exact Or.inl (congrArg some (Prod.mk.inj heq).1.symm)
  | handleWrite uuid i error =>
    cases error with
    | true =>
      rcases List.mem_pair.mp h with heq | heq <;>
        exact Or.inl (congrArg some (Prod.mk.inj heq).1.symm)
    | false => cases h
  | pass =>
    unfold Machine.effects at h
    dsimp only at h
    split at h
    · rename_i uuid data copyLen n hnet
      split at h
      · obtain ⟨e', he, heq⟩ := List.mem_map.mp h
        cases heq
        exact Or.inr ⟨data, copyLen, n, hnet, he⟩
      · cases h
    · cases h
  | handleRead | post | worker | spurious | destructor => cases h

/-- The machine's step leaves the receive half of a session alone that it is not about. -/
theorem recvHalf_kept {m m' : Machine} {a : Machine.Act} {u : Nat}
    (h : m.step (reply J) a = some m') (hact : u ∉ a.session)
    (hrun : ∀ data copyLen n, m.net ≠ .inHandleRead u data copyLen n) :
    (m'.conns u).recvHalf = (m.conns u).recvHalf := by
  have other : ∀ {uuid : Nat} (d : Conn), u ≠ uuid →
      (Function.update m.conns uuid d u).recvHalf = (m.conns u).recvHalf := by
    intro uuid d hne
    rw [Function.update_of_ne hne]
  obtain ⟨hspec, _⟩ := Machine.step_cases h
  cases hspec with
  | @read uuid =>
    refine other _ ?_
    rintro rfl
    exact hact rfl
  | @readError uuid =>
    refine other _ ?_
    rintro rfl
    exact hact rfl
  | @turn uuid n data copyLen turn logic pos =>
    refine other _ ?_
    rintro rfl
    exact hrun data copyLen n pos
  | write => exact Machine.field_update Conn.recvHalf (by rfl) u
  | replied => exact Machine.field_update Conn.recvHalf (by rfl) u
  | passEnd | sendFailed | queue => rfl

/-- A session that stays registered, and is not being read from, is listened to. -/
theorem Inv.listens_step {a : Machine.Act} {m : Machine} (hi : Inv J c)
    (hneg : c.machine.Unbroken) (hstep : c.machine.step (reply J) a = some m) {u : Nat}
    (hmem : u ∈ c.sessions) (hkept : u ∉ clears (c.machine.effects a))
    (hout : m.net.at u = none) : (m.conns u).reads = 1 := by
  -- a session the step is not about
  have other : u ∉ a.session → (∀ data copyLen n, c.machine.net ≠ .inHandleRead u data copyLen n) →
      (m.conns u).reads = 1 := by
    intro hact hrun
    refine (congrArg Prod.fst (recvHalf_kept hstep hact hrun)).trans (hi.listens u hmem ?_)
    cases hnet : c.machine.net with
    | idle => rfl
    | inHandleRead uuid data copyLen n =>
      refine NetPos.at_of_ne (fun heq => ?_) _ _ _
      subst heq
      exact hrun data copyLen n hnet
  have free : c.machine.networkFree = true →
      ∀ data copyLen n, c.machine.net ≠ .inHandleRead u data copyLen n := by
    intro hfree data copyLen n hnet
    rw [Machine.networkFree_idle hfree] at hnet
    cases hnet
  obtain ⟨hspec, _⟩ := Machine.step_cases hstep
  cases hspec with
  | @read uuid chunk hfree =>
    refine other (fun hact => ?_) (free hfree)
    cases hact
    rw [NetPos.at_self] at hout
    cases hout
  | @readError uuid hfree =>
    refine other (fun hact => ?_) (free hfree)
    cases hact
    exact hkept (List.mem_singleton_self _)
  | @turn uuid n data copyLen turn logic pos idle left body posted =>
    by_cases hu : u = uuid
    · subst hu
      have hrecv := hi.machine.receives
      rw [pos] at hrecv
      obtain ⟨hzero, hends⟩ := hrecv.pass_reads (hneg u) body
      have hreads : (Function.update c.conns u (Machine.connAfter (c.conns u) turn) u).reads =
          armed turn.1 := by
        rw [Function.update_self]
        show (c.conns u).reads + armed turn.1 = armed turn.1
        rw [hzero, Nat.zero_add]
      rcases hends with ⟨l, hagain⟩ | harm | hclr
      · have hnet : (nextPos u data turn).at u = none := hout
        rw [nextPos, hagain] at hnet
        rw [NetPos.at_self] at hnet
        cases hnet
      · exact hreads.trans harm
      · refine absurd ?_ hkept
        unfold Machine.effects
        rw [pos]
        dsimp only
        rw [if_pos left, clears_map, body, hclr]
        exact List.mem_singleton_self u
    · refine other (fun hact => by cases hact) fun data' copyLen' n' hnet => ?_
      rw [pos] at hnet
      cases hnet
      exact hu rfl
  | passEnd pos =>
    have hrecv := hi.machine.receives
    rw [pos] at hrecv
    exact absurd hrecv.bytes_left (Nat.lt_irrefl 0)
  | write hfree =>
    have hreads := hi.listens u hmem (by rw [Machine.networkFree_idle hfree]; rfl)
    exact (Machine.field_update Conn.reads (by rfl) u).trans hreads
  | replied => exact (Machine.field_update Conn.reads (by rfl) u).trans (hi.listens u hmem hout)
  | sendFailed | queue => exact hi.listens u hmem hout

theorem Inv.ran {a : Machine.Act} {m : Machine} (hi : Inv J c) (hneg : c.machine.Unbroken)
    (hknown : ∀ uuid ∈ a.session, uuid < c.fresh)
    (hstep : c.machine.step (reply J) a = some m)
    (hperf : Performed { c with machine := m } (c.machine.effects a) c') : Inv J c' := by
  have hfresh : c'.fresh = c.fresh := hperf.fresh
  have hsessions : ∀ {u}, u ∈ c'.sessions ↔ u ∈ c.sessions ∧ u ∉ clears (c.machine.effects a) := by
    intro u
    rw [hperf.sessions]
    exact mem_foldl_erase
  have hgone : c'.gone = c.gone ++ clears (c.machine.effects a) := hperf.gone
  refine ⟨hperf.machine_inv (Machine.step_inv hi.machine hneg hstep), ?_, ?_, ?_, ?_, ?_⟩
  · intro u hu
    rw [hfresh] at hu
    have hkept := recvHalf_kept hstep
      (fun hact => absurd (hknown u hact) (Nat.not_lt.mpr hu))
      (fun data copyLen n hnet => absurd (hi.running u data copyLen n hnet) (Nat.not_lt.mpr hu))
    rw [hperf.same Conn.recvHalf (fun _ => rfl) u]
    exact hkept.trans (hi.ahead u hu)
  · intro u data copyLen n hnet
    rw [hperf.net] at hnet
    rw [hfresh]
    have hnet' : m.net = .inHandleRead u data copyLen n := hnet
    clear hnet
    obtain ⟨hspec, _⟩ := Machine.step_cases hstep
    cases hspec with
    | read free listens ne le =>
      cases hnet'
      exact hknown u rfl
    | @turn uuid n' data' copyLen' turn logic pos =>
      have hnext : nextPos uuid data' turn = .inHandleRead u data copyLen n := hnet'
      have hu : uuid = u := by
        unfold nextPos at hnext
        split at hnext
        · cases hnext
          rfl
        · cases hnext
      exact hu ▸ hi.running uuid _ _ _ pos
    | passEnd => cases hnet'
    | readError | write | replied | sendFailed | queue => exact hi.running u _ _ _ hnet'
  · intro u hu hout
    obtain ⟨hmem, hkept⟩ := hsessions.mp hu
    rw [hperf.net] at hout
    rw [hperf.same Conn.reads (fun _ => rfl) u]
    exact hi.listens_step hneg hstep hmem hkept hout
  · intro u hu
    rw [hgone] at hu
    rw [hfresh]
    rcases List.mem_append.mp hu with hu | hu
    · exact hi.known u hu
    · rcases mem_effects (mem_clears hu) with hact | ⟨data, copyLen, n, hnet, _⟩
      · exact hknown u hact
      · exact hi.running u data copyLen n hnet
  · intro u hu hmem
    rw [hgone] at hu
    obtain ⟨hmem, hkept⟩ := hsessions.mp hmem
    rcases List.mem_append.mp hu with hu | hu
    · exact hi.removed u hu hmem
    · exact hkept hu

/-! ## Every run -/

theorem step_inv {a : Act} (hi : Inv J c) (hneg : c.machine.Unbroken)
    (h : step J c a = some c') : Inv J c' := by
  cases step_cases h with
  | acceptFailed => exact hi
  | accepted free => exact hi.accept free
  | threw throws =>
    exact ⟨⟨hi.machine.receives, hi.machine.dispatches⟩, hi.ahead, hi.running, hi.listens,
      hi.known, hi.removed⟩
  | ran known replies step performed => exact hi.ran hneg known step performed

theorem step_received {a : Act} (h : step J c a = some c') (u : Nat) :
    ∃ b, (c'.conns u).received = (c.conns u).received ++ b := by
  cases step_cases h with
  | acceptFailed | threw => exact ⟨[], (List.append_nil _).symm⟩
  | accepted free =>
    exact ⟨[], (Machine.field_update Conn.received (by rfl) u).trans (List.append_nil _).symm⟩
  | ran known replies step performed =>
    rw [performed.same Conn.received (fun _ => rfl) u]
    exact Machine.step_received step u

theorem reachable_inv (h : (system J).Reachable c) (hneg : c.machine.Unbroken) : Inv J c := by
  induction h with
  | init => exact init_inv
  | @step c c' a _ hstep ih =>
    have hstep' : step J c a = some c' := hstep
    have hbefore : c.machine.Unbroken := by
      intro u
      obtain ⟨b, hb⟩ := step_received hstep' u
      have hu := hneg u
      rw [show (c'.machine.conns u).received = (c.conns u).received ++ b from hb] at hu
      exact tail_ne_broken_of_append hu
    exact step_inv (ih hbefore) hbefore hstep'

/-- A session that was cleared stays noted. -/
theorem step_gone {a : Act} (h : step J c a = some c') : c.gone <+: c'.gone := by
  cases step_cases h with
  | acceptFailed | accepted | threw => exact List.prefix_rfl
  | ran known replies step performed => exact ⟨_, performed.gone.symm⟩

theorem run_gone {as : List Act} (h : (system J).run c as = some c') : c.gone <+: c'.gone := by
  induction as generalizing c with
  | nil =>
    cases h
    exact List.prefix_rfl
  | cons a as ih =>
    rw [Lib.System.run_cons] at h
    obtain ⟨d, hd, hrest⟩ := Option.bind_eq_some_iff.mp h
    have hstep : step J c a = some d := hd
    exact (step_gone hstep).trans (ih hrest)

/-- **The registry's law.** On streams without negative lengths, in every reachable state: a
session has at most one read outstanding; between two handlers, a registered one has exactly one;
a session that was cleared is not registered, then or in any run from there; and a step clears no
session and leaves `_sessions` as it was, or clears one and erases just that one. -/
theorem registry_invariant (h : (system J).Reachable c) (hneg : c.machine.Unbroken) :
    (∀ u, (c.conns u).reads ≤ 1) ∧
    (c.machine.networkFree = true → ∀ u ∈ c.sessions, (c.conns u).reads = 1) ∧
    (∀ as c', (system J).run c as = some c' → c'.machine.Unbroken →
      ∀ u ∈ c.gone, u ∉ c'.sessions) ∧
    ∀ a c', step J c (.run a) = some c' → (c'.gone = c.gone ∧ c'.sessions = c.sessions) ∨
      ∃ u, c'.gone = c.gone ++ [u] ∧ c'.sessions = c.sessions.erase u := by
  have hi := reachable_inv h hneg
  refine ⟨hi.machine.receives.reads_le, ?_, ?_, fun a c' => step_sessions⟩
  · intro hfree u hu
    exact hi.listens u hu (by rw [Machine.networkFree_idle hfree]; rfl)
  · intro as c' hrun hneg' u hu
    exact (reachable_inv (h.run hrun) hneg').removed u ((run_gone hrun).subset hu)

/-- jsoncpp on nothing at all. -/
def noJson : JsonCpp where
  parse _ := .null
  toStyledString _ := []
  doubleToString _ := []

/-- Two clients; one sends a message nobody is registered for, the other goes away. -/
def twoClients : List Act :=
  [.handleAccept false, .handleAccept false, .run (.handleRead 0 [0, 5, 0, 1]), .run .pass,
    .run (.handleReadError 1), .run (.handleRead 0 [7]), .run .pass, .run .post, .run .post,
    .run .post, .run .post, .run .post]

theorem registry_invariant_two : ∃ c, (system noJson).run init twoClients = some c ∧
    c.gone = [1] ∧ c.sessions = {0} ∧ (c.conns 0).reads = 1 ∧ 1 ∉ c.sessions := by
  obtain ⟨c, hc, hgone, hmem, hfree, h₀, hrest⟩ : ∃ c,
      (system noJson).run init twoClients = some c ∧ c.gone = [1] ∧ c.sessions = {0} ∧
        c.machine.networkFree = true ∧ (c.conns 0).received = [0, 5, 0, 1, 7] ∧
        ∀ u, (c.conns (u + 1)).received = [] :=
    ⟨_, rfl, rfl, by decide, rfl, rfl, fun u => by cases u <;> rfl⟩
  have hneg : c.machine.Unbroken := by
    intro u
    cases u with
    | zero => rw [show (c.machine.conns 0).received = _ from h₀]; decide
    | succ u =>
      rw [show (c.machine.conns (u + 1)).received = _ from hrest u, Lib.Format.parse_nil]
      exact nofun
  obtain ⟨_, hlistens, hnever, _⟩ := registry_invariant (.of_run hc) hneg
  refine ⟨c, hc, hgone, hmem, ?_, ?_⟩
  · exact hlistens hfree 0 (by rw [hmem]; exact Finset.mem_singleton_self 0)
  · exact hnever [] c rfl hneg 1 (by rw [hgone]; exact List.mem_singleton_self 1)

end CServer
end ServerV3
end AsyncEchoServer
