import AsyncEchoServer.ServerV3Mt.Wire
import AsyncEchoServer.ServerV3Mt.Work
import AsyncEchoServer.Logic.Progress

/-!
# `ServerV3Mt/Quiet.lean` — every request is answered, or the process dies of one

When no thread of the server can take a step, they all rest (`quiet_rests`): no handler is running,
nobody is in `PostMsgToQue`, and the worker waits. Being blocked on a mutex is no rest, since behind
everybody who is blocked there is somebody who is not (`Locking.lean`) and whoever holds a mutex can
go on. And a worker that waits has nothing to do, or a thread is on its way to wake it.

So nothing is left on the way: what has been framed has been handed over, queued, taken and replied
to. Since the threads come to rest whatever the order of their steps (`Work.lean`), `Send` gets the
reply to every complete request that has been received; unless one of these replies fits in no node,
which ends the process (`every_request_answered`). What `Send` does with a reply is in `Wire.lean`.
-/

set_option autoImplicit false

namespace AsyncEchoServer

namespace ServerV3Mt

open ServerV3 (Conn NodeRef ref findCallBack nodesOf Stage)

/-! ## Rest -/

/-- The thread has nothing to do before something comes in. -/
def Threads.Rests (s : Threads) : Thread → Prop
  | .acceptor => s.acceptor = .accepting
  | .pool i => s.free i = true
  | .worker => s.logic.worker = .waiting ∨ s.logic.worker = .exited

/-- A thread at rest is in no critical section. -/
theorem Threads.Inv.rests_holds {s : Threads} (hi : s.Inv) {t : Thread} (hrest : s.Rests t)
    (mutex : Mutex) : s.locks.holder mutex ≠ some t := by
  intro hheld
  have hpool : ∀ i, t = .pool i → s.pool i = .idle ∧ s.logic.producers i = .idle := by
    rintro i rfl
    exact Threads.free_idle hrest
  cases mutex with
  | queue =>
    obtain ⟨o, ho, rfl⟩ := Option.map_eq_some_iff.mp hheld
    have hin := hi.queue o ho
    cases o with
    | worker => rcases hrest with hw | hw <;> simp only [LogicSystem.holds, hw] at hin
    | producer i => simp only [LogicSystem.holds, (hpool i rfl).2] at hin
  | server =>
    have hin := hi.server t hheld
    cases t with
    | acceptor =>
      have hacc : s.acceptor = .accepting := hrest
      simp only [Threads.inServer, hacc, AcceptPos.inServer, Bool.false_eq_true] at hin
    | pool i =>
      simp only [Threads.inServer, (hpool i rfl).1, PoolPos.inServer, Bool.false_eq_true] at hin
    | worker => exact hin
  | sendLock uuid =>
    have hin := hi.send uuid t hheld
    cases t with
    | acceptor => exact hin
    | pool i =>
      simp only [Threads.inSend, (hpool i rfl).1, PoolPos.inSend, reduceCtorEq] at hin
    | worker =>
      obtain ⟨_, n, msg, d, hrun⟩ := hin
      rcases hrest with hw | hw <;> cases hw.symm.trans hrun

namespace Machine

variable {size i : Nat} {f : Short × Bytes → Bytes × Short} {m m' : Machine}

/-- A thread that is at no lock and does not rest can take its next step. -/
theorem poolStep_isSome (hrest : m.free i = false) (hwants : m.locks.wants (.pool i) = none) :
    (m.poolStep i).isSome = true := by
  unfold poolStep
  by_cases hidle : m.logic.producers i = .idle
  · rw [hidle]
    unfold Threads.locks at hwants
    unfold Threads.free at hrest
    simp only [hidle] at hwants hrest ⊢
    cases hp : m.pool i with
    | idle => simp [hp] at hrest
    | clearing | writing => simp [hp] at hwants
    | inHandleRead uuid data copyLen n =>
      dsimp only
      unfold pass
      split
      · rw [Option.isSome_map]
        split
        · rfl
        · simp [logicStep, LogicSystem.step, hidle]
      · rfl
    | writeLocked uuid w =>
      dsimp only
      split <;> rfl
    | clearLocked | erased | written => rfl
  · have hlock : ∀ n, m.logic.producers i ≠ .entered n := by
      intro n hn
      simp [Threads.locks, hn] at hwants
    have hstep : (m.logic.producerStep .unlockFirst i).isSome = true :=
      LogicSystem.producerStep_isSome hidle hlock
    split
    · rename_i h
      exact absurd h hidle
    · rw [Option.isSome_map]
      exact hstep

theorem workerStep_isSome (hi : m.logic.Inv (findCallBack m.heap))
    (hrest : ¬ m.toThreads.Rests .worker) (hwants : m.locks.wants .worker = none) :
    (m.workerStep f).isSome = true := by
  have hwait : m.logic.worker ≠ .waiting ∧ m.logic.worker ≠ .exited := not_or.mp hrest
  have hout : m.logic.worker ≠ .top ∧ m.logic.worker ≠ .woken := by
    constructor <;> intro hw <;> simp [Threads.locks, hw] at hwants
  have hstep := LogicSystem.workerStep_isSome hi hout hwait.1 hwait.2
  unfold workerStep
  split
  · rename_i n uuid msg d hw
    cases hs : m.sender with
    | atLock => simp [Threads.locks, hw, hs] at hwants
    | locked =>
      dsimp only
      split <;> rfl
    | sent => rfl
    | returned =>
      dsimp only
      rw [Option.isSome_map]
      exact hstep
  · rw [Option.isSome_map]
    exact hstep

/-- **A thread that is at no lock and does not rest can go on.** -/
theorem enabled_of_not_rests (halive : m.fate = .alive) (hi : m.logic.Inv (findCallBack m.heap))
    {t : Thread} (hrest : ¬ m.toThreads.Rests t) (hwants : m.locks.wants t = none) :
    (m.step size f (nextAct t)).isSome = true := by
  unfold step
  rw [if_pos halive]
  cases t with
  | acceptor =>
    show m.acceptorStep.isSome = true
    unfold acceptorStep
    cases hpos : m.acceptor with
    | accepting => exact absurd hpos hrest
    | started uuid => simp [Threads.locks, hpos] at hwants
    | locked | inserted => rfl
  | pool i => exact poolStep_isSome (Bool.eq_false_iff.mpr hrest) hwants
  | worker => exact workerStep_isSome hi hrest hwants

/-- No thread of the server can take a step. -/
def Quiet (size : Nat) (f : Short × Bytes → Bytes × Short) (m : Machine) : Prop :=
  ∀ a, a.internal = true → m.step size f a = none

/-- Behind a thread that does not rest there is one that can go on: itself, or one that holds a
mutex somebody is blocked on. -/
theorem exists_enabled (h : (system size f).Reachable m) (hneg : m.Unbroken)
    (halive : m.fate = .alive) {t : Thread} (hrest : ¬ m.toThreads.Rests t) :
    ∃ t', (m.step size f (nextAct t')).isSome = true := by
  have hi := (reachable_data h hneg).dispatches.inv
  obtain ⟨t', hchain, hunblocked⟩ := blocked_behind_enabled h halive t
  refine ⟨t', ?_⟩
  cases hw : m.locks.wants t' with
  | some mutex => exact hunblocked mutex hw
  | none =>
    refine enabled_of_not_rests halive hi ?_ hw
    rcases hchain.cases_tail with heq | ⟨x, _, mutex, _, hheld⟩
    · rwa [heq]
    · exact fun hrest' => (reachable_inv h).rests_holds hrest' mutex hheld

/-- **Quiet is rest**: nobody is left blocked. -/
theorem quiet_rests (h : (system size f).Reachable m) (hneg : m.Unbroken)
    (halive : m.fate = .alive) (hquiet : m.Quiet size f) (t : Thread) : m.toThreads.Rests t := by
  by_contra hrest
  obtain ⟨t', hsome⟩ := exists_enabled h hneg halive hrest
  rw [hquiet (nextAct t') (by cases t' <;> rfl)] at hsome
  cases hsome

/-! ## Nothing is left on the way -/

/-- A law of the logic queue. -/
theorem reachable_logic {I : LogicSystem NodeRef CallBackArgs → Prop} (h₀ : I .init)
    (hstep : ∀ {find : NodeRef → Option CallBackArgs} {s s' : LogicSystem NodeRef CallBackArgs}
      {b : LogicSystem.Act NodeRef}, I s → LogicSystem.step .unlockFirst find s b = some s' → I s')
    (h : (system size f).Reachable m) : I m.logic := by
  refine h.invariant (I := fun m => I m.logic) h₀ fun {m m' a} hm hs => ?_
  obtain ⟨hspec, _⟩ := step_cases hs
  cases hspec with
  | @turn i uuid n data copyLen turn logic pos idle left body posted =>
    unfold postTurn at posted
    split at posted
    · cases posted
      exact hm
    · exact hstep hm posted
  | callbackReturn pos sender step => exact hstep hm step
  | queue act step => exact hstep hm step
  | accept | acceptError | acceptLock | acceptInsert | acceptUnlock | read | readError | writeError |
    write | passEnd | clearLock | clearErase | clearUnlock | writeLock | written | writeFailed |
    writeUnlock | sendLock | send | sendFailed | sendUnlock => exact hm

/-- The threads rest, and the worker waits. -/
structure Resting (m : Machine) : Prop where
  accepting : m.acceptor = .accepting
  free : ∀ i, m.free i = true
  waiting : m.logic.worker = .waiting

theorem quiet_resting (h : (system size f).Reachable m) (hneg : m.Unbroken)
    (halive : m.fate = .alive) (hlives : m.logic.destructor = .alive)
    (hquiet : m.Quiet size f) : m.Resting where
  accepting := quiet_rests h hneg halive hquiet .acceptor
  free i := quiet_rests h hneg halive hquiet (.pool i)
  waiting := by
    have hserves : m.logic.Serves :=
      reachable_logic LogicSystem.init_serves LogicSystem.step_serves h
    rcases quiet_rests h hneg halive hquiet .worker with hw | hw
    · exact hw
    · refine absurd hlives (hserves.told (hserves.drains ?_))
      rw [hw]
      trivial

/-- A worker that waits has nothing in its queue, when nobody is on the way to wake it. -/
theorem Resting.empty (h : m.Resting) (hd : m.Dispatches f) : m.logic.msgQueue = [] := by
  by_contra hne
  obtain ⟨i, hnotify⟩ := hd.inv.wake h.waiting hne
  simp only [LogicSystem.willNotify, (Threads.free_idle (h.free i)).2] at hnotify

/-- Everything that was posted has been dealt with. -/
theorem Resting.replied (h : m.Resting) (hd : m.Dispatches f) : m.replied = m.logic.posted := by
  have hempty := h.empty hd
  have hbooked : m.logic.posted = m.logic.finished ++ m.logic.msgQueue := hd.booked
  rw [hbooked, hempty]
  unfold Machine.replied LogicSystem.handled sentInCall
  rw [h.waiting, List.append_nil]

/-- A thread that is free has posted every message that was framed. -/
theorem posted_of_free {uuid : Nat} (hfree : m.free (ioService size uuid) = true)
    (hr : m.Receives size) :
    (nodesOf m.logic.posted uuid).map (messageAt m.heap) = (m.framed uuid).map some := by
  obtain ⟨hpool, hidle⟩ := Threads.free_idle hfree
  obtain ⟨done, hread, hstage⟩ := (hr.own uuid).parsed
  have hpos : m.pos size uuid = none := by
    unfold pos
    rw [hpool]
    rfl
  have hposted : m.handedBy size uuid = nodesOf m.logic.posted uuid := by
    unfold handedBy LogicSystem.handedOver LogicSystem.pendingPost
    rw [hidle, List.append_nil]
  rw [hpos] at hstage
  cases hstage with
  | waiting parse ready => rw [← hposted, hread, ← parse, framed]

theorem Resting.sends (h : m.Resting) (hi : Inv size f m) (uuid : Nat) :
    (m.conns uuid).sends = ((m.framed uuid).filter (·.1 = msgHelloWord)).map f := by
  rw [hi.dispatches.sent uuid, h.replied hi.dispatches]
  exact ServerV3.Machine.repliesTo_eq (posted_of_free (h.free _) hi.receives)

/-! ## Dying -/

/-- No node can be built for the reply. -/
def Deadly (f : Short × Bytes → Bytes × Short) (msg : Short × Bytes) : Prop :=
  32763 < (f msg).1.length % 65536

/-- The message in a callback was framed in its session's stream. -/
theorem running_framed {n : NodeRef} {uuid : Nat} {msg : Short × Bytes} {d : Bool}
    (hi : Inv size f m) (hw : m.logic.worker = .running n (uuid, msg) d) :
    msg ∈ m.framed uuid ∧ msg.1 = msgHelloWord := by
  have hfind := hi.dispatches.inv.inCallBack n _ d hw
  obtain rfl : n.1 = uuid := (findCallBack_fst hfind).symm
  -- it was handed over by the session's thread
  have hfront := hi.dispatches.inv.front
  simp only [LogicSystem.picked, hw] at hfront
  have hposted : n ∈ m.logic.posted := by
    have hbooked : m.logic.posted = m.logic.finished ++ m.logic.msgQueue := hi.dispatches.booked
    rw [hbooked]
    exact List.mem_append_right _ (List.mem_of_mem_head? hfront)
  have hnode : n.2 ∈ m.handedBy size n.1 :=
    List.mem_map_of_mem (List.mem_filter.mpr
      ⟨List.mem_append_left _ hposted, decide_eq_true rfl⟩)
  obtain ⟨done, hread, hdone⟩ := hi.receives.handed_prefix n.1
  obtain ⟨msg', hmem, hmsg⟩ : ∃ msg' ∈ done, messageAt m.heap n.2 = some msg' := by
    have hin : messageAt m.heap n.2 ∈ done.map some := by
      rw [← hread]
      exact List.mem_map_of_mem hnode
    obtain ⟨msg', hmem, heq⟩ := List.mem_map.mp hin
    exact ⟨msg', hmem, heq.symm⟩
  rw [ServerV3.Machine.findCallBack_of_message hmsg] at hfind
  split at hfind
  · rename_i hhello
    cases hfind
    exact ⟨hdone.subset hmem, hhello⟩
  · cases hfind

/-- A pass on a stream without negative lengths is no danger. -/
theorem fateAfter_eq {i uuid n : Nat} {data : Bytes} {copyLen : Int} {turn : Turn Short}
    (h : (system size f).Reachable m) (hneg : m.Unbroken)
    (hpos : m.pool i = .inHandleRead uuid data copyLen n)
    (hturn : loopBody receiver data (m.loopAt uuid copyLen n) = turn) :
    m.fateAfter turn = m.fate := by
  obtain ⟨rfl, _⟩ := (reachable_atHome h).handlers i uuid (by rw [hpos]; rfl)
  obtain ⟨done, _, hstage⟩ := ((reachable_data h hneg).receives.own uuid).parsed
  rw [Machine.pos, hpos, show (PoolPos.inHandleRead uuid data copyLen n).net.at uuid =
    some (data, copyLen, n) from ServerV3.NetPos.at_self ..] at hstage
  cases hstage with
  | reading parse coupled remains more reads =>
    have hspec : TurnSpec receiver ref data _ (loopBody receiver data (m.loopAt uuid copyLen n)) :=
      loopBody_spec ServerV3.receiver_reads coupled remains
    rw [hturn] at hspec
    cases hspec with
    | wait | reject | last | more => rfl
    | broken next =>
      rw [Lib.Format.parse_broken next] at parse
      refine absurd ?_ (hneg uuid)
      rw [parse]

/-- **The process dies of a reply**, to a message that was framed. -/
theorem step_deadly {a : Act} (h : (system size f).Reachable m) (hneg : m.Unbroken)
    (hstep : m.step size f a = some m') (hdead : m'.fate ≠ .alive) :
    ∃ uuid, ∃ msg ∈ m.framed uuid, msg.1 = msgHelloWord ∧ Deadly f msg := by
  obtain ⟨hspec, halive⟩ := step_cases hstep
  cases hspec with
  | turn pos idle left body posted =>
    exact absurd ((fateAfter_eq h hneg pos body).trans halive) hdead
  | @writeFailed i uuid w pos idle fails =>
    obtain ⟨rfl, _⟩ := (reachable_atHome h).handlers i uuid (by rw [pos]; rfl)
    obtain ⟨es, q, hdone⟩ :=
      (reachable_writes h uuid).pops (by rw [completing, pos]; exact if_pos rfl)
    rw [fails] at hdone
    cases hdone
  | @sendFailed n uuid msg d fate pos sender fails dead =>
    obtain ⟨hmem, hhello⟩ := running_framed (reachable_data h hneg) pos
    refine ⟨uuid, msg, hmem, hhello, Nat.not_le.mp fun hfits => ?_⟩
    obtain ⟨q, hq⟩ := sendString_returned_iff.mpr (Or.inr hfits)
    exact fails q hq
  | accept | acceptError | acceptLock | acceptInsert | acceptUnlock | read | readError | writeError |
    write | passEnd | clearLock | clearErase | clearUnlock | writeLock | written | writeUnlock |
    sendLock | send | sendUnlock | callbackReturn | queue => exact absurd halive hdead

theorem reachable_deadly (h : (system size f).Reachable m) (hneg : m.Unbroken)
    (hdead : m.fate ≠ .alive) :
    ∃ uuid, ∃ msg ∈ m.framed uuid, msg.1 = msgHelloWord ∧ Deadly f msg := by
  cases h with
  | init => exact absurd rfl hdead
  | @step m₀ _ a hr hstep =>
    obtain ⟨uuid, msg, hmem, hrest⟩ := step_deadly hr (unbroken_before hstep hneg) hstep hdead
    obtain ⟨b, hb⟩ := step_received hstep uuid
    refine ⟨uuid, msg, ?_, hrest⟩
    rw [framed, hb]
    exact Lib.Format.mem_msgs_append hmem

/-! ## Coming to rest -/

/-- The threads bring nothing in by themselves, and do not end the singleton. -/
theorem internal_frame {a : Act} (ha : a.internal = true) (hstep : m.step size f a = some m') :
    (∀ s, (m'.conns s).received = (m.conns s).received) ∧
      m'.logic.destructor = m.logic.destructor := by
  obtain ⟨hspec, _⟩ := step_cases hstep
  cases hspec with
  | accept | acceptError | read | readError | writeError | write => cases ha
  | @turn i uuid n data copyLen turn logic pos idle left body posted =>
    refine ⟨field_update Conn.received rfl, ?_⟩
    unfold postTurn at posted
    split at posted
    · cases posted
      rfl
    · exact (LogicSystem.step_aside posted nofun nofun).dtor
  | written | send => exact ⟨field_update Conn.received rfl, rfl⟩
  | callbackReturn pos sender step =>
    have hstep : m.logic.workerStep (findCallBack m.heap) = some _ := step
    exact ⟨fun _ => rfl, (LogicSystem.workerStep_frame hstep).2⟩
  | queue act step =>
    refine ⟨fun _ => rfl, ?_⟩
    cases act with
    | producer calling => exact (LogicSystem.step_aside step nofun nofun).dtor
    | worker out =>
      have hstep : m.logic.workerStep (findCallBack m.heap) = some _ := step
      exact (LogicSystem.workerStep_frame hstep).2
    | spurious | destructor => cases ha
  | acceptLock | acceptInsert | acceptUnlock | passEnd | clearLock | clearErase | clearUnlock |
    writeLock | writeFailed | writeUnlock | sendLock | sendFailed | sendUnlock =>
    exact ⟨fun _ => rfl, rfl⟩

theorem internal_run {as : List Act} (has : ∀ a ∈ as, a.internal = true)
    (hrun : (system size f).run m as = some m') :
    (∀ s, (m'.conns s).received = (m.conns s).received) ∧
      m'.logic.destructor = m.logic.destructor := by
  refine Lib.System.run_keeps (A := fun a => a.internal = true)
    (G := fun d => (∀ s, (d.conns s).received = (m.conns s).received) ∧
      d.logic.destructor = m.logic.destructor) (fun ha hG hs => ?_) has hrun ⟨fun _ => rfl, rfl⟩
  obtain ⟨hrecv, hdest⟩ := internal_frame ha hs
  exact ⟨fun s => (hrecv s).trans (hG.1 s), hdest.trans hG.2⟩

theorem unbroken_of_received (hneg : m.Unbroken)
    (hrecv : ∀ s, (m'.conns s).received = (m.conns s).received) : m'.Unbroken := by
  intro s
  rw [hrecv s]
  exact hneg s

/-- **Every request is answered, or the process dies of one.** Let nothing more come in, at any
point of any run with a pool that is not empty, on streams without negative lengths and while the
singleton lives. Whatever the order of their steps, the threads come to rest after at most `work` of
them. At rest the process lives, and for every session `Send` has been called with the replies to
all the `MSG_HELLO_WORD` messages that are framed in what it has received, in order, and with
nothing else; or it is dead, and no node can be built for the reply to one of those messages. -/
theorem every_request_answered (hsize : 0 < size) (h : (system size f).Reachable m)
    (hneg : m.Unbroken) (hlives : m.logic.destructor = .alive) :
    (∃ as m', (∀ a ∈ as, a.internal = true) ∧ (system size f).run m as = some m' ∧
      m'.Quiet size f) ∧
    ∀ as m', (∀ a ∈ as, a.internal = true) → (system size f).run m as = some m' →
      as.length ≤ m.work size ∧
      (m'.Quiet size f → (m'.fate = .alive ∧ ∀ uuid, (m'.conns uuid).sends =
          ((m.framed uuid).filter (·.1 = msgHelloWord)).map f) ∨
        (m'.fate ≠ .alive ∧
          ∃ uuid, ∃ msg ∈ m.framed uuid, msg.1 = msgHelloWord ∧ Deadly f msg)) := by
  constructor
  · obtain ⟨as, m', has, hrun, _, hquiet⟩ := (potential f hsize).exists_quiet
      (fun ha hgood hs => unbroken_of_received hgood (internal_frame ha hs).1) h hneg
    exact ⟨as, m', has, hrun, hquiet⟩
  · intro as m' has hrun
    obtain ⟨hrecv, hdest⟩ := internal_run has hrun
    have hneg' : m'.Unbroken := unbroken_of_received hneg hrecv
    have hreach := h.run hrun
    have hframed : ∀ uuid, m'.framed uuid = m.framed uuid := fun uuid => by
      rw [framed, framed, hrecv uuid]
    refine ⟨(potential f hsize).run_length h hrun hneg' has, fun hquiet => ?_⟩
    by_cases halive : m'.fate = .alive
    · have hrest := quiet_resting hreach hneg' halive (hdest.trans hlives) hquiet
      refine Or.inl ⟨halive, fun uuid => ?_⟩
      rw [hrest.sends (reachable_data hreach hneg') uuid, hframed]
    · obtain ⟨uuid, msg, hmem, hdeadly⟩ := reachable_deadly hreach hneg' halive
      rw [hframed] at hmem
      exact Or.inr ⟨halive, uuid, msg, hmem, hdeadly⟩

/-- A request has just been read, and a second one as far as its length. -/
def justRead : List Act :=
  [.handleAccept false, .acceptor, .acceptor, .acceptor,
    .handleRead 0 [3, 0xe9, 0, 2, 0x68, 0x69, 3, 0xe9, 0, 1]]

theorem every_request_answered_justRead : ∃ m,
    (system 2 fun msg => (msg.2, msg.1)).run init justRead = some m ∧ (m.conns 0).sends = [] ∧
      ∃ as m', (system 2 fun msg => (msg.2, msg.1)).run m as = some m' ∧
        as.length ≤ 254 ∧ m'.fate = .alive ∧ (m'.conns 0).sends = [([0x68, 0x69], 1001)] := by
  obtain ⟨m, hm, hnone, hlives, hwork, h₀, hrest⟩ : ∃ m,
      (system 2 fun msg => (msg.2, msg.1)).run init justRead = some m ∧
        (m.conns 0).sends = [] ∧ m.logic.destructor = .alive ∧ m.work 2 = 254 ∧
        (m.conns 0).received = [3, 0xe9, 0, 2, 0x68, 0x69, 3, 0xe9, 0, 1] ∧
        ∀ s, (m.conns (s + 1)).received = [] := ⟨_, rfl, rfl, rfl, rfl, rfl, fun _ => rfl⟩
  have hparse : ref.parse [3, 0xe9, 0, 2, 0x68, 0x69, 3, 0xe9, 0, 1] =
      ⟨[(1001, [0x68, 0x69])], .pending [3, 0xe9, 0, 1]⟩ := by decide
  obtain ⟨hneg, hframed⟩ := framed_first h₀ hrest hparse
  obtain ⟨⟨as, m', has, hrun, hquiet⟩, hall⟩ :=
    every_request_answered Nat.two_pos (.of_run hm) hneg hlives
  obtain ⟨hlen, hends⟩ := hall as m' has hrun
  rcases hends hquiet with ⟨halive, hsends⟩ | ⟨_, s, msg, hmem, _, hdeadly⟩
  · refine ⟨m, hm, hnone, as, m', hrun, by rwa [← hwork], halive, ?_⟩
    rw [hsends, hframed]
    rfl
  · -- the reply is short
    rw [hframed] at hmem
    split at hmem
    · rw [List.mem_singleton.mp hmem] at hdeadly
      exact absurd hdeadly (by decide : ¬ 32763 < 2 % 65536)
    · cases hmem

end Machine
end ServerV3Mt
end AsyncEchoServer
