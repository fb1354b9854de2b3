import AsyncEchoServer.ServerV3.Receive

/-!
# `ServerV3/Order.lean` — replies in order, session by session

The dispatch half of the machine's invariant, and the two together. The `Send` calls are those of
the nodes the worker is done with; these are a prefix of what the network thread has handed over;
and that reads as the messages of each session's stream. `send_order` puts it together: the
replies of one session are determined by its own stream and by how many of its nodes the worker
is done with. `step_conns` says what one step can do to one session; that streams only grow, and
that every session's send queue keeps to the protocol of `Session/SendQueue.lean`, come from it.
-/

set_option autoImplicit false

namespace AsyncEchoServer
namespace ServerV3

variable {f : Short × Bytes → Bytes × Short} {heap heap' : Heap Short} {conns conns' : Nat → Conn}
  {logic logic' : LogicSystem NodeRef CallBackArgs}

/-! ## The worker -/

/-- The replies to one session's calls. -/
def repliesTo (f : Short × Bytes → Bytes × Short) (uuid : Nat) (calls : List CallBackArgs) :
    List (Bytes × Short) := (calls.filter (·.1 = uuid)).map fun c => f c.2

structure Dispatches (f : Short × Bytes → Bytes × Short) (heap : Heap Short) (conns : Nat → Conn)
    (logic : LogicSystem NodeRef CallBackArgs) : Prop where
  inv : logic.Inv (findCallBack heap)
  booked : logic.Booked
  sent : ∀ s, (conns s).sends = repliesTo f s (logic.handled.filterMap (findCallBack heap))

theorem repliesTo_append (uuid : Nat) (a b : List CallBackArgs) :
    repliesTo f uuid (a ++ b) = repliesTo f uuid a ++ repliesTo f uuid b := by
  rw [repliesTo, List.filter_append, List.map_append]
  rfl

/-- A step of the queue after which the worker is done with the same nodes. -/
theorem Dispatches.step {a : LogicSystem.Act NodeRef} (h : Dispatches f heap conns logic)
    (hstep : LogicSystem.step .notifyUnderLock (findCallBack heap) logic a = some logic')
    (hhandled : logic'.handled = logic.handled) : Dispatches f heap conns logic' where
  inv := LogicSystem.step_inv h.inv hstep
  booked := (LogicSystem.step_queue h.inv hstep).booked h.booked
  sent s := by rw [hhandled, h.sent s]

/-- The worker's steps outside its callbacks. -/
theorem Dispatches.worker (h : Dispatches f heap conns logic)
    (hrun : ∀ n c d, logic.worker ≠ .running n c d)
    (hstep : logic.workerStep (findCallBack heap) = some logic') :
    Dispatches f heap conns logic' where
  inv := h.inv.workerStep hstep
  booked := (LogicSystem.workerStep_queue h.inv hstep).booked h.booked
  sent s := by
    rw [h.sent s]
    rcases LogicSystem.workerStep_handled hrun hstep with heq | ⟨n, hfind, heq⟩
    · rw [heq]
    · rw [heq, List.filterMap_append, List.filterMap_cons_none hfind, List.filterMap_nil,
        List.append_nil]

/-- The return from a callback, whose reply has been sent. -/
theorem Dispatches.returned {n : NodeRef} {uuid : Nat} {msg : Short × Bytes} {d : Bool}
    (h : Dispatches f heap conns logic) (hw : logic.worker = .running n (uuid, msg) d)
    (hstep : logic.workerStep (findCallBack heap) = some logic')
    (hself : (conns' uuid).sends = (conns uuid).sends ++ [f msg])
    (hother : ∀ s, s ≠ uuid → (conns' s).sends = (conns s).sends) :
    Dispatches f heap conns' logic' where
  inv := h.inv.workerStep hstep
  booked := (LogicSystem.workerStep_queue h.inv hstep).booked h.booked
  sent s := by
    rw [LogicSystem.workerStep_returned hw hstep, List.filterMap_append,
      List.filterMap_cons_some (h.inv.inCallBack n _ d hw), List.filterMap_nil, repliesTo_append,
      ← h.sent s]
    by_cases hs : s = uuid
    · subst hs
      rw [hself, repliesTo, List.filter_cons_of_pos (by simp)]
      rfl
    · rw [hother s hs, repliesTo, List.filter_cons_of_neg (by simpa using Ne.symm hs)]
      exact (List.append_nil _).symm

/-- The network thread may do as it likes with nodes that were not posted. -/
theorem Dispatches.of_kept (h : Dispatches f heap conns logic)
    (hkept : ∀ n ∈ logic.posted, heap'[n.2]? = heap[n.2]?)
    (hsends : ∀ s, (conns' s).sends = (conns s).sends) : Dispatches f heap' conns' logic := by
  have hfind : ∀ n ∈ logic.posted, findCallBack heap' n = findCallBack heap n := by
    intro n hn
    rw [findCallBack, findCallBack, hkept n hn]
  refine ⟨h.inv.congr h.booked hfind, h.booked, ?_⟩
  intro s
  rw [hsends s, h.sent s]
  refine congrArg (repliesTo f s) (List.filterMap_congr ?_)
  intro n hn
  exact (hfind n ((h.inv.handled_prefix h.booked).subset hn)).symm

/-! ## The machine -/

structure Machine.Inv (f : Short × Bytes → Bytes × Short) (m : Machine) : Prop where
  receives : Receives m.heap m.conns m.net (m.logic.handedOver 0)
  dispatches : Dispatches f m.heap m.conns m.logic

/-- No header declares a negative length. -/
def Machine.Unbroken (m : Machine) : Prop :=
  ∀ s, (ref.parse (m.conns s).received).tail ≠ .broken

namespace Machine

variable {m m' : Machine}

theorem init_inv : Inv f init where
  receives :=
    { fills := fun _ _ hq => Bool.noConfusion hq.1
      apart := fun _ _ _ hq => Bool.noConfusion hq.1
      settled := fun _ hn => absurd hn List.not_mem_nil
      parsed := fun _ => ⟨[], rfl, .waiting (by rw [init, Lib.Format.parse_nil]) fun _ =>
        ⟨rfl, [], by rw [init, Lib.Format.parse_nil], Session.fresh_coupled receiver_reads []⟩⟩ }
  dispatches := ⟨LogicSystem.init_inv, rfl, fun _ => rfl⟩

/-- A field that the new state of a session leaves as it was. -/
theorem field_update {α : Type} {conns : Nat → Conn} {uuid : Nat} {c' : Conn} (g : Conn → α)
    (h : g c' = g (conns uuid)) (s : Nat) : g (Function.update conns uuid c' s) = g (conns s) := by
  by_cases hs : s = uuid
  · rw [hs, Function.update_self, h]
  · rw [Function.update_of_ne hs]

/-- The worker's return from a callback whose reply has been sent. -/
theorem Inv.replied {n : NodeRef} {uuid : Nat} {msg : Short × Bytes} {d : Bool}
    {q : SendQueue SendNode} {logic' : LogicSystem NodeRef CallBackArgs} (hi : Inv f m)
    (hw : m.logic.worker = .running n (uuid, msg) d)
    (hstep : m.logic.workerStep (findCallBack m.heap) = some logic') :
    Inv f { m.setConn uuid { m.conns uuid with
      sendQueue := q, sends := (m.conns uuid).sends ++ [f msg] } with logic := logic' } where
  receives := by
    show Receives m.heap (Function.update m.conns uuid _) m.net (logic'.handedOver 0)
    rw [LogicSystem.workerStep_handedOver hstep]
    exact hi.receives.of_conns (field_update Conn.session rfl) (field_update Conn.reads rfl)
      (field_update Conn.received rfl)
  dispatches := by
    refine hi.dispatches.returned hw hstep ?_ ?_
    · exact congrArg Conn.sends (Function.update_self uuid _ m.conns)
    · intro s hs
      exact congrArg Conn.sends (Function.update_of_ne hs _ m.conns)

/-- Only a pass hands a node over. -/
theorem queue_handedOver {a : Act} {b : LogicSystem.Act NodeRef}
    {logic : LogicSystem NodeRef CallBackArgs} (act : queueAct a = some b)
    (step : m.logicStep b = some logic) : logic.handedOver 0 = m.logic.handedOver 0 := by
  cases a with
  | post =>
    cases act
    have hstep : m.logic.producerStep .notifyUnderLock 0 = some logic := step
    exact LogicSystem.producerStep_handedOver hstep
  | worker =>
    cases act
    exact LogicSystem.workerStep_handedOver step
  | spurious =>
    cases act
    exact LogicSystem.spurious_handedOver step
  | destructor =>
    cases act
    exact LogicSystem.destructorStep_handedOver step
  | handleRead | handleReadError | pass | handleWrite => cases act

/-- Steps of the queue that are no callback's return. -/
theorem Inv.queue {a : Act} {b : LogicSystem.Act NodeRef}
    {logic' : LogicSystem NodeRef CallBackArgs} (hi : Inv f m) (hact : queueAct a = some b)
    (hout : a = .worker → ∀ n c d, m.logic.worker ≠ .running n c d)
    (hstep : m.logicStep b = some logic') : Inv f { m with logic := logic' } where
  receives := by
    show Receives m.heap m.conns m.net (logic'.handedOver 0)
    rw [queue_handedOver hact hstep]
    exact hi.receives
  dispatches := by
    cases a with
    | worker =>
      cases hact
      exact hi.dispatches.worker (hout rfl) hstep
    | post =>
      cases hact
      have hstep' : m.logic.producerStep .notifyUnderLock 0 = some logic' := hstep
      exact hi.dispatches.step hstep (LogicSystem.producerStep_handled hstep')
    | spurious =>
      cases hact
      exact hi.dispatches.step hstep (LogicSystem.spurious_handled hstep)
    | destructor =>
      cases hact
      exact hi.dispatches.step hstep (LogicSystem.destructorStep_handled hstep)
    | handleRead | handleReadError | pass | handleWrite => cases hact

/-- A pass of `HandleRead`, and the call of `PostMsgtoQueue` in it. -/
theorem Inv.turn {uuid n : Nat} {data : Bytes} {copyLen : Int} {turn : Turn Short}
    {logic' : LogicSystem NodeRef CallBackArgs} (hi : Inv f m) (hneg : m.Unbroken)
    (hnet : m.net = .inHandleRead uuid data copyLen n)
    (hturn : loopBody receiver data (m.loopAt uuid copyLen n) = turn)
    (hpost : m.postTurn uuid turn = some logic') (fate : Fate) :
    Inv f {
      heap := (Turn.after turn).heap
      conns := Function.update m.conns uuid (connAfter (m.conns uuid) turn)
      net := nextPos uuid data turn
      logic := logic'
      fate := fate } := by
  have hrecv := hi.receives
  rw [hnet] at hrecv
  have hframe := loopBody_frame receiver data (m.loopAt uuid copyLen n)
  rw [hturn] at hframe
  have hsess : (connAfter (m.conns uuid) turn).session = (Turn.after turn).session := rfl
  have hreads : (connAfter (m.conns uuid) turn).reads = (m.conns uuid).reads + armed turn.1 := rfl
  obtain ⟨hle, hnext⟩ := hrecv.pass (hneg uuid) hturn hsess hreads rfl
  have hkept : ∀ k ∈ m.logic.posted, (Turn.after turn).heap[k.2]? = m.heap[k.2]? := by
    intro k hk
    have hframe : Frame m.heap (m.conns uuid).session turn.1 (Turn.after turn).heap _ := hframe
    exact hi.receives.kept hframe (List.mem_append_left _ hk)
  have hdisp : Dispatches f (Turn.after turn).heap
      (Function.update m.conns uuid (connAfter (m.conns uuid) turn)) m.logic :=
    hi.dispatches.of_kept hkept (field_update Conn.sends rfl)
  unfold postTurn at hpost
  cases hdel : delivered turn.1 with
  | nil =>
    rw [hdel] at hpost hnext
    cases hpost
    rw [List.map_nil, List.append_nil] at hnext
    exact ⟨hnext, hdisp⟩
  | cons p ps =>
    rw [hdel] at hpost hnext hle
    obtain rfl : ps = [] := List.eq_nil_of_length_eq_zero (by simpa using hle)
    have hstep : LogicSystem.step .notifyUnderLock (findCallBack (Turn.after turn).heap) m.logic
      (.post 0 (uuid, p)) = some logic' := hpost
    refine ⟨?_, hdisp.step hstep (LogicSystem.post_handled hstep)⟩
    show Receives _ _ _ (logic'.handedOver 0)
    rw [LogicSystem.post_handedOver hstep]
    exact hnext

theorem networkFree_idle (h : m.networkFree = true) : m.net = .idle := by
  unfold networkFree at h
  split at h
  · assumption
  · cases h

theorem step_inv {a : Act} (hi : Inv f m) (hneg : m.Unbroken) (h : step f m a = some m') :
    Inv f m' := by
  obtain ⟨hspec, _⟩ := step_cases h
  cases hspec with
  | read free listens ne le =>
    have hrecv := hi.receives
    rw [networkFree_idle free] at hrecv
    exact ⟨hrecv.read listens ne le rfl rfl rfl,
      hi.dispatches.of_kept (fun _ _ => rfl) (field_update Conn.sends rfl)⟩
  | readError free listens =>
    have hrecv := hi.receives
    have hidle := networkFree_idle free
    rw [hidle] at hrecv
    refine ⟨?_, hi.dispatches.of_kept (fun _ _ => rfl) (field_update Conn.sends rfl)⟩
    show Receives m.heap _ m.net (m.logic.handedOver 0)
    rw [hidle]
    exact hrecv.readError listens rfl rfl rfl
  | turn pos idle left body posted => exact hi.turn hneg pos body posted _
  | passEnd pos idle =>
    have hrecv := hi.receives
    rw [pos] at hrecv
    exact absurd hrecv.bytes_left (Nat.lt_irrefl 0)
  | write free done =>
    exact ⟨hi.receives.of_conns (field_update Conn.session rfl) (field_update Conn.reads rfl)
      (field_update Conn.received rfl),
      hi.dispatches.of_kept (fun _ _ => rfl) (field_update Conn.sends rfl)⟩
  | replied pos sent ret => exact hi.replied pos ret
  | sendFailed pos fails => exact ⟨hi.receives, hi.dispatches⟩
  | queue act out ret => exact hi.queue act out ret

/-! ## One session's part in a step -/

/-- What a step of the machine can do to one session. -/
inductive ConnStep (f : Short × Bytes → Bytes × Short) (c : Conn) : Conn → Prop where
  | same : ConnStep f c c
  | received (chunk : Bytes) (reads : Nat) :
      ConnStep f c { c with reads := reads, received := c.received ++ chunk }
  | parsed (session : Session) (reads : Nat) :
      ConnStep f c { c with session := session, reads := reads }
  | written {i : Nat} {error : Bool} {q : SendQueue SendNode}
      (h : c.sendQueue.step (.handleWrite i error) = some q) :
      ConnStep f c { c with sendQueue := q }
  | replied {msg : Short × Bytes} {q : SendQueue SendNode}
      (h : sendString (f msg).1 (f msg).2 c.sendQueue = some (.returned, q)) :
      ConnStep f c { c with sendQueue := q, sends := c.sends ++ [f msg] }

/-- A handler touches its own session only. -/
theorem ConnStep.update {conns : Nat → Conn} {uuid : Nat} {c' : Conn}
    (h : ConnStep f (conns uuid) c') (s : Nat) :
    ConnStep f (conns s) (Function.update conns uuid c' s) := by
  by_cases hs : s = uuid
  · subst hs
    rw [Function.update_self]
    exact h
  · rw [Function.update_of_ne hs]
    exact .same

theorem step_conns {a : Act} (h : step f m a = some m') (s : Nat) :
    ConnStep f (m.conns s) (m'.conns s) := by
  obtain ⟨hspec, _⟩ := step_cases h
  cases hspec with
  | read free listens ne le => exact ConnStep.update (.received _ _) s
  | readError free listens => exact ConnStep.update (.parsed _ _) s
  | turn pos idle left body posted => exact ConnStep.update (.parsed _ _) s
  | write free done => exact ConnStep.update (.written done) s
  | replied pos sent ret => exact ConnStep.update (.replied sent) s
  | passEnd pos idle => exact .same
  | sendFailed pos fails => exact .same
  | queue act out ret => exact .same

/-- What a session has received is only added to. -/
theorem step_received {a : Act} (h : step f m a = some m') (s : Nat) :
    ∃ b, (m'.conns s).received = (m.conns s).received ++ b := by
  have hconn := step_conns h s
  generalize m'.conns s = c' at hconn ⊢
  cases hconn with
  | received chunk reads => exact ⟨chunk, rfl⟩
  | same | parsed | written | replied => exact ⟨[], (List.append_nil _).symm⟩

/-- A session's send queue only sees calls of `Send` and completions, so in the machine it keeps
to the send-queue protocol, whatever the streams. -/
theorem reachable_sendQueue (h : (system f).Reachable m) (s : Nat) :
    sendSystem.Reachable (m.conns s).sendQueue := by
  induction h with
  | init => exact .init
  | @step m m' a _ hstep ih =>
    have hstep' : step f m a = some m' := hstep
    have hconn := step_conns hstep' s
    generalize m'.conns s = c' at hconn
    cases hconn with
    | same | received | parsed => exact ih
    | @written i error q hq => exact ih.step (a := .handleWrite i error) hq
    | @replied msg q hq =>
      refine ih.step (a := .sendString (f msg).1 (f msg).2) ?_
      show (sendString (f msg).1 (f msg).2 _).map Prod.snd = some q
      rw [hq]
      rfl

theorem reachable_inv (h : (system f).Reachable m) (hneg : m.Unbroken) : Inv f m := by
  induction h with
  | init => exact init_inv
  | @step m m' a _ hstep ih =>
    have hstep' : step f m a = some m' := hstep
    have hbefore : m.Unbroken := by
      intro s
      obtain ⟨b, hb⟩ := step_received hstep' s
      have hs := hneg s
      rw [hb] at hs
      exact tail_ne_broken_of_append hs
    exact step_inv (ih hbefore) hbefore hstep'

/-! ## Order and isolation -/

theorem findCallBack_of_message {heap : Heap Short} {n : NodeRef} {msg : Short × Bytes}
    (h : messageAt heap n.2 = some msg) :
    findCallBack heap n = if msg.1 = msgHelloWord then some (n.1, msg) else none := by
  obtain ⟨node, hget, rfl⟩ := Option.map_eq_some_iff.mp h
  rw [findCallBack, hget]
  rfl

/-- A session's replies are those to its own messages. -/
theorem repliesTo_eq {heap : Heap Short} {uuid : Nat} {ns : List NodeRef}
    {msgs : List (Short × Bytes)}
    (h : (nodesOf ns uuid).map (messageAt heap) = msgs.map some) :
    repliesTo f uuid (ns.filterMap (findCallBack heap)) =
      (msgs.filter (·.1 = msgHelloWord)).map f := by
  induction ns generalizing msgs with
  | nil =>
    rw [List.eq_nil_of_map_eq_nil (f := some) h.symm]
    rfl
  | cons n ns ih =>
    by_cases hn : n.1 = uuid
    · rw [nodesOf, List.filter_cons_of_pos (by simpa using hn), List.map_cons, List.map_cons] at h
      obtain ⟨msg, rest, rfl, hmsg, hrest⟩ := List.map_eq_cons_iff.mp h.symm
      have hfind := findCallBack_of_message hmsg.symm
      by_cases hid : msg.1 = msgHelloWord
      · rw [if_pos hid] at hfind
        rw [List.filterMap_cons_some hfind, repliesTo, List.filter_cons_of_pos (by simpa using hn),
          List.filter_cons_of_pos (by simpa using hid), List.map_cons, List.map_cons]
        exact congrArg (f msg :: ·) (ih hrest.symm)
      · rw [if_neg hid] at hfind
        rw [List.filterMap_cons_none hfind, List.filter_cons_of_neg (by simpa using hid)]
        exact ih hrest.symm
    · rw [nodesOf, List.filter_cons_of_neg (by simpa using hn)] at h
      cases hfind : findCallBack heap n with
      | none =>
        rw [List.filterMap_cons_none hfind]
        exact ih h
      | some c =>
        have hsession : c.1 = n.1 := by
          obtain ⟨node, _, hcall⟩ := Option.bind_eq_some_iff.mp hfind
          unfold LogicNode.findCallBack at hcall
          split at hcall <;> cases hcall
          rfl
        rw [List.filterMap_cons_some hfind, repliesTo,
          List.filter_cons_of_neg (by rw [hsession]; simpa using hn)]
        exact ih h

/-- The messages framed in what a session has received. -/
def framed (m : Machine) (uuid : Nat) : List (Short × Bytes) :=
  (ref.parse (m.conns uuid).received).msgs

/-- How many of the session's nodes the worker is done with. -/
def finishedOf (m : Machine) (uuid : Nat) : Nat := (nodesOf m.logic.handled uuid).length

/-- What a session has handed over are the first of its messages. -/
theorem Inv.handed_prefix (hi : Inv f m) (uuid : Nat) :
    ∃ done, (nodesOf (m.logic.handedOver 0) uuid).map (messageAt m.heap) = done.map some ∧
      done <+: m.framed uuid := by
  obtain ⟨done, hread, hstage⟩ := hi.receives.parsed uuid
  refine ⟨done, hread, ?_⟩
  generalize hpos : m.net.at uuid = pos at hstage
  unfold framed
  cases hstage with
  | waiting parse ready => exact ⟨[], by rw [parse, List.append_nil]⟩
  | reading parse coupled remains more reads =>
    rw [parse]
    exact List.prefix_append _ _

/-- **Order and isolation.** On streams without negative lengths, in every reachable state, the
`Send` calls made on a session are `f` of the `MSG_HELLO_WORD` messages among the first `k` its
own stream frames, where the worker is done with `k` of its nodes; and its nodes read, now, as
the messages they were framed from. -/
theorem send_order (h : (system f).Reachable m) (hneg : m.Unbroken) (uuid : Nat) :
    m.finishedOf uuid ≤ (m.framed uuid).length ∧
      (m.conns uuid).sends =
        (((m.framed uuid).take (m.finishedOf uuid)).filter (·.1 = msgHelloWord)).map f ∧
      (nodesOf (m.logic.handedOver 0) uuid).map (messageAt m.heap) <+: (m.framed uuid).map some := by
  have hi := reachable_inv h hneg
  obtain ⟨done, hread, hdone⟩ := hi.handed_prefix uuid
  -- the nodes the worker is done with are the first that were handed over
  have hpre : nodesOf m.logic.handled uuid <+: nodesOf (m.logic.handedOver 0) uuid := by
    have hposted := hi.dispatches.inv.handled_prefix hi.dispatches.booked
    exact ((hposted.trans (List.prefix_append _ _)).filter _).map _
  have hlen : (nodesOf (m.logic.handedOver 0) uuid).length = done.length := by
    have hlen := congrArg List.length hread
    rwa [List.length_map, List.length_map] at hlen
  have hle : m.finishedOf uuid ≤ done.length := by
    rw [← hlen]
    exact hpre.length_le
  have htake : (m.framed uuid).take (m.finishedOf uuid) = done.take (m.finishedOf uuid) := by
    obtain ⟨more, hmore⟩ := hdone
    rw [← hmore, List.take_append_of_le_length hle]
  refine ⟨Nat.le_trans hle hdone.length_le, ?_, ?_⟩
  · rw [hi.dispatches.sent uuid, htake]
    apply repliesTo_eq
    rw [List.prefix_iff_eq_take.mp hpre, List.map_take, hread, ← List.map_take]
    rfl
  · rw [hread]
    exact hdone.map some

/-- Session 0 sends a `MSG_HELLO_WORD` message in two chunks; in between, session 1 sends a message
nobody is registered for. The worker deals with both. -/
def twoSessions : List Act :=
  [.handleRead 0 [3, 0xe9, 0, 2, 0x68], .pass, .handleRead 1 [0, 5, 0, 0], .pass, .post, .post,
    .post, .post, .post, .handleRead 0 [0x69], .pass, .post, .post, .post, .post, .worker, .worker,
    .worker, .worker, .worker, .worker, .worker, .worker, .worker]

theorem send_order_two :
    ∃ m, (system fun msg => (msg.2, msg.1)).run init twoSessions = some m ∧
      m.finishedOf 0 = 1 ∧ (m.conns 0).sends = [([0x68, 0x69], 1001)] := by
  obtain ⟨m, hm, hk, h₀, h₁, hrest⟩ : ∃ m,
      (system fun msg => (msg.2, msg.1)).run init twoSessions = some m ∧ m.finishedOf 0 = 1 ∧
        (m.conns 0).received = [3, 0xe9, 0, 2, 0x68, 0x69] ∧
        (m.conns 1).received = [0, 5, 0, 0] ∧ ∀ s, (m.conns (s + 2)).received = [] :=
    ⟨_, rfl, rfl, rfl, rfl, fun _ => rfl⟩
  have hparse : ref.parse [3, 0xe9, 0, 2, 0x68, 0x69] =
      ⟨[(1001, [0x68, 0x69])], .pending []⟩ := by decide
  have hneg : m.Unbroken := by
    intro s
    match s with
    | 0 => rw [h₀, hparse]; exact nofun
    | 1 => rw [h₁]; decide
    | s + 2 => rw [hrest, Lib.Format.parse_nil]; exact nofun
  refine ⟨m, hm, hk, ?_⟩
  rw [(send_order (.of_run hm) hneg 0).2.1, hk, framed, h₀, hparse]
  rfl

end Machine
end ServerV3
end AsyncEchoServer
