import AsyncEchoServer.ServerV3.Order
import AsyncEchoServer.ServerV3Mt.Receive

/-!
# `ServerV3Mt/Order.lean` — replies in order, whatever the threads do

The dispatch half of the multi-thread machine's invariant, and the two together. The worker is the
only thread that sends, and it sends one reply for one node at a time; in this server the `Send` is
three steps of its own, so a node may have been replied to and still be in its callback
(`replied`). What the worker has replied to is a prefix of what was pushed, what was pushed by all
threads together contains every session's nodes in the order of its own thread, and those read as
the messages of the session's stream. `replies_in_order` is the result, for any number of threads
and sessions and in any interleaving: no message of a session is answered twice, out of order, on
another session, or with another's bytes.
-/

set_option autoImplicit false

namespace AsyncEchoServer
namespace ServerV3Mt
namespace Machine

open ServerV3 (Conn NodeRef ref findCallBack nodesOf repliesTo repliesTo_append)

variable {size i : Nat} {f : Short × Bytes → Bytes × Short} {m m' : Machine}

/-! ## The worker -/

/-- The node in the callback, once its reply has been sent. -/
def sentInCall (m : Machine) : List NodeRef :=
  match m.logic.worker, m.sender with
  | .running n _ _, .sent | .running n _ _, .returned => [n]
  | _, _ => []

/-- The nodes that have been replied to, or are popped without a reply. -/
def replied (m : Machine) : List NodeRef := m.logic.handled ++ m.sentInCall

structure Dispatches (f : Short × Bytes → Bytes × Short) (m : Machine) : Prop where
  inv : m.logic.Inv (findCallBack m.heap)
  booked : m.logic.Booked
  outside : (∀ n c d, m.logic.worker ≠ .running n c d) → m.sender = .atLock
  sent : ∀ s, (m.conns s).sends = repliesTo f s (m.replied.filterMap (findCallBack m.heap))

theorem init_dispatches : Dispatches f init :=
  ⟨LogicSystem.init_inv, rfl, fun _ => rfl, fun _ => rfl⟩

theorem sentInCall_atLock (h : m.sender = .atLock) : m.sentInCall = [] := by
  unfold sentInCall
  rw [h]
  split <;> first | rfl | contradiction

theorem sentInCall_running {n : NodeRef} {c : CallBackArgs} {d : Bool}
    (hw : m.logic.worker = .running n c d) :
    m.sentInCall = if m.sender = .sent ∨ m.sender = .returned then [n] else [] := by
  unfold sentInCall
  rw [hw]
  cases m.sender <;> rfl

/-- What has been replied to was pushed, in that order. -/
theorem Dispatches.replied_prefix (h : m.Dispatches f) : m.replied <+: m.logic.posted := by
  have hhandled := h.inv.handled_prefix h.booked
  unfold replied
  by_cases hrun : ∃ n c d, m.logic.worker = .running n c d
  · obtain ⟨n, c, d, hw⟩ := hrun
    have hfront := h.inv.front
    simp only [LogicSystem.picked, hw] at hfront
    obtain ⟨rest, hq⟩ := List.head?_eq_some_iff.mp hfront
    rw [sentInCall_running hw]
    split
    · refine ⟨rest, ?_⟩
      rw [h.booked, hq]
      simp [LogicSystem.handled, hw]
    · rwa [List.append_nil]
  · have hlock := h.outside fun n c d hw => hrun ⟨n, c, d, hw⟩
    rw [sentInCall_atLock hlock, List.append_nil]
    exact hhandled

/-- A step of the other threads, which write no node that was pushed. -/
theorem Dispatches.aside (h : m.Dispatches f)
    (hinv : m'.logic.Inv (findCallBack m.heap)) (hbooked : m'.logic.Booked)
    (hworker : LogicSystem.Woken m.logic m'.logic) (hhandled : m'.logic.handled = m.logic.handled)
    (hsender : m'.sender = m.sender) (hsends : ∀ s, (m'.conns s).sends = (m.conns s).sends)
    (hkept : ∀ n ∈ m'.logic.posted, m'.heap[n.2]? = m.heap[n.2]?)
    (hposted : m.logic.posted <+: m'.logic.posted) : m'.Dispatches f := by
  have hfind : ∀ n ∈ m'.logic.posted, findCallBack m'.heap n = findCallBack m.heap n := by
    intro n hn
    rw [findCallBack, findCallBack, hkept n hn]
  have hsent : m'.sentInCall = m.sentInCall := by
    rcases hworker with heq | ⟨hwait, hwoken⟩
    · rw [sentInCall, sentInCall, heq, hsender]
    · rw [sentInCall, sentInCall, hwait, hwoken]
  refine ⟨hinv.congr hbooked hfind, hbooked, fun hout => ?_, fun s => ?_⟩
  · rw [hsender]
    refine h.outside fun n c d hw => ?_
    rcases hworker with heq | ⟨hwait, _⟩
    · exact hout n c d (heq.trans hw)
    · cases hwait.symm.trans hw
  · rw [hsends s, h.sent s, replied, replied, hhandled, hsent]
    refine congrArg (repliesTo f s) (List.filterMap_congr fun n hn => (hfind n ?_).symm)
    exact hposted.subset (h.replied_prefix.subset hn)

/-- A step that leaves the queue, the heap and the replies as they are. -/
theorem Dispatches.of_same (h : m.Dispatches f) (hlogic : m'.logic = m.logic)
    (hheap : m'.heap = m.heap) (hsender : m'.sender = m.sender)
    (hsends : ∀ s, (m'.conns s).sends = (m.conns s).sends) : m'.Dispatches f := by
  refine h.aside ?_ ?_ (Or.inl (by rw [hlogic])) (by rw [hlogic]) hsender hsends
    (fun n _ => by rw [hheap]) (by rw [hlogic])
  · rw [hlogic]
    exact h.inv
  · rw [hlogic]
    exact h.booked

/-- The worker's steps outside its callbacks. -/
theorem Dispatches.worker {logic : LogicSystem NodeRef CallBackArgs} (h : m.Dispatches f)
    (hrun : ∀ n c d, m.logic.worker ≠ .running n c d)
    (hstep : m.logicStep .worker = some logic) :
    Dispatches f { m with logic := logic } where
  inv := h.inv.workerStep hstep
  booked := (LogicSystem.workerStep_queue h.inv hstep).booked h.booked
  outside _ := h.outside hrun
  sent s := by
    have hlock := h.outside hrun
    show (m.conns s).sends = _
    rw [h.sent s, replied, replied, sentInCall_atLock hlock,
      sentInCall_atLock (m := { m with logic := logic }) hlock, List.append_nil, List.append_nil]
    rcases LogicSystem.workerStep_handled hrun hstep with heq | ⟨n, hfind, heq⟩
    · rw [heq]
    · rw [heq, List.filterMap_append, List.filterMap_cons_none hfind, List.filterMap_nil,
        List.append_nil]

/-- The worker sends the reply. -/
theorem Dispatches.send {n : NodeRef} {uuid : Nat} {msg : Short × Bytes} {d : Bool}
    (h : m.Dispatches f) (hw : m.logic.worker = .running n (uuid, msg) d)
    (hsender : m.sender = .locked) (hlogic : m'.logic = m.logic) (hheap : m'.heap = m.heap)
    (hsent : m'.sender = .sent) (hself : (m'.conns uuid).sends = (m.conns uuid).sends ++ [f msg])
    (hother : ∀ s, s ≠ uuid → (m'.conns s).sends = (m.conns s).sends) : m'.Dispatches f where
  inv := by rw [hlogic, hheap]; exact h.inv
  booked := by rw [hlogic]; exact h.booked
  outside hout := absurd hw (by rw [← hlogic]; exact hout n (uuid, msg) d)
  sent s := by
    have hbefore : m.replied = m.logic.handled := by
      rw [replied, sentInCall_running hw, hsender, if_neg (by decide), List.append_nil]
    have hafter : m'.replied = m.logic.handled ++ [n] := by
      rw [replied, sentInCall_running (by rw [hlogic, hw]), if_pos (Or.inl hsent), hlogic]
    rw [hafter, hheap, List.filterMap_append, List.filterMap_cons_some (h.inv.inCallBack n _ d hw),
      List.filterMap_nil, repliesTo_append, ← hbefore, ← h.sent s]
    by_cases hs : s = uuid
    · subst hs
      rw [hself, repliesTo, List.filter_cons_of_pos (by simp)]
      rfl
    · rw [hother s hs, repliesTo, List.filter_cons_of_neg (by simpa using Ne.symm hs)]
      exact (List.append_nil _).symm

/-- The worker moves on in its callback, before the `Send` or behind it. -/
theorem Dispatches.moves {n : NodeRef} {c : CallBackArgs} {d : Bool} {sender : SendPos}
    {locks : Nat → Option Thread} (h : m.Dispatches f) (hw : m.logic.worker = .running n c d)
    (hsame : (sender = .sent ∨ sender = .returned) ↔ (m.sender = .sent ∨ m.sender = .returned)) :
    Dispatches f { m with sender := sender, sendLocks := locks } where
  inv := h.inv
  booked := h.booked
  outside hout := absurd hw (hout n c d)
  sent s := by
    have hreplied : replied { m with sender := sender, sendLocks := locks } = m.replied := by
      rw [replied, replied, sentInCall_running hw,
        sentInCall_running (m := { m with sender := sender, sendLocks := locks }) hw,
        if_congr hsame rfl rfl]
    rw [hreplied]
    exact h.sent s

/-- The return from the callback. -/
theorem Dispatches.returned {n : NodeRef} {c : CallBackArgs} {d : Bool}
    {logic : LogicSystem NodeRef CallBackArgs} (h : m.Dispatches f)
    (hw : m.logic.worker = .running n c d) (hsender : m.sender = .returned)
    (hstep : m.logicStep .worker = some logic) :
    Dispatches f { m with logic := logic, sender := .atLock } where
  inv := h.inv.workerStep hstep
  booked := (LogicSystem.workerStep_queue h.inv hstep).booked h.booked
  outside _ := rfl
  sent s := by
    have hbefore : m.replied = m.logic.handled ++ [n] := by
      rw [replied, sentInCall_running hw, if_pos (Or.inr hsender)]
    have hafter : replied { m with logic := logic, sender := .atLock } =
        m.logic.handled ++ [n] := by
      rw [replied, sentInCall_atLock rfl, List.append_nil]
      exact LogicSystem.workerStep_returned hw hstep
    rw [hafter, ← hbefore]
    exact h.sent s

/-- A pass, and the call of `PostMsgToQue` in it. -/
theorem Dispatches.turn {uuid n : Nat} {data : Bytes} {copyLen : Int} {turn : Turn Short}
    {logic : LogicSystem NodeRef CallBackArgs} (h : m.Dispatches f) (hr : m.Receives size)
    (hturn : loopBody receiver data (m.loopAt uuid copyLen n) = turn)
    (hpost : m.postTurn i uuid turn = some logic) :
    (m.afterTurn i uuid data turn logic).Dispatches f := by
  have hframe : Frame m.heap (m.conns uuid).session turn.1 (Turn.after turn).heap
      (Turn.after turn).session := by
    have hframe := loopBody_frame receiver data (m.loopAt uuid copyLen n)
    rwa [hturn] at hframe
  have hkept : ∀ k ∈ m.logic.posted, (Turn.after turn).heap[k.2]? = m.heap[k.2]? :=
    fun k hk => hr.kept (i := i) hframe (List.mem_append_left _ hk)
  have hsends : ∀ s, ((m.afterTurn i uuid data turn logic).conns s).sends =
      (m.conns s).sends := field_update Conn.sends rfl
  unfold postTurn at hpost
  split at hpost
  · cases hpost
    exact h.aside h.inv h.booked (Or.inl rfl) rfl rfl hsends hkept (List.prefix_refl _)
  · have hposted := (LogicSystem.post_pending hpost).2.2.2.1
    show (m.afterTurn i uuid data turn logic).Dispatches f
    exact h.aside (LogicSystem.step_inv h.inv hpost)
      ((LogicSystem.step_queue h.inv hpost).booked h.booked)
      (LogicSystem.step_aside hpost nofun nofun).worker (LogicSystem.post_handled hpost) rfl hsends
      (fun k hk => hkept k (by rwa [← hposted]))
      (by rw [show (m.afterTurn i uuid data turn logic).logic.posted = _ from hposted])

/-- A step of the queue that is not the worker's. -/
theorem Dispatches.queue {b : LogicSystem.Act NodeRef} {logic : LogicSystem NodeRef CallBackArgs}
    (h : m.Dispatches f) (hstep : m.logicStep b = some logic) (hb : b ≠ .worker)
    (hhandled : logic.handled = m.logic.handled) : Dispatches f { m with logic := logic } := by
  have hqueue := LogicSystem.step_queue h.inv hstep
  have hworker : LogicSystem.Woken m.logic logic := by
    by_cases hd : b = .destructor
    · subst hd
      exact (LogicSystem.destructorStep_aside hstep).1
    · exact (LogicSystem.step_aside hstep hb hd).worker
  refine h.aside (LogicSystem.step_inv h.inv hstep) (hqueue.booked h.booked) hworker hhandled rfl
    (fun _ => rfl) (fun _ _ => rfl) ?_
  show m.logic.posted <+: logic.posted
  cases hqueue with
  | same que post fin => rw [post]
  | pushed n que post fin => rw [post]; exact List.prefix_append _ _
  | popped n que post fin => rw [post]

theorem step_dispatches {a : Act} (h : m.Dispatches f) (hr : m.Receives size)
    (hstep : m.step size f a = some m') : m'.Dispatches f := by
  obtain ⟨hspec, _⟩ := step_cases hstep
  cases hspec with
  | accept pos => exact h.of_same rfl rfl rfl (field_update Conn.sends rfl)
  | acceptError | acceptLock | acceptInsert | acceptUnlock =>
    exact h.of_same rfl rfl rfl fun _ => rfl
  | read | readError | writeError | write | written =>
    exact h.of_same rfl rfl rfl (field_update Conn.sends rfl)
  | turn pos idle left body posted => exact h.turn hr body posted
  | passEnd | clearLock | clearErase | clearUnlock | writeLock | writeFailed | writeUnlock =>
    exact h.of_same rfl rfl rfl fun _ => rfl
  | sendLock pos sender free =>
    exact h.moves pos (by rw [sender]; decide)
  | @send n uuid msg d q pos sender sent =>
    refine h.send pos sender rfl rfl rfl ?_ fun s hs => ?_
    · exact congrArg Conn.sends (Function.update_self uuid _ m.conns)
    · exact congrArg Conn.sends (Function.update_of_ne hs _ m.conns)
  | sendFailed pos sender fails dead => exact h.of_same rfl rfl rfl fun _ => rfl
  | sendUnlock pos sender =>
    exact h.moves pos (by rw [sender]; decide)
  | callbackReturn pos sender step => exact h.returned pos sender step
  | queue act step =>
    cases act with
    | @producer j calling =>
      have hprod : m.logic.producerStep .unlockFirst j = some _ := step
      exact h.queue step nofun (LogicSystem.producerStep_handled hprod)
    | worker out => exact h.worker out step
    | spurious => exact h.queue step nofun (LogicSystem.spurious_handled step)
    | destructor => exact h.queue step nofun (LogicSystem.destructorStep_handled step)

/-! ## The machine -/

theorem step_received {a : Act} (hstep : m.step size f a = some m') (s : Nat) :
    ∃ b, (m'.conns s).received = (m.conns s).received ++ b := by
  obtain ⟨hspec, _⟩ := step_cases hstep
  have hsame : ∀ {uuid : Nat} {c' : Conn}, c'.received = (m.conns uuid).received →
      ∃ b, (Function.update m.conns uuid c' s).received = (m.conns s).received ++ b :=
    fun h => ⟨[], by rw [field_update Conn.received h, List.append_nil]⟩
  cases hspec with
  | @read uuid chunk free listens ne le =>
    by_cases hs : s = uuid
    · subst hs
      exact ⟨chunk, congrArg Conn.received (Function.update_self s _ m.conns)⟩
    · refine ⟨[], ?_⟩
      rw [List.append_nil]
      exact congrArg Conn.received (Function.update_of_ne hs _ m.conns)
  | accept | readError | writeError | write | turn | written | send => exact hsame rfl
  | acceptError | acceptLock | acceptInsert | acceptUnlock | passEnd | clearLock | clearErase |
    clearUnlock | writeLock | writeFailed | writeUnlock | sendLock | sendFailed | sendUnlock |
    callbackReturn | queue => exact ⟨[], (List.append_nil _).symm⟩

structure Inv (size : Nat) (f : Short × Bytes → Bytes × Short) (m : Machine) : Prop where
  receives : m.Receives size
  dispatches : m.Dispatches f

theorem reachable_data (h : (system size f).Reachable m) (hneg : m.Unbroken) : Inv size f m := by
  induction h with
  | init => exact ⟨init_receives, init_dispatches⟩
  | @step m m' a hr hstep ih =>
    have hstep' : m.step size f a = some m' := hstep
    have hbefore : m.Unbroken := by
      intro s
      obtain ⟨b, hb⟩ := step_received hstep' s
      have hs := hneg s
      rw [hb] at hs
      exact tail_ne_broken_of_append hs
    have hi := ih hbefore
    exact ⟨step_receives hi.receives (reachable_atHome hr) hbefore hstep',
      step_dispatches hi.dispatches hi.receives hstep'⟩

/-- The messages framed in what a session has received. -/
def framed (m : Machine) (uuid : Nat) : List (Short × Bytes) :=
  (ref.parse (m.conns uuid).received).msgs

/-- How many of the session's nodes have been replied to, or need no reply. -/
def repliedOf (m : Machine) (uuid : Nat) : Nat := (nodesOf m.replied uuid).length

/-- What a session has handed over are the first of its messages. -/
theorem Receives.handed_prefix (h : m.Receives size) (uuid : Nat) :
    ∃ done, (m.handedBy size uuid).map (messageAt m.heap) = done.map some ∧
      done <+: m.framed uuid := by
  obtain ⟨done, hread, hstage⟩ := (h.own uuid).parsed
  refine ⟨done, hread, ?_⟩
  generalize m.pos size uuid = pos at hstage
  unfold Machine.framed
  cases hstage with
  | waiting parse ready => exact ⟨[], by rw [parse, List.append_nil]⟩
  | reading parse coupled remains more reads =>
    rw [parse]
    exact List.prefix_append _ _

/-- What has been sent on a session are the replies to the first of its messages. -/
theorem Inv.sends_eq (hi : Inv size f m) (uuid : Nat) :
    m.repliedOf uuid ≤ (m.framed uuid).length ∧
      (m.conns uuid).sends =
        (((m.framed uuid).take (m.repliedOf uuid)).filter (·.1 = msgHelloWord)).map f := by
  obtain ⟨done, hread, hdone⟩ := hi.receives.handed_prefix uuid
  -- the nodes that have been replied to are the first that were handed over
  have hpre : nodesOf m.replied uuid <+: m.handedBy size uuid := by
    have hposted := hi.dispatches.replied_prefix
    exact ((hposted.trans (List.prefix_append _ _)).filter _).map _
  have hlen : (m.handedBy size uuid).length = done.length := by
    have hlen := congrArg List.length hread
    rwa [List.length_map, List.length_map] at hlen
  have hle : m.repliedOf uuid ≤ done.length := by
    rw [← hlen]
    exact hpre.length_le
  have htake : (m.framed uuid).take (m.repliedOf uuid) = done.take (m.repliedOf uuid) := by
    obtain ⟨more, hmore⟩ := hdone
    rw [← hmore, List.take_append_of_le_length hle]
  refine ⟨Nat.le_trans hle hdone.length_le, ?_⟩
  rw [hi.dispatches.sent uuid, htake]
  apply ServerV3.Machine.repliesTo_eq
  rw [List.prefix_iff_eq_take.mp hpre, List.map_take, hread, ← List.map_take]
  rfl

/-- What is framed when only the first session has received anything. -/
theorem framed_first {b r : Bytes} {msgs : List (Short × Bytes)} (h₀ : (m.conns 0).received = b)
    (hrest : ∀ s, (m.conns (s + 1)).received = []) (hparse : ref.parse b = ⟨msgs, .pending r⟩) :
    m.Unbroken ∧ ∀ s, m.framed s = if s = 0 then msgs else [] := by
  have hother : ∀ s, ref.parse (m.conns (s + 1)).received = ⟨[], .pending []⟩ := fun s => by
    rw [hrest, Lib.Format.parse_nil]
  refine ⟨fun s => ?_, fun s => ?_⟩
  · cases s with
    | zero =>
      rw [h₀, hparse]
      exact fun h => by cases h
    | succ s =>
      rw [hother]
      exact fun h => by cases h
  · cases s with
    | zero => rw [framed, h₀, hparse, if_pos rfl]
    | succ s => rw [framed, hother, if_neg (Nat.succ_ne_zero s)]

/-- **Order and isolation between threads.** On streams without negative lengths, for any number
of pool threads and sessions and however their steps interleave: the `Send` calls made on a session
are `f` of the `MSG_HELLO_WORD` messages among the first `k` its own stream frames, where `k` of
its nodes have been replied to or need no reply; and the nodes its thread has handed over read, now,
as the messages they were framed from. -/
theorem replies_in_order (h : (system size f).Reachable m) (hneg : m.Unbroken) (uuid : Nat) :
    m.repliedOf uuid ≤ (m.framed uuid).length ∧
      (m.conns uuid).sends =
        (((m.framed uuid).take (m.repliedOf uuid)).filter (·.1 = msgHelloWord)).map f ∧
      (m.handedBy size uuid).map (messageAt m.heap) <+: (m.framed uuid).map some := by
  have hi := reachable_data h hneg
  obtain ⟨hle, hsends⟩ := hi.sends_eq uuid
  obtain ⟨done, hread, hdone⟩ := hi.receives.handed_prefix uuid
  refine ⟨hle, hsends, ?_⟩
  rw [hread]
  exact hdone.map some

/-- Session 0's message comes in two chunks; session 1's, which nobody is registered for, is read
and pushed by the other thread in between. -/
def twoThreads : List Act :=
  [.handleAccept false, .acceptor, .acceptor, .acceptor, .handleAccept false,
    .handleRead 0 [3, 0xe9, 0, 2, 0x68], .handleRead 1 [0, 5, 0, 0], .pool 1, .pool 0, .pool 1,
    .handleRead 0 [0x69], .pool 0, .pool 1, .pool 1, .pool 1, .pool 1, .worker, .worker, .worker,
    .worker, .pool 0, .pool 0, .pool 0, .pool 0, .pool 0, .worker, .worker, .worker, .worker,
    .worker]

theorem twoThreads_run : ∃ m, (system 2 fun msg => (msg.2, msg.1)).run init twoThreads = some m ∧
    m.Unbroken ∧ m.repliedOf 0 = 1 ∧ m.framed 0 = [(1001, [0x68, 0x69])] := by
  obtain ⟨m, hm, hk, h₀, h₁, hrest⟩ : ∃ m,
      (system 2 fun msg => (msg.2, msg.1)).run init twoThreads = some m ∧ m.repliedOf 0 = 1 ∧
        (m.conns 0).received = [3, 0xe9, 0, 2, 0x68, 0x69] ∧
        (m.conns 1).received = [0, 5, 0, 0] ∧ ∀ s, (m.conns (s + 2)).received = [] :=
    ⟨_, rfl, rfl, rfl, rfl, fun _ => rfl⟩
  have hparse : ref.parse [3, 0xe9, 0, 2, 0x68, 0x69] =
      ⟨[(1001, [0x68, 0x69])], .pending []⟩ := by decide
  refine ⟨m, hm, fun s => ?_, hk, by rw [framed, h₀, hparse]⟩
  match s with
  | 0 => rw [h₀, hparse]; exact fun h => by cases h
  | 1 => rw [h₁]; decide
  | s + 2 => rw [hrest, Lib.Format.parse_nil]; exact fun h => by cases h

theorem replies_in_order_two :
    ∃ m, (system 2 fun msg => (msg.2, msg.1)).run init twoThreads = some m ∧
      m.repliedOf 0 = 1 ∧ (m.conns 0).sends = [([0x68, 0x69], 1001)] := by
  obtain ⟨m, hm, hneg, hk, hframed⟩ := twoThreads_run
  refine ⟨m, hm, hk, ?_⟩
  rw [(replies_in_order (.of_run hm) hneg 0).2.1, hk, hframed]
  rfl

end Machine
end ServerV3Mt
end AsyncEchoServer
