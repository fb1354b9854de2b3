import AsyncEchoServer.ServerV3.Receive
import AsyncEchoServer.ServerV3Mt.Locking
import AsyncEchoServer.ServerV3Mt.Step

/-!
# `ServerV3Mt/Receive.lean` — the sessions of many network threads

The receive half of the multi-thread machine's invariant. Pool threads run their loops at the same
time and allocate on one heap, so in between two passes of one loop there may be any number of
passes of others. What a session knows of itself (`Own`) is what it would know if it were alone in
the single-threaded server, and that is how its own steps are proved: `Own.view` goes over to
`ServerV3/Receive.lean`, and `Own.of_view` comes back. What keeps it across the steps of the other
sessions is `Receives.apart` and `Receives.settled`: nobody writes its nodes.

A session's nodes are handed over by the one thread that runs its handlers (`ioService`), so their
order is the order of that thread's calls, wherever the calls of the others fall.
-/

set_option autoImplicit false

namespace AsyncEchoServer

namespace ServerV3Mt

open ServerV3 (Conn NetPos NodeRef Stage ref findCallBack nodesOf nodesOf_append nodesOf_own)

variable {heap heap' : Heap Short} {c c' : Conn} {nodes : List Nat} {uuid : Nat}

/-! ## One session -/

/-- Everything but the session is untouched. -/
def alone (uuid : Nat) (c : Conn) : Nat → Conn := Function.update (fun _ => untouched) uuid c

/-- What a session knows of itself: the nodes it has handed over read as the messages framed in its
stream so far, and it fills none of them. -/
structure Own (heap : Heap Short) (c : Conn) (pos : Option (Bytes × Int × Nat))
    (nodes : List Nat) : Prop where
  fills : ∀ q, c.session.Fills q → q < heap.length
  settled : ∀ p ∈ nodes, p < heap.length ∧ ¬ c.session.Fills p
  parsed : ∃ done, nodes.map (messageAt heap) = done.map some ∧ Stage heap c done pos

@[simp] theorem alone_self : alone uuid c uuid = c := Function.update_self ..

theorem alone_of_ne {s : Nat} (h : s ≠ uuid) : alone uuid c s = untouched :=
  Function.update_of_ne h ..

@[simp] theorem update_alone : Function.update (alone uuid c) uuid c' = alone uuid c' :=
  Function.update_idem ..

theorem untouched_fills {q : Nat} : ¬ untouched.session.Fills q := fun h => Bool.noConfusion h.1

theorem alone_fills {s q : Nat} (h : (alone uuid c s).session.Fills q) :
    s = uuid ∧ c.session.Fills q := by
  by_cases hs : s = uuid
  · subst hs
    rw [alone_self] at h
    exact ⟨rfl, h⟩
  · rw [alone_of_ne hs] at h
    exact absurd h untouched_fills

/-- The session as the only one of the single-threaded server. -/
theorem Own.view {net : NetPos} (h : Own heap c (net.at uuid) nodes)
    (hnet : ∀ s, s ≠ uuid → net.at s = none) :
    ServerV3.Receives heap (alone uuid c) net (nodes.map (uuid, ·)) where
  fills s q hq := h.fills q (alone_fills hq).2
  apart s s' q hq hq' := (alone_fills hq).1.trans (alone_fills hq').1.symm
  settled n hn := by
    obtain ⟨p, hp, rfl⟩ := List.mem_map.mp hn
    exact ⟨(h.settled p hp).1, fun s hq => (h.settled p hp).2 (alone_fills hq).2⟩
  parsed s := by
    by_cases hs : s = uuid
    · subst hs
      rw [alone_self, nodesOf_own]
      exact h.parsed
    · rw [alone_of_ne hs, ServerV3.nodesOf_other hs, hnet s hs]
      exact ⟨[], rfl, .waiting (by rw [untouched, Lib.Format.parse_nil]) fun hne => absurd rfl hne⟩

theorem Own.of_view {net : NetPos}
    (h : ServerV3.Receives heap (alone uuid c) net (nodes.map (uuid, ·))) :
    Own heap c (net.at uuid) nodes where
  fills q hq := h.fills uuid q (by rwa [alone_self])
  settled p hp := by
    obtain ⟨hlt, hout⟩ := h.settled (uuid, p) (List.mem_map_of_mem hp)
    exact ⟨hlt, fun hq => hout uuid (by rwa [alone_self])⟩
  parsed := by
    have hparsed := h.parsed uuid
    rwa [alone_self, nodesOf_own] at hparsed

/-- Nobody has written its nodes. -/
theorem Own.of_agree {pos : Option (Bytes × Int × Nat)} (h : Own heap c pos nodes)
    (hsess : c'.session = c.session) (hreads : c'.reads = c.reads)
    (hrecv : c'.received = c.received) (hgrow : heap.length ≤ heap'.length)
    (hfills : ∀ q, c.session.Fills q → heap'[q]? = heap[q]?)
    (hnodes : ∀ p ∈ nodes, heap'[p]? = heap[p]?) : Own heap' c' pos nodes where
  fills q hq := Nat.lt_of_lt_of_le (h.fills q (by rwa [← hsess])) hgrow
  settled p hp := ⟨Nat.lt_of_lt_of_le (h.settled p hp).1 hgrow,
    fun hq => (h.settled p hp).2 (by rwa [← hsess])⟩
  parsed := by
    obtain ⟨done, hread, hstage⟩ := h.parsed
    refine ⟨done, ?_, hstage.transfer hsess hreads hrecv hfills⟩
    rw [← hread]
    exact List.map_congr_left fun p hp => by rw [messageAt, messageAt, hnodes p hp]

/-- A pass of its loop. -/
theorem Own.pass {data : Bytes} {copyLen : Int} {n : Nat} {turn : Turn Short} (uuid : Nat)
    (h : Own heap c (some (data, copyLen, n)) nodes)
    (hneg : (ref.parse c.received).tail ≠ .broken)
    (hturn : loopBody receiver data
      { heap := heap, session := c.session, copyLen := copyLen, bytesTransferred := n } = turn)
    (hsess : c'.session = (Turn.after turn).session)
    (hreads : c'.reads = c.reads + armed turn.1) (hrecv : c'.received = c.received) :
    (delivered turn.1).length ≤ 1 ∧
      Own (Turn.after turn).heap c' ((ServerV3.nextPos uuid data turn).at uuid)
        (nodes ++ delivered turn.1) := by
  have hview : ServerV3.Receives heap (alone uuid c) (.inHandleRead uuid data copyLen n)
      (nodes.map (uuid, ·)) := by
    refine Own.view ?_ fun s hs => NetPos.at_of_ne hs _ _ _
    rw [NetPos.at_self]
    exact h
  obtain ⟨hle, hnext⟩ := hview.pass (by rwa [alone_self]) (by rwa [alone_self]) hsess
    (by rwa [alone_self]) (by rwa [alone_self])
  refine ⟨hle, .of_view ?_⟩
  rwa [update_alone, ← List.map_append] at hnext

theorem Own.bytes_left {data : Bytes} {copyLen : Int} {n : Nat}
    (h : Own heap c (some (data, copyLen, n)) nodes) : 0 < n := by
  have hview : ServerV3.Receives heap (alone 0 c) (.inHandleRead 0 data copyLen n)
      (nodes.map (0, ·)) := by
    refine Own.view ?_ fun s hs => NetPos.at_of_ne hs _ _ _
    rw [NetPos.at_self]
    exact h
  exact hview.bytes_left

/-- A chunk arrives. -/
theorem Own.read {chunk : Bytes} (uuid : Nat) (h : Own heap c none nodes) (hlisten : c.reads ≠ 0)
    (hne : chunk ≠ []) (hlen : chunk.length ≤ maxLength) (hsess : c'.session = c.session)
    (hreads : c'.reads = c.reads - 1) (hrecv : c'.received = c.received ++ chunk) :
    Own heap c' ((NetPos.inHandleRead uuid (readBuffer chunk) 0 chunk.length).at uuid) nodes := by
  have hview : ServerV3.Receives heap (alone uuid c) .idle (nodes.map (uuid, ·)) :=
    Own.view h fun _ _ => rfl
  have hnext : ServerV3.Receives heap (Function.update (alone uuid c) uuid c')
      (.inHandleRead uuid (readBuffer chunk) 0 chunk.length) (nodes.map (uuid, ·)) :=
    hview.read (by rwa [alone_self]) hne hlen (by rwa [alone_self]) (by rwa [alone_self])
      (by rwa [alone_self])
  rw [update_alone] at hnext
  exact Own.of_view hnext

/-- Nothing more will be read from it. -/
theorem Own.readError (h : Own heap c none nodes) (hlisten : c.reads ≠ 0)
    (hsess : c'.session = c.session) (hreads : c'.reads = c.reads - 1)
    (hrecv : c'.received = c.received) : Own heap c' none nodes := by
  have hview : ServerV3.Receives heap (alone 0 c) .idle (nodes.map (0, ·)) :=
    Own.view h fun _ _ => rfl
  have hnext : ServerV3.Receives heap (Function.update (alone 0 c) 0 c') .idle
      (nodes.map (0, ·)) :=
    hview.readError (by rwa [alone_self]) (by rwa [alone_self]) (by rwa [alone_self])
      (by rwa [alone_self])
  rw [update_alone] at hnext
  exact Own.of_view hnext

/-- `Start()` on a session nothing has happened to. -/
theorem Own.start (h : Own heap c none nodes) (hnew : c.session = .fresh receiver)
    (hempty : c.received = []) (hsess : c'.session = c.session) (hreads : c'.reads = 1)
    (hrecv : c'.received = c.received) : Own heap c' none nodes := by
  have hview : ServerV3.Receives heap (alone 0 c) .idle (nodes.map (0, ·)) :=
    Own.view h fun _ _ => rfl
  have hnext : ServerV3.Receives heap (Function.update (alone 0 c) 0 c') .idle
      (nodes.map (0, ·)) :=
    hview.start (by rwa [alone_self]) (by rwa [alone_self]) (by rwa [alone_self])
      hreads (by rwa [alone_self])
  rw [update_alone] at hnext
  exact Own.of_view hnext

/-! ## All of them -/

/-- The loop a pool thread is in. -/
def PoolPos.net : PoolPos → NetPos
  | .inHandleRead uuid data copyLen n => .inHandleRead uuid data copyLen n
  | .idle | .clearing _ | .clearLocked _ | .erased _ => .idle
  | .writing _ _ | .writeLocked _ _ | .written _ => .idle

/-- Where the loop of the session's `HandleRead` is, if it is running. -/
def Machine.pos (size : Nat) (m : Machine) (uuid : Nat) : Option (Bytes × Int × Nat) :=
  (m.pool (ioService size uuid)).net.at uuid

/-- The nodes the session has handed over. -/
def Machine.handedBy (size : Nat) (m : Machine) (uuid : Nat) : List Nat :=
  nodesOf (m.logic.handedOver (ioService size uuid)) uuid

structure Machine.Receives (size : Nat) (m : Machine) : Prop where
  apart : ∀ s s' q, (m.conns s).session.Fills q → (m.conns s').session.Fills q → s = s'
  settled : ∀ i, ∀ n ∈ m.logic.handedOver i,
    n.2 < m.heap.length ∧ ∀ s, ¬ (m.conns s).session.Fills n.2
  own : ∀ s, Own m.heap (m.conns s) (m.pos size s) (m.handedBy size s)

namespace Machine

variable {size i : Nat} {f : Short × Bytes → Bytes × Short} {m m' : Machine} {es : List Effect}

theorem init_receives : Receives size init where
  apart _ _ _ hq := absurd hq untouched_fills
  settled _ n hn := absurd hn List.not_mem_nil
  own _ :=
    { fills := fun _ hq => absurd hq untouched_fills
      settled := fun _ hp => absurd hp List.not_mem_nil
      parsed := ⟨[], rfl, .waiting (by rw [init, Lib.Format.parse_nil]) fun hne => absurd rfl hne⟩ }

/-- A step that hands nothing over and touches no session's receive half. -/
theorem Receives.of_same (h : m.Receives size) (hheap : m'.heap = m.heap)
    (hsess : ∀ s, (m'.conns s).session = (m.conns s).session)
    (hreads : ∀ s, (m'.conns s).reads = (m.conns s).reads)
    (hrecv : ∀ s, (m'.conns s).received = (m.conns s).received)
    (hpos : ∀ s, m'.pos size s = m.pos size s) (hnodes : ∀ s, m'.handedBy size s = m.handedBy size s)
    (hhanded : ∀ i, ∀ n ∈ m'.logic.handedOver i, ∃ j, n ∈ m.logic.handedOver j) :
    m'.Receives size where
  apart s s' q hq hq' := h.apart s s' q (by rwa [← hsess]) (by rwa [← hsess])
  settled i n hn := by
    obtain ⟨j, hj⟩ := hhanded i n hn
    obtain ⟨hlt, hout⟩ := h.settled j n hj
    exact ⟨by rwa [hheap], fun s hq => hout s (by rwa [← hsess])⟩
  own s := by
    rw [hheap, hpos, hnodes]
    exact (h.own s).of_agree (hsess s) (hreads s) (hrecv s) (Nat.le_refl _) (fun _ _ => rfl)
      fun _ _ => rfl

/-- **A framed step of one session** keeps what the others know; what is left to show is about the
session itself. -/
theorem Receives.framed (uuid : Nat) (es : List Effect) (h : m.Receives size)
    (hframe : Frame m.heap (m.conns uuid).session es m'.heap (m'.conns uuid).session)
    (hconn : ∀ s, s ≠ uuid → m'.conns s = m.conns s)
    (hpos : ∀ s, s ≠ uuid → m'.pos size s = m.pos size s)
    (hhanded : ∀ i, m'.logic.handedOver i = m.logic.handedOver i ++
      if i = ioService size uuid then (delivered es).map (uuid, ·) else [])
    (hown : Own m'.heap (m'.conns uuid) (m'.pos size uuid) (m.handedBy size uuid ++ delivered es)) :
    m'.Receives size where
  apart := by
    -- a node the session fills now and another fills was one the session filled before
    have hcross : ∀ s q, s ≠ uuid → (m'.conns uuid).session.Fills q →
        ¬ (m.conns s).session.Fills q := by
      intro s q hs hq hq'
      rcases hframe.shrinks q (Or.inr hq) with hle | hold
      · exact absurd ((h.own s).fills q hq') (Nat.not_lt.mpr hle)
      · exact hs (h.apart s uuid q hq' hold)
    intro s s' q hq hq'
    by_cases hs : s = uuid
    · by_cases hs' : s' = uuid
      · rw [hs, hs']
      · rw [hs] at hq
        rw [hconn s' hs'] at hq'
        exact absurd hq' (hcross s' q hs' hq)
    · rw [hconn s hs] at hq
      by_cases hs' : s' = uuid
      · rw [hs'] at hq'
        exact absurd hq (hcross s q hs hq')
      · rw [hconn s' hs'] at hq'
        exact h.apart s s' q hq hq'
  settled := by
    intro i n hn
    rw [hhanded, List.mem_append] at hn
    rcases hn with hn | hn
    · obtain ⟨hlt, hout⟩ := h.settled i n hn
      refine ⟨Nat.lt_of_lt_of_le hlt hframe.grows, fun s hq => ?_⟩
      by_cases hs : s = uuid
      · rw [hs] at hq
        rcases hframe.shrinks n.2 (Or.inr hq) with hle | hold
        · exact absurd hlt (Nat.not_lt.mpr hle)
        · exact hout uuid hold
      · rw [hconn s hs] at hq
        exact hout s hq
    · split at hn
      · obtain ⟨p, hp, rfl⟩ := List.mem_map.mp hn
        obtain ⟨hbefore, hafter⟩ := hframe.handed p hp
        refine ⟨Nat.not_le.mp fun hle => hafter (Or.inl hle), fun s hq => ?_⟩
        by_cases hs : s = uuid
        · rw [hs] at hq
          exact hafter (Or.inr hq)
        · rw [hconn s hs] at hq
          rcases hbefore with hle | hold
          · exact absurd ((h.own s).fills p hq) (Nat.not_lt.mpr hle)
          · exact hs (h.apart s uuid p hq hold)
      · exact absurd hn List.not_mem_nil
  own := by
    have hnodes : ∀ s, m'.handedBy size s =
        m.handedBy size s ++ if s = uuid then delivered es else [] := by
      intro s
      rw [handedBy, hhanded, nodesOf_append, handedBy]
      by_cases hs : s = uuid
      · rw [hs, if_pos rfl, if_pos rfl, nodesOf_own]
      · rw [if_neg hs]
        split
        · rw [ServerV3.nodesOf_other hs]
        · rfl
    intro s
    rw [hnodes]
    by_cases hs : s = uuid
    · rw [hs, if_pos rfl]
      exact hown
    · rw [if_neg hs, List.append_nil, hconn s hs, hpos s hs]
      refine (h.own s).of_agree rfl rfl rfl hframe.grows ?_ ?_
      · intro q hq
        apply hframe.kept q
        rintro (hle | hfill)
        · exact absurd ((h.own s).fills q hq) (Nat.not_lt.mpr hle)
        · exact hs (h.apart s uuid q hq hfill)
      · intro p hp
        obtain ⟨n, hn, rfl⟩ := List.mem_map.mp hp
        obtain ⟨hlt, hout⟩ := h.settled _ n (List.mem_of_mem_filter hn)
        apply hframe.kept n.2
        rintro (hle | hfill)
        · exact absurd hlt (Nat.not_lt.mpr hle)
        · exact hout uuid hfill

/-- A node that was handed over is not touched. -/
theorem Receives.kept (h : m.Receives size) {s' : Session}
    (hf : Frame m.heap (m.conns uuid).session es heap' s') {n : NodeRef}
    (hn : n ∈ m.logic.handedOver i) : heap'[n.2]? = m.heap[n.2]? := by
  obtain ⟨hlt, hout⟩ := h.settled i n hn
  apply hf.kept n.2
  rintro (hle | hfill)
  · exact absurd hlt (Nat.not_lt.mpr hle)
  · exact hout uuid hfill

/-! ### Positions -/

theorem pos_of_ne {s i : Nat} (h : ioService size s ≠ i) {p : PoolPos} :
    (m.moveTo i p).pos size s = m.pos size s := by
  unfold pos
  rw [show (m.moveTo i p).pool (ioService size s) = m.pool (ioService size s) from
    Function.update_of_ne h ..]

theorem pos_moveTo {s : Nat} {p : PoolPos} :
    (m.moveTo (ioService size s) p).pos size s = p.net.at s := by
  unfold pos
  rw [show (m.moveTo (ioService size s) p).pool (ioService size s) = p from
    Function.update_self ..]

/-- A thread that works on another session is in no loop of this one. -/
theorem net_at_of_session {p : PoolPos} {s : Nat} (h : p.session = some uuid) (hs : s ≠ uuid) :
    p.net.at s = none := by
  cases p with
  | inHandleRead u data copyLen n =>
    cases h
    exact NetPos.at_of_ne hs _ _ _
  | idle | clearing | clearLocked | erased | writing | writeLocked | written => rfl

/-- Nobody is in a loop of a session but its own thread, for the time of a handler. -/
theorem pos_of_idle {s : Nat} (h : (m.pool (ioService size s)).net = .idle) :
    m.pos size s = none := by
  rw [pos, h]
  rfl

/-- A thread that stays out of every loop. -/
theorem pos_outside {s i : Nat} {p : PoolPos} (h : (m.pool i).net = .idle) (hp : p.net = .idle) :
    (m.moveTo i p).pos size s = m.pos size s := by
  by_cases hs : ioService size s = i
  · subst hs
    rw [pos_moveTo, hp, pos_of_idle h]
    rfl
  · exact pos_of_ne hs

/-- A thread that goes from a position outside every loop into one of `uuid`, or back. -/
theorem pos_other {s i : Nat} {p : PoolPos} (h : (m.pool i).session = some uuid ∨ m.pool i = .idle)
    (hp : p.session = some uuid ∨ p = .idle) (hs : s ≠ uuid) :
    (m.moveTo i p).pos size s = m.pos size s := by
  have hnone : ∀ p : PoolPos, p.session = some uuid ∨ p = .idle → p.net.at s = none := by
    rintro p (hp | rfl)
    · exact net_at_of_session hp hs
    · rfl
  by_cases hi : ioService size s = i
  · subst hi
    rw [pos_moveTo, hnone p hp, pos, hnone _ h]
  · exact pos_of_ne hi

/-! ### The steps -/

theorem nodesOf_cons_of_ne {n : NodeRef} {s : Nat} (h : n.1 ≠ s) (ns : List NodeRef) :
    nodesOf (n :: ns) s = nodesOf ns s := by
  rw [nodesOf, List.filter_cons_of_neg (by simpa using h)]
  rfl

/-- A step of the logic queue hands nothing over: a push only moves its node. -/
theorem handed_logicStep {b : LogicSystem.Act NodeRef} {logic : LogicSystem NodeRef CallBackArgs}
    (hhome : m.AtHome size) (hstep : m.logicStep b = some logic) (hpost : ∀ i n, b ≠ .post i n) :
    (∀ s, nodesOf (logic.handedOver (ioService size s)) s = m.handedBy size s) ∧
      ∀ i, ∀ n ∈ logic.handedOver i, ∃ j, n ∈ m.logic.handedOver j := by
  by_cases hb : ∃ i, b = .producer i
  · obtain ⟨i, rfl⟩ := hb
    have hprod : m.logic.producerStep .unlockFirst i = some logic := hstep
    obtain ⟨hpend, hothers⟩ := LogicSystem.producerStep_pending hprod
    cases hpend with
    | stays pend que post =>
      have hsame : ∀ j, logic.handedOver j = m.logic.handedOver j := by
        intro j
        refine LogicSystem.handedOver_congr ?_ post
        by_cases hji : j = i
        · rw [hji, pend]
        · exact hothers j hji
      exact ⟨fun s => by rw [hsame]; rfl, fun j n hn => ⟨j, by rwa [← hsame]⟩⟩
    | pushed k pend done que post =>
      constructor
      · intro s
        by_cases hs : ioService size s = i
        · rw [handedBy, hs, LogicSystem.producerStep_handedOver hprod]
        · -- the node is of a session of the other thread
          have hne : k.1 ≠ s := by
            rintro rfl
            exact hs (hhome.pending i k (by rw [pend]; exact List.mem_singleton_self k)).1
          rw [handedBy, LogicSystem.handedOver, LogicSystem.handedOver, post, hothers _ hs,
            nodesOf_append, nodesOf_append, nodesOf_append, nodesOf_cons_of_ne hne]
          exact congrArg (· ++ _) (List.append_nil _)
      · intro j n hn
        rw [LogicSystem.handedOver, post, List.mem_append, List.mem_append,
          List.mem_singleton] at hn
        rcases hn with (hn | rfl) | hn
        · exact ⟨j, List.mem_append_left _ hn⟩
        · exact ⟨i, List.mem_append_right _ (by rw [pend]; exact List.mem_singleton_self n)⟩
        · by_cases hji : j = i
          · rw [hji, done] at hn
            exact absurd hn List.not_mem_nil
          · exact ⟨j, List.mem_append_right _ (by rwa [← hothers j hji])⟩
  · obtain ⟨hpend, hposted, _⟩ := LogicSystem.step_pending hstep hpost fun i heq => hb ⟨i, heq⟩
    have hsame : ∀ j, logic.handedOver j = m.logic.handedOver j :=
      fun j => LogicSystem.handedOver_congr (hpend j) hposted
    exact ⟨fun s => by rw [hsame]; rfl, fun j n hn => ⟨j, by rwa [← hsame]⟩⟩

theorem Receives.logicStep {b : LogicSystem.Act NodeRef} {sender : SendPos}
    {logic : LogicSystem NodeRef CallBackArgs} (h : m.Receives size) (hhome : m.AtHome size)
    (hstep : m.logicStep b = some logic) (hpost : ∀ i n, b ≠ .post i n) :
    Receives size { m with logic := logic, sender := sender } := by
  obtain ⟨hnodes, hhanded⟩ := handed_logicStep hhome hstep hpost
  exact h.of_same rfl (fun _ => rfl) (fun _ => rfl) (fun _ => rfl) (fun _ => rfl) hnodes hhanded

/-- A step that touches neither the heap nor the queue, and no session's receive half. -/
theorem Receives.of_conns (h : m.Receives size) (hheap : m'.heap = m.heap)
    (hlogic : m'.logic = m.logic) (hsess : ∀ s, (m'.conns s).session = (m.conns s).session)
    (hreads : ∀ s, (m'.conns s).reads = (m.conns s).reads)
    (hrecv : ∀ s, (m'.conns s).received = (m.conns s).received)
    (hpos : ∀ s, m'.pos size s = m.pos size s) : m'.Receives size :=
  h.of_same hheap hsess hreads hrecv hpos (fun s => by rw [handedBy, handedBy, hlogic])
    fun i n hn => ⟨i, by rwa [hlogic] at hn⟩

/-- A field that the new state of a session leaves as it was. -/
theorem field_update {α : Type} (g : Conn → α) {uuid : Nat} {c' : Conn}
    (h : g c' = g (m.conns uuid)) (s : Nat) :
    g (Function.update m.conns uuid c' s) = g (m.conns s) := by
  by_cases hs : s = uuid
  · rw [hs, Function.update_self, h]
  · rw [Function.update_of_ne hs]

/-- A handler begins on the session, with nothing handed over and no node touched. -/
theorem Receives.begin {c' : Conn} {p : PoolPos} (h : m.Receives size)
    (hpool : m.pool (ioService size uuid) = .idle) (hp : p.session = some uuid ∨ p = .idle)
    (hsess : c'.session = (m.conns uuid).session)
    (hown : Own m.heap c' (p.net.at uuid) (m.handedBy size uuid)) :
    Receives size ((m.setConn uuid c').moveTo (ioService size uuid) p) := by
  have hconn : ((m.setConn uuid c').moveTo (ioService size uuid) p).conns uuid = c' :=
    Function.update_self ..
  refine h.framed uuid [] ?_ (fun s hs => Function.update_of_ne hs ..)
    (fun s hs => ?_) (fun i => ?_) ?_
  · rw [hconn]
    exact .refl (by rw [hsess]) (by rw [hsess]) rfl
  · exact pos_other (m := m.setConn uuid c') (Or.inr hpool) hp hs
  · show m.logic.handedOver i = _
    split <;> simp [delivered]
  · rw [hconn, pos_moveTo (m := m.setConn uuid c'), delivered_nil, List.append_nil]
    exact hown

/-- Nothing is outstanding or running for a session whose thread is free. -/
theorem Receives.idle (h : m.Receives size) (hpool : m.pool (ioService size uuid) = .idle) :
    Own m.heap (m.conns uuid) none (m.handedBy size uuid) := by
  have hown := h.own uuid
  rwa [pos_of_idle (by rw [hpool]; rfl)] at hown

theorem nextPos_net (uuid : Nat) (data : Bytes) (turn : Turn Short) :
    (nextPos uuid data turn).net = ServerV3.nextPos uuid data turn := by
  unfold nextPos ServerV3.nextPos
  cases turn.2 with
  | again l => rfl
  | leave out =>
    dsimp only
    split <;> rfl

theorem nextPos_session (uuid : Nat) (data : Bytes) (turn : Turn Short) :
    (nextPos uuid data turn).session = some uuid ∨ nextPos uuid data turn = .idle := by
  unfold nextPos
  split
  · exact Or.inl rfl
  · split
    · exact Or.inl rfl
    · exact Or.inr rfl

/-- What a pass hands over, on a stream that is not broken. -/
theorem postTurn_handed {uuid : Nat} {turn : Turn Short}
    {logic : LogicSystem NodeRef CallBackArgs} (hle : (delivered turn.1).length ≤ 1)
    (hpost : m.postTurn i uuid turn = some logic) : ∀ j, logic.handedOver j =
      m.logic.handedOver j ++ if j = i then (delivered turn.1).map (uuid, ·) else [] := by
  intro j
  unfold postTurn at hpost
  cases hdel : delivered turn.1 with
  | nil =>
    rw [hdel] at hpost
    cases hpost
    split <;> exact (List.append_nil _).symm
  | cons p ps =>
    rw [hdel] at hpost hle
    obtain rfl : ps = [] := List.eq_nil_of_length_eq_zero (by simpa using hle)
    by_cases hji : j = i
    · rw [if_pos hji, hji, LogicSystem.post_handedOver hpost]
      rfl
    · obtain ⟨_, _, _, hposted, _, hothers⟩ := LogicSystem.post_pending hpost
      rw [if_neg hji, List.append_nil, LogicSystem.handedOver_congr (hothers j hji) hposted]

/-- **A pass** of a running `HandleRead`. -/
theorem Receives.turn {n : Nat} {data : Bytes} {copyLen : Int} {turn : Turn Short}
    {logic : LogicSystem NodeRef CallBackArgs} (h : m.Receives size) (hhome : m.AtHome size)
    (hneg : (ref.parse (m.conns uuid).received).tail ≠ .broken)
    (hpos : m.pool i = .inHandleRead uuid data copyLen n)
    (hturn : loopBody receiver data (m.loopAt uuid copyLen n) = turn)
    (hpost : m.postTurn i uuid turn = some logic) :
    (delivered turn.1).length ≤ 1 ∧ Receives size (m.afterTurn i uuid data turn logic) := by
  obtain ⟨rfl, _⟩ := hhome.handlers i uuid (by rw [hpos]; rfl)
  have hown := h.own uuid
  rw [pos, hpos, show (PoolPos.inHandleRead uuid data copyLen n).net.at uuid =
    some (data, copyLen, n) from NetPos.at_self ..] at hown
  have hsess : (connAfter (m.conns uuid) turn).session = (Turn.after turn).session := rfl
  have hreads : (connAfter (m.conns uuid) turn).reads = (m.conns uuid).reads + armed turn.1 := rfl
  obtain ⟨hle, hnext⟩ := hown.pass uuid hneg hturn hsess hreads rfl
  have hframe := loopBody_frame receiver data (m.loopAt uuid copyLen n)
  rw [hturn] at hframe
  have hconn : (m.afterTurn (ioService size uuid) uuid data turn logic).conns uuid =
      connAfter (m.conns uuid) turn := Function.update_self ..
  refine ⟨hle, h.framed uuid turn.1 ?_
    (fun s hs => Function.update_of_ne hs ..) (fun s hs => ?_) (postTurn_handed hle hpost) ?_⟩
  · rw [hconn]
    exact hframe
  · exact pos_other (m := m.setConn uuid (connAfter (m.conns uuid) turn))
      (Or.inl (by show (m.pool _).session = _; rw [hpos]; rfl)) (nextPos_session uuid data turn) hs
  · rw [hconn, show (m.afterTurn (ioService size uuid) uuid data turn logic).pos size uuid =
      (nextPos uuid data turn).net.at uuid from
        pos_moveTo (m := m.setConn uuid (connAfter (m.conns uuid) turn)), nextPos_net]
    exact hnext

/-- `Start()` on the session that was waiting to be accepted. -/
theorem Receives.accept (h : m.Receives size) (hhome : m.AtHome size) :
    m.accepted.Receives size := by
  have hnew := hhome.untouched m.fresh (Nat.le_refl _)
  have hidle : m.pos size m.fresh = none := by
    unfold pos
    cases hp : m.pool (ioService size m.fresh) with
    | inHandleRead u data copyLen n =>
      have hlt := (hhome.handlers _ u (by rw [hp]; rfl)).2
      exact NetPos.at_of_ne (Nat.ne_of_gt hlt) _ _ _
    | idle | clearing | clearLocked | erased | writing | writeLocked | written => rfl
  have hown := h.own m.fresh
  rw [hidle] at hown
  have hconn : m.accepted.conns m.fresh =
      { m.conns m.fresh with reads := (m.conns m.fresh).reads + 1 } := Function.update_self ..
  refine h.framed m.fresh [] ?_ (fun s hs => Function.update_of_ne hs ..)
    (fun _ _ => rfl) (fun i => ?_) ?_
  · rw [hconn]
    exact .refl rfl rfl rfl
  · show m.logic.handedOver i = _
    split <;> simp [delivered]
  · rw [hconn, delivered_nil, List.append_nil, show m.accepted.pos size m.fresh = none from hidle]
    exact hown.start (by rw [hnew]; rfl) (by rw [hnew]; rfl) rfl (by rw [hnew]; rfl) rfl

/-- No header declares a negative length. -/
def Unbroken (m : Machine) : Prop := ∀ s, (ref.parse (m.conns s).received).tail ≠ .broken

theorem step_receives {a : Act} (h : m.Receives size) (hhome : m.AtHome size) (hneg : m.Unbroken)
    (hstep : m.step size f a = some m') : m'.Receives size := by
  obtain ⟨hspec, _⟩ := step_cases hstep
  have hmove : ∀ {i : Nat} {p : PoolPos}, (m.pool i).net = .idle → p.net = .idle →
      ∀ s, (m.moveTo i p).pos size s = m.pos size s := fun h hp s => pos_outside h hp
  cases hspec with
  | accept pos => exact h.accept hhome
  | acceptError pos | acceptLock pos free | acceptInsert pos | acceptUnlock pos =>
    exact h.of_conns rfl rfl (fun _ => rfl) (fun _ => rfl) (fun _ => rfl) fun _ => rfl
  | @read uuid chunk free listens ne le =>
    obtain ⟨hpool, _⟩ := Threads.free_idle free
    exact h.begin hpool (Or.inl rfl) rfl ((h.idle hpool).read uuid listens ne le rfl rfl rfl)
  | readError free listens =>
    obtain ⟨hpool, _⟩ := Threads.free_idle free
    exact h.begin hpool (Or.inl rfl) rfl ((h.idle hpool).readError listens rfl rfl rfl)
  | writeError free found done =>
    obtain ⟨hpool, _⟩ := Threads.free_idle free
    exact h.begin hpool (Or.inl rfl) rfl ((h.idle hpool).of_agree rfl rfl rfl (Nat.le_refl _)
      (fun _ _ => rfl) fun _ _ => rfl)
  | write free found =>
    obtain ⟨hpool, _⟩ := Threads.free_idle free
    exact h.begin hpool (Or.inl rfl) rfl ((h.idle hpool).of_agree rfl rfl rfl (Nat.le_refl _)
      (fun _ _ => rfl) fun _ _ => rfl)
  | turn pos idle left body posted => exact (h.turn hhome (hneg _) pos body posted).2
  | @passEnd i uuid data copyLen pos idle =>
    obtain ⟨rfl, _⟩ := hhome.handlers i uuid (by rw [pos]; rfl)
    have hown := h.own uuid
    rw [Machine.pos, pos, show (PoolPos.inHandleRead uuid data copyLen 0).net.at uuid =
      some (data, copyLen, 0) from NetPos.at_self ..] at hown
    exact absurd hown.bytes_left (Nat.lt_irrefl 0)
  | clearLock pos idle free =>
    exact h.of_conns rfl rfl (fun _ => rfl) (fun _ => rfl) (fun _ => rfl)
      (hmove (by rw [pos]; rfl) rfl)
  | clearErase pos idle =>
    exact h.of_conns rfl rfl (fun _ => rfl) (fun _ => rfl) (fun _ => rfl)
      (hmove (by rw [pos]; rfl) rfl)
  | clearUnlock pos idle =>
    exact h.of_conns rfl rfl (fun _ => rfl) (fun _ => rfl) (fun _ => rfl)
      (hmove (by rw [pos]; rfl) rfl)
  | writeLock pos idle free =>
    exact h.of_conns rfl rfl (fun _ => rfl) (fun _ => rfl) (fun _ => rfl)
      (hmove (by rw [pos]; rfl) rfl)
  | written pos idle done =>
    exact h.of_conns rfl rfl (field_update Conn.session rfl) (field_update Conn.reads rfl)
      (field_update Conn.received rfl) (hmove (by rw [pos]; rfl) rfl)
  | writeUnlock pos idle =>
    exact h.of_conns rfl rfl (fun _ => rfl) (fun _ => rfl) (fun _ => rfl)
      (hmove (by rw [pos]; rfl) rfl)
  | send pos sender sent =>
    exact h.of_conns rfl rfl (field_update Conn.session rfl) (field_update Conn.reads rfl)
      (field_update Conn.received rfl) fun _ => rfl
  | writeFailed | sendLock | sendFailed | sendUnlock =>
    exact h.of_conns rfl rfl (fun _ => rfl) (fun _ => rfl) (fun _ => rfl) fun _ => rfl
  | callbackReturn pos sender step => exact h.logicStep hhome step nofun
  | queue act step =>
    refine h.logicStep hhome step fun j n heq => ?_
    subst heq
    cases act

end Machine
end ServerV3Mt
end AsyncEchoServer
