import AsyncEchoServer.ServerV3.Machine
import AsyncEchoServer.Session.Connection

/-!
# `ServerV3/Receive.lean` — the sessions of one network thread

The receive half of the machine's invariant. Every session's nodes that were handed over read as
the messages framed in its stream so far, and no session can write them any more, its own or
another's.

The heap is what could couple the sessions. A pass writes only nodes its session may write
(`Frame`), two sessions never fill the same node (`apart`), and a node that has been handed over
is nobody's (`settled`). That is enough for `Receives.framed`: a step of one session keeps what
is known of the others.
-/

set_option autoImplicit false

namespace AsyncEchoServer

/-- A session stands for the same bytes as long as the node it fills is untouched. -/
theorem Coupled.of_agree {ι : Type} {R : Receiver ι} {F : Lib.Format UInt8 ι} {heap heap' : Heap ι}
    {s : Session} {pend : Bytes} (h : Coupled R F heap s pend)
    (hagree : ∀ q, s.Fills q → heap'[q]? = heap[q]?) : Coupled R F heap' s pend := by
  cases h with
  | head flag short total holds => exact .head flag short total holds
  | body flag held short =>
    have hget := (hagree _ ⟨flag, held.ptr⟩).trans held.get
    exact .body flag { held with get := hget } short

namespace ServerV3

/-! ## The network thread -/

/-- Where the loop of the session's `HandleRead` is, if it is running. -/
def NetPos.at : NetPos → Nat → Option (Bytes × Int × Nat)
  | .inHandleRead u data copyLen bytesTransferred, uuid =>
    if u = uuid then some (data, copyLen, bytesTransferred) else none
  | .idle, _ => none

theorem NetPos.at_self (uuid : Nat) (data : Bytes) (copyLen : Int) (n : Nat) :
    (NetPos.inHandleRead uuid data copyLen n).at uuid = some (data, copyLen, n) := if_pos rfl

theorem NetPos.at_of_ne {uuid s : Nat} (h : s ≠ uuid) (data : Bytes) (copyLen : Int) (n : Nat) :
    (NetPos.inHandleRead uuid data copyLen n).at s = none := if_neg (Ne.symm h)

/-- How far a session is with what it has received; `done` has been handed over. -/
inductive Stage (heap : Heap Short) (c : Conn) (done : List (Short × Bytes)) :
    Option (Bytes × Int × Nat) → Prop where
  | waiting (parse : (ref.parse c.received).msgs = done)
      (ready : c.reads ≠ 0 → c.reads = 1 ∧ ∃ r, (ref.parse c.received).tail = .pending r ∧
        Coupled receiver ref heap c.session r) : Stage heap c done none
  | reading {data pend r : Bytes} {copyLen : Int} {n : Nat}
      (parse : ref.parse c.received =
        ⟨done ++ (ref.parse (pend ++ r)).msgs, (ref.parse (pend ++ r)).tail⟩)
      (coupled : Coupled receiver ref heap c.session pend)
      (remains : Remains data
        { heap := heap, session := c.session, copyLen := copyLen, bytesTransferred := n } r)
      (more : r ≠ []) (reads : c.reads = 0) : Stage heap c done (some (data, copyLen, n))

/-- A pass that goes round again has used some of its chunk. -/
theorem Stage.again {heap : Heap Short} {c : Conn} {done : List (Short × Bytes)} {data : Bytes}
    {copyLen : Int} {n : Nat} {turn : Turn Short} {l : Loop Short}
    (h : Stage heap c done (some (data, copyLen, n)))
    (hneg : (ref.parse c.received).tail ≠ .broken)
    (hturn : loopBody receiver data
      { heap := heap, session := c.session, copyLen := copyLen, bytesTransferred := n } = turn)
    (hagain : turn.2 = .again l) : l.bytesTransferred < n := by
  cases h with
  | @reading _ pend r _ _ parse coupled remains more reads =>
    have hspec := loopBody_spec receiver_reads coupled remains
    rw [hturn] at hspec
    cases hspec with
    | wait | reject | last => cases hagain
    | broken next bad =>
      rw [Lib.Format.parse_broken next] at parse
      rw [parse] at hneg
      exact absurd rfl hneg
    | @more _ l' p tag payload rest next ne del msg full arm clr ok coupled' rem =>
      cases hagain
      have hbytes : n = r.length := remains.bytes
      rw [rem.bytes, hbytes]
      exact Lib.Format.next_frame_rest_lt (coupled.incomplete receiver_reads) next

/-- The addresses of a session's nodes. -/
def nodesOf (ns : List NodeRef) (uuid : Nat) : List Nat := (ns.filter (·.1 = uuid)).map Prod.snd

structure Receives (heap : Heap Short) (conns : Nat → Conn) (net : NetPos) (handed : List NodeRef) :
    Prop where
  fills : ∀ s q, (conns s).session.Fills q → q < heap.length
  apart : ∀ s s' q, (conns s).session.Fills q → (conns s').session.Fills q → s = s'
  settled : ∀ n ∈ handed, n.2 < heap.length ∧ ∀ s, ¬ (conns s).session.Fills n.2
  parsed : ∀ s, ∃ done, (nodesOf handed s).map (messageAt heap) = done.map some ∧
    Stage heap (conns s) done (net.at s)

variable {heap heap' : Heap Short} {conns conns' : Nat → Conn} {net net' : NetPos}
  {handed : List NodeRef} {uuid : Nat} {c' : Conn} {es : List Effect}

theorem nodesOf_append (a b : List NodeRef) (uuid : Nat) :
    nodesOf (a ++ b) uuid = nodesOf a uuid ++ nodesOf b uuid := by
  rw [nodesOf, List.filter_append, List.map_append]
  rfl

theorem nodesOf_own (ps : List Nat) (uuid : Nat) : nodesOf (ps.map (uuid, ·)) uuid = ps := by
  induction ps with
  | nil => rfl
  | cons p ps ih =>
    rw [List.map_cons, nodesOf, List.filter_cons_of_pos (by simp), List.map_cons]
    exact congrArg (p :: ·) ih

theorem nodesOf_other {uuid s : Nat} (h : s ≠ uuid) (ps : List Nat) :
    nodesOf (ps.map (uuid, ·)) s = [] := by
  induction ps with
  | nil => rfl
  | cons p ps ih =>
    rw [List.map_cons, nodesOf, List.filter_cons_of_neg (by simpa using Ne.symm h)]
    exact ih

/-- What a stage is about. -/
theorem Stage.transfer {c c' : Conn} {done : List (Short × Bytes)}
    {pos : Option (Bytes × Int × Nat)} (h : Stage heap c done pos) (hsess : c'.session = c.session)
    (hreads : c'.reads = c.reads) (hrecv : c'.received = c.received)
    (hagree : ∀ q, c.session.Fills q → heap'[q]? = heap[q]?) : Stage heap' c' done pos := by
  cases h with
  | waiting parse ready =>
    refine .waiting (by rw [hrecv, parse]) ?_
    intro hne
    rw [hreads] at hne ⊢
    obtain ⟨hone, r, htail, hc⟩ := ready hne
    exact ⟨hone, r, by rw [hrecv, htail], by rw [hsess]; exact hc.of_agree hagree⟩
  | reading parse coupled remains more reads =>
    refine .reading (by rw [hrecv, parse]) (by rw [hsess]; exact coupled.of_agree hagree) ?_ more
      (by rw [hreads, reads])
    exact ⟨remains.copyLen, remains.bytes, remains.bound, remains.slice⟩

/-- The receive side does not look at the send queues. -/
theorem Receives.of_conns (h : Receives heap conns net handed)
    (hsess : ∀ s, (conns' s).session = (conns s).session)
    (hreads : ∀ s, (conns' s).reads = (conns s).reads)
    (hrecv : ∀ s, (conns' s).received = (conns s).received) : Receives heap conns' net handed where
  fills s q hq := h.fills s q (by rw [← hsess]; exact hq)
  apart s s' q hq hq' := h.apart s s' q (by rw [← hsess]; exact hq) (by rw [← hsess]; exact hq')
  settled n hn := ⟨(h.settled n hn).1, fun s hq => (h.settled n hn).2 s (by rw [← hsess]; exact hq)⟩
  parsed s := by
    obtain ⟨done, hread, hstage⟩ := h.parsed s
    exact ⟨done, hread, hstage.transfer (hsess s) (hreads s) (hrecv s) fun _ _ => rfl⟩

/-! ### A pass leaves the others alone -/

/-- A node that was handed over is not touched. -/
theorem Receives.kept (h : Receives heap conns net handed) {s' : Session}
    (hf : Frame heap (conns uuid).session es heap' s') {n : NodeRef} (hn : n ∈ handed) :
    heap'[n.2]? = heap[n.2]? := by
  apply hf.kept n.2
  obtain ⟨hlt, hout⟩ := h.settled n hn
  rintro (hle | hfill)
  · exact absurd hlt (Nat.not_lt.mpr hle)
  · exact hout uuid hfill

theorem Receives.read_kept (h : Receives heap conns net handed) {s' : Session}
    (hf : Frame heap (conns uuid).session es heap' s') (s : Nat) :
    (nodesOf handed s).map (messageAt heap') = (nodesOf handed s).map (messageAt heap) := by
  apply List.map_congr_left
  intro p hp
  obtain ⟨n, hn, rfl⟩ := List.mem_map.mp hp
  rw [messageAt, messageAt, h.kept hf (List.mem_of_mem_filter hn)]

/-- Nor is a node another session fills. -/
theorem Receives.other_kept (h : Receives heap conns net handed) {s' : Session}
    (hf : Frame heap (conns uuid).session es heap' s') {s q : Nat} (hs : s ≠ uuid)
    (hq : (conns s).session.Fills q) : heap'[q]? = heap[q]? := by
  apply hf.kept q
  rintro (hle | hfill)
  · exact absurd (h.fills s q hq) (Nat.not_lt.mpr hle)
  · exact hs (h.apart s uuid q hq hfill)

/-- **A framed step of one session** keeps the rest of the receive side; what is left to show is
about the session itself. -/
theorem Receives.framed (h : Receives heap conns net handed)
    (hf : Frame heap (conns uuid).session es heap' c'.session)
    (hnet : ∀ s, s ≠ uuid → net'.at s = net.at s)
    (hown : ∃ done, (nodesOf (handed ++ (delivered es).map (uuid, ·)) uuid).map (messageAt heap') =
      done.map some ∧ Stage heap' c' done (net'.at uuid)) :
    Receives heap' (Function.update conns uuid c') net'
      (handed ++ (delivered es).map (uuid, ·)) where
  fills s q hq := by
    by_cases hs : s = uuid
    · subst hs
      rw [Function.update_self] at hq
      rcases hf.fills q hq with hlt | hold
      · exact hlt
      · exact Nat.lt_of_lt_of_le (h.fills s q hold) hf.grows
    · rw [Function.update_of_ne hs] at hq
      exact Nat.lt_of_lt_of_le (h.fills s q hq) hf.grows
  apart := by
    -- a node the session fills now and another fills was one the session filled before
    have hcross : ∀ s q, s ≠ uuid → c'.session.Fills q → ¬ (conns s).session.Fills q := by
      intro s q hs hq hq'
      rcases hf.shrinks q (Or.inr hq) with hle | hold
      · exact absurd (h.fills s q hq') (Nat.not_lt.mpr hle)
      · exact hs (h.apart s uuid q hq' hold)
    intro s s' q hq hq'
    by_cases hs : s = uuid
    · by_cases hs' : s' = uuid
      · rw [hs, hs']
      · subst hs
        rw [Function.update_self] at hq
        rw [Function.update_of_ne hs'] at hq'
        exact absurd hq' (hcross s' q hs' hq)
    · rw [Function.update_of_ne hs] at hq
      by_cases hs' : s' = uuid
      · subst hs'
        rw [Function.update_self] at hq'
        exact absurd hq (hcross s q hs hq')
      · rw [Function.update_of_ne hs'] at hq'
        exact h.apart s s' q hq hq'
  settled := by
    intro n hn
    rcases List.mem_append.mp hn with hn | hn
    · obtain ⟨hlt, hout⟩ := h.settled n hn
      refine ⟨Nat.lt_of_lt_of_le hlt hf.grows, ?_⟩
      intro s hq
      by_cases hs : s = uuid
      · subst hs
        rw [Function.update_self] at hq
        rcases hf.shrinks n.2 (Or.inr hq) with hle | hold
        · exact absurd hlt (Nat.not_lt.mpr hle)
        · exact hout s hold
      · rw [Function.update_of_ne hs] at hq
        exact hout s hq
    · obtain ⟨p, hp, rfl⟩ := List.mem_map.mp hn
      obtain ⟨hbefore, hafter⟩ := hf.handed p hp
      refine ⟨Nat.not_le.mp fun hle => hafter (Or.inl hle), ?_⟩
      intro s hq
      by_cases hs : s = uuid
      · subst hs
        rw [Function.update_self] at hq
        exact hafter (Or.inr hq)
      · rw [Function.update_of_ne hs] at hq
        rcases hbefore with hle | hold
        · exact absurd (h.fills s p hq) (Nat.not_lt.mpr hle)
        · exact hs (h.apart s uuid p hq hold)
  parsed := by
    intro s
    by_cases hs : s = uuid
    · subst hs
      rw [Function.update_self]
      exact hown
    · obtain ⟨done, hread, hstage⟩ := h.parsed s
      rw [Function.update_of_ne hs, nodesOf_append, nodesOf_other hs, List.append_nil,
        h.read_kept hf, hnet s hs]
      exact ⟨done, hread, hstage.transfer rfl rfl rfl fun q hq => h.other_kept hf hs hq⟩

/-- What the session has handed over, after a step that hands over `new`. -/
theorem Receives.read_more (h : Receives heap conns net handed) {s' : Session}
    (hf : Frame heap (conns uuid).session es heap' s') {done : List (Short × Bytes)}
    (new : List (Short × Bytes))
    (hread : (nodesOf handed uuid).map (messageAt heap) = done.map some)
    (hnew : (delivered es).map (messageAt heap') = new.map some) :
    (nodesOf (handed ++ (delivered es).map (uuid, ·)) uuid).map (messageAt heap') =
      (done ++ new).map some := by
  rw [nodesOf_append, nodesOf_own, List.map_append, h.read_kept hf, hread, hnew, List.map_append]

theorem nextPos_other {data : Bytes} {copyLen : Int} {n s : Nat} (turn : Turn Short)
    (hs : s ≠ uuid) :
    (nextPos uuid data turn).at s = (NetPos.inHandleRead uuid data copyLen n).at s := by
  rw [NetPos.at_of_ne hs]
  unfold nextPos
  split
  · exact NetPos.at_of_ne hs _ _ _
  · rfl

/-- The loop of a running `HandleRead` has bytes left. -/
theorem Receives.bytes_left {data : Bytes} {copyLen : Int} {n : Nat}
    (h : Receives heap conns (.inHandleRead uuid data copyLen n) handed) : 0 < n := by
  obtain ⟨done, _, hstage⟩ := h.parsed uuid
  rw [NetPos.at_self] at hstage
  cases hstage with
  | reading parse coupled remains more reads =>
    have hlen := remains.bytes
    dsimp only at hlen
    rw [hlen]
    exact List.length_pos_of_ne_nil more

/-- **A pass**, on a stream that is not broken. -/
theorem Receives.pass {data : Bytes} {copyLen : Int} {n : Nat} {turn : Turn Short}
    (h : Receives heap conns (.inHandleRead uuid data copyLen n) handed)
    (hneg : (ref.parse (conns uuid).received).tail ≠ .broken)
    (hturn : loopBody receiver data
      { heap := heap, session := (conns uuid).session, copyLen := copyLen,
        bytesTransferred := n } = turn)
    (hsess : c'.session = (Turn.after turn).session)
    (hreads : c'.reads = (conns uuid).reads + armed turn.1)
    (hrecv : c'.received = (conns uuid).received) :
    (delivered turn.1).length ≤ 1 ∧
      Receives (Turn.after turn).heap (Function.update conns uuid c') (nextPos uuid data turn)
        (handed ++ (delivered turn.1).map (uuid, ·)) := by
  obtain ⟨done, hread, hstage⟩ := h.parsed uuid
  rw [NetPos.at_self] at hstage
  cases hstage with
  | @reading _ pend r _ _ parse coupled remains more reads =>
  rw [reads, Nat.zero_add] at hreads
  have hspec := loopBody_spec receiver_reads coupled remains
  have hframe := loopBody_frame receiver data
    { heap := heap, session := (conns uuid).session, copyLen := copyLen, bytesTransferred := n }
  rw [hturn] at hspec hframe
  rw [← hsess] at hframe
  have hother : ∀ s, s ≠ uuid → (nextPos uuid data turn).at s =
    (NetPos.inHandleRead uuid data copyLen n).at s := fun s hs => nextPos_other turn hs
  cases hspec with
  | wait next del arm clr ok coupled' =>
    rw [Lib.Format.parse_incomplete next] at parse
    refine ⟨by rw [del]; exact Nat.zero_le 1, h.framed hframe hother ?_⟩
    refine ⟨_, h.read_more hframe [] hread (by rw [del]; rfl), .waiting ?_ ?_⟩
    · rw [hrecv, parse]
    · intro _
      exact ⟨hreads.trans arm, pend ++ r, by rw [hrecv, parse], by rw [hsess]; exact coupled'⟩
  | reject next del arm clr ok =>
    rw [Lib.Format.parse_rejected next] at parse
    refine ⟨by rw [del]; exact Nat.zero_le 1, h.framed hframe hother ?_⟩
    refine ⟨_, h.read_more hframe [] hread (by rw [del]; rfl), .waiting ?_ ?_⟩
    · rw [hrecv, parse]
    · intro hne
      exact absurd (hreads.trans arm) hne
  | broken next bad =>
    rw [Lib.Format.parse_broken next] at parse
    rw [parse] at hneg
    exact absurd rfl hneg
  | @last _ l p tag payload next del msg full arm clr ok coupled' =>
    rw [Lib.Format.parse_frame next, Lib.Format.parse_nil] at parse
    refine ⟨by rw [del]; exact Nat.le_refl 1, h.framed hframe hother ?_⟩
    refine ⟨_, h.read_more hframe [(tag, payload)] hread ?_, .waiting ?_ ?_⟩
    · rw [del, List.map_singleton, List.map_singleton, ← msg]
      rfl
    · rw [hrecv, parse]
    · intro _
      exact ⟨hreads.trans arm, [], by rw [hrecv, parse], by rw [hsess]; exact coupled'⟩
  | @more _ l p tag payload rest next ne del msg full arm clr ok coupled' rem =>
    rw [Lib.Format.parse_frame next] at parse
    refine ⟨by rw [del]; exact Nat.le_refl 1, h.framed hframe hother ?_⟩
    refine ⟨_, h.read_more hframe [(tag, payload)] hread ?_, ?_⟩
    · rw [del, List.map_singleton, List.map_singleton, ← msg]
      rfl
    · show Stage _ c' _ ((NetPos.inHandleRead uuid data l.copyLen l.bytesTransferred).at uuid)
      rw [NetPos.at_self]
      refine .reading ?_ (by rw [hsess]; exact coupled')
        ⟨rem.copyLen, rem.bytes, rem.bound, rem.slice⟩ ne (hreads.trans arm)
      rw [hrecv, parse, List.append_assoc]
      rfl

/-- A chunk arrives for a session that is waiting for one. -/
theorem Receives.read (h : Receives heap conns .idle handed) {chunk : Bytes}
    (hlisten : (conns uuid).reads ≠ 0) (hne : chunk ≠ []) (hlen : chunk.length ≤ maxLength)
    (hsess : c'.session = (conns uuid).session) (hreads : c'.reads = (conns uuid).reads - 1)
    (hrecv : c'.received = (conns uuid).received ++ chunk) :
    Receives heap (Function.update conns uuid c')
      (.inHandleRead uuid (readBuffer chunk) 0 chunk.length) handed := by
  have hframe : Frame heap (conns uuid).session [] heap c'.session :=
    .refl (by rw [hsess]) (by rw [hsess]) rfl
  have hother : ∀ s, s ≠ uuid →
      (NetPos.inHandleRead uuid (readBuffer chunk) 0 chunk.length).at s = NetPos.idle.at s :=
    fun s hs => NetPos.at_of_ne hs _ _ _
  obtain ⟨done, hread, hstage⟩ := h.parsed uuid
  have hframed : Receives heap (Function.update conns uuid c')
      (.inHandleRead uuid (readBuffer chunk) 0 chunk.length)
      (handed ++ (delivered []).map (uuid, ·)) := by
    apply h.framed hframe hother
    refine ⟨_, h.read_more hframe [] hread rfl, ?_⟩
    rw [NetPos.at_self, List.append_nil]
    cases hstage with
    | waiting parse ready =>
      obtain ⟨hone, r, htail, hc⟩ := ready hlisten
      refine .reading ?_ (by rw [hsess]; exact hc) (readBuffer_remains hlen)
        hne (by rw [hreads, hone])
      rw [hrecv, Lib.Format.parse_append, Lib.Format.feed_pending htail, parse]
  rwa [delivered_nil, List.map_nil, List.append_nil] at hframed

/-- Nothing more will be read from a session whose read has failed. -/
theorem Receives.readError (h : Receives heap conns .idle handed)
    (hlisten : (conns uuid).reads ≠ 0) (hsess : c'.session = (conns uuid).session)
    (hreads : c'.reads = (conns uuid).reads - 1) (hrecv : c'.received = (conns uuid).received) :
    Receives heap (Function.update conns uuid c') .idle handed := by
  have hframe : Frame heap (conns uuid).session [] heap c'.session :=
    .refl (by rw [hsess]) (by rw [hsess]) rfl
  obtain ⟨done, hread, hstage⟩ := h.parsed uuid
  have hframed : Receives heap (Function.update conns uuid c') .idle
      (handed ++ (delivered []).map (uuid, ·)) := by
    apply h.framed hframe (fun _ _ => rfl)
    refine ⟨_, h.read_more hframe [] hread rfl, ?_⟩
    rw [List.append_nil]
    cases hstage with
    | waiting parse ready =>
      obtain ⟨hone, _⟩ := ready hlisten
      refine .waiting (by rw [hrecv, parse]) ?_
      intro hne
      rw [hreads, hone] at hne
      exact absurd rfl hne
  rwa [delivered_nil, List.map_nil, List.append_nil] at hframed

/-- The first read of a session nobody has read from. -/
theorem Receives.start (h : Receives heap conns .idle handed)
    (hnew : (conns uuid).session = .fresh receiver) (hempty : (conns uuid).received = [])
    (hsess : c'.session = (conns uuid).session) (hreads : c'.reads = 1)
    (hrecv : c'.received = (conns uuid).received) :
    Receives heap (Function.update conns uuid c') .idle handed := by
  have hframe : Frame heap (conns uuid).session [] heap c'.session :=
    .refl (by rw [hsess]) (by rw [hsess]) rfl
  obtain ⟨done, hread, hstage⟩ := h.parsed uuid
  have hframed : Receives heap (Function.update conns uuid c') .idle
      (handed ++ (delivered []).map (uuid, ·)) := by
    apply h.framed hframe (fun _ _ => rfl)
    refine ⟨_, h.read_more hframe [] hread rfl, ?_⟩
    rw [List.append_nil]
    cases hstage with
    | waiting parse ready =>
      refine .waiting (by rw [hrecv, parse]) fun _ => ⟨hreads, [], ?_, ?_⟩
      · rw [hrecv, hempty, Lib.Format.parse_nil]
      · rw [hsess, hnew]
        exact Session.fresh_coupled receiver_reads heap
  rwa [delivered_nil, List.map_nil, List.append_nil] at hframed

/-- A running `HandleRead` has taken the read that was outstanding, and a pass that leaves it has
armed another or cleared the session. -/
theorem Receives.pass_reads {data : Bytes} {copyLen : Int} {n : Nat} {turn : Turn Short}
    (h : Receives heap conns (.inHandleRead uuid data copyLen n) handed)
    (hneg : (ref.parse (conns uuid).received).tail ≠ .broken)
    (hturn : loopBody receiver data
      { heap := heap, session := (conns uuid).session, copyLen := copyLen,
        bytesTransferred := n } = turn) :
    (conns uuid).reads = 0 ∧
      ((∃ l, turn.2 = .again l) ∨ armed turn.1 = 1 ∨ cleared turn.1 = 1) := by
  obtain ⟨done, _, hstage⟩ := h.parsed uuid
  rw [NetPos.at_self] at hstage
  cases hstage with
  | reading parse coupled remains more reads =>
    refine ⟨reads, ?_⟩
    have hspec := loopBody_spec receiver_reads coupled remains
    rw [hturn] at hspec
    cases hspec with
    | wait next del arm => exact Or.inr (Or.inl arm)
    | last next del msg full arm => exact Or.inr (Or.inl arm)
    | reject next del arm clr => exact Or.inr (Or.inr clr)
    | @more _ l => exact Or.inl ⟨l, rfl⟩
    | broken next bad =>
      rw [Lib.Format.parse_broken next] at parse
      rw [parse] at hneg
      exact absurd rfl hneg

/-- A session has at most one read outstanding. -/
theorem Receives.reads_le (h : Receives heap conns net handed) (s : Nat) : (conns s).reads ≤ 1 := by
  obtain ⟨done, _, hstage⟩ := h.parsed s
  generalize net.at s = pos at hstage
  cases hstage with
  | reading parse coupled remains more reads => omega
  | waiting parse ready =>
    by_cases hzero : (conns s).reads = 0
    · omega
    · exact Nat.le_of_eq (ready hzero).1

end ServerV3
end AsyncEchoServer
