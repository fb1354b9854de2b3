import AsyncEchoServer.ServerV3.Quiet

/-!
# `ServerV3/Serve.lean` — the single-threaded server, one byte at a time

A server that has answered everything can be made to go on by exactly as much as one likes. It is
given the next bytes of one session, its threads are left to themselves, and when they rest it has
answered what these bytes complete and done nothing else (`Serving.feed`).

Left to itself it might also die of a reply that no node can be built for. It does not, if the
replies it owes can all be sent, one behind the other on the queue as it is (`sentAll`): which
replies it owes is known before the first step, and so is their order (`Inv.next_reply`).
-/

set_option autoImplicit false

namespace AsyncEchoServer
namespace ServerV3

/-- The queue behind a `Send` that comes back. -/
def sent (q : SendQueue SendNode) (r : Bytes × Short) : Option (SendQueue SendNode) :=
  match sendString r.1 r.2 q with
  | some (.returned, q') => some q'
  | _ => none

/-- … and behind several, in order. -/
def sentAll (q : SendQueue SendNode) (rs : List (Bytes × Short)) : Option (SendQueue SendNode) :=
  rs.foldlM sent q

theorem sent_eq_some {q q' : SendQueue SendNode} {r : Bytes × Short} :
    sent q r = some q' ↔ sendString r.1 r.2 q = some (.returned, q') := by
  unfold sent
  constructor
  · intro h
    split at h
    · rename_i q₁ hsend
      cases h
      exact hsend
    · cases h
  · intro h
    rw [h]

theorem sentAll_cons {q q' : SendQueue SendNode} {r : Bytes × Short} {rs : List (Bytes × Short)} :
    sentAll q (r :: rs) = some q' ↔ ∃ q₁, sent q r = some q₁ ∧ sentAll q₁ rs = some q' := by
  unfold sentAll
  rw [List.foldlM_cons]
  exact Option.bind_eq_some_iff

theorem sentAll_append {q q' : SendQueue SendNode} {rs rs' : List (Bytes × Short)} :
    sentAll q (rs ++ rs') = some q' ↔ ∃ q₁, sentAll q rs = some q₁ ∧ sentAll q₁ rs' = some q' := by
  unfold sentAll
  rw [List.foldlM_append]
  exact Option.bind_eq_some_iff

/-- The replies to the requests among some messages. -/
def replies (f : Short × Bytes → Bytes × Short) (msgs : List (Short × Bytes)) :
    List (Bytes × Short) := (msgs.filter (·.1 = msgHelloWord)).map f

theorem replies_prefix {f : Short × Bytes → Bytes × Short} {a b : List (Short × Bytes)}
    (h : a <+: b) : replies f a <+: replies f b := (h.filter _).map f

/-- What a session shows to the outside. -/
def Conn.outside (c : Conn) : Bytes × List (Bytes × Short) × SendQueue SendNode :=
  (c.received, c.sends, c.sendQueue)

theorem Conn.outside_eq {c : Conn} {b : Bytes} {rs : List (Bytes × Short)}
    {q : SendQueue SendNode} (h : c.outside = (b, rs, q)) :
    c.received = b ∧ c.sends = rs ∧ c.sendQueue = q := by
  obtain ⟨hrecv, hrest⟩ := Prod.mk.inj h
  exact ⟨hrecv, Prod.mk.inj hrest⟩

namespace Machine

variable {f : Short × Bytes → Bytes × Short} {m m' : Machine}

/-! ## What is owed -/

/-- The worker answers the session's next request. -/
theorem Inv.next_reply (hi : Inv f m) {n : NodeRef} {uuid : Nat} {msg : Short × Bytes} {d : Bool}
    (hw : m.logic.worker = .running n (uuid, msg) d) :
    (m.conns uuid).sends ++ [f msg] <+: replies f (m.framed uuid) := by
  have hd := hi.dispatches
  obtain ⟨done, hread, hdone⟩ := hi.handed_prefix uuid
  -- the node in the callback is the one behind those the worker is done with
  have hposted : m.logic.handled ++ [n] <+: m.logic.posted := by
    have hfront := hd.inv.front
    simp only [LogicSystem.picked, hw] at hfront
    obtain ⟨rest, hq⟩ := List.head?_eq_some_iff.mp hfront
    have hbooked : m.logic.posted = m.logic.finished ++ m.logic.msgQueue := hd.booked
    refine ⟨rest, ?_⟩
    rw [hbooked, hq]
    simp [LogicSystem.handled, hw]
  have hpre : nodesOf (m.logic.handled ++ [n]) uuid <+: nodesOf (m.logic.handedOver 0) uuid :=
    ((hposted.trans (List.prefix_append _ _)).filter _).map _
  have hfirst : (nodesOf (m.logic.handled ++ [n]) uuid).map (messageAt m.heap) =
      (done.take (nodesOf (m.logic.handled ++ [n]) uuid).length).map some := by
    rw [List.map_take, ← hread, ← List.map_take]
    exact congrArg _ (List.prefix_iff_eq_take.mp hpre)
  have hreplies := repliesTo_eq (f := f) hfirst
  rw [List.filterMap_append, List.filterMap_cons_some (hd.inv.inCallBack n _ d hw),
    List.filterMap_nil, repliesTo_append, ← hd.sent uuid] at hreplies
  have hown : repliesTo f uuid [(uuid, msg)] = [f msg] := by
    rw [repliesTo, List.filter_cons_of_pos (by simp)]
    rfl
  rw [hown] at hreplies
  rw [hreplies]
  exact replies_prefix ((List.take_prefix _ _).trans hdone)

/-- A machine that is only left with answering: every session is waiting for bytes, and what it
still owes can be sent. Then the queues will be `Q`. -/
structure Owing (f : Short × Bytes → Bytes × Short) (Q : Nat → SendQueue SendNode) (m : Machine) :
    Prop where
  reachable : (system f).Reachable m
  alive : m.fate = .alive
  lives : m.logic.destructor = .alive
  pending : ∀ s, ∃ r, (ref.parse (m.conns s).received).tail = .pending r
  listens : ∀ s, m.net.at s = none → (m.conns s).reads = 1
  owes : ∀ s, ∃ rs, replies f (m.framed s) = (m.conns s).sends ++ rs ∧
    sentAll (m.conns s).sendQueue rs = some (Q s)

variable {Q : Nat → SendQueue SendNode}

theorem Owing.unbroken (h : Owing f Q m) : m.Unbroken := by
  intro s hb
  obtain ⟨r, hr⟩ := h.pending s
  rw [hr] at hb
  cases hb

theorem Owing.inv (h : Owing f Q m) : Inv f m := reachable_inv h.reachable h.unbroken

/-- The reply of the callback that is running is the first that is owed, and can be sent. -/
theorem Owing.next (h : Owing f Q m) {n : NodeRef} {uuid : Nat} {msg : Short × Bytes} {d : Bool}
    (hw : m.logic.worker = .running n (uuid, msg) d) :
    ∃ rs q, replies f (m.framed uuid) = ((m.conns uuid).sends ++ [f msg]) ++ rs ∧
      sent (m.conns uuid).sendQueue (f msg) = some q ∧ sentAll q rs = some (Q uuid) := by
  obtain ⟨rs, howes, hall⟩ := h.owes uuid
  obtain ⟨rest, hrest⟩ := h.inv.next_reply hw
  rw [howes, List.append_assoc] at hrest
  have hfirst : rs = f msg :: rest := (List.append_cancel_left hrest).symm
  subst hfirst
  obtain ⟨q, hq, hlater⟩ := sentAll_cons.mp hall
  exact ⟨rest, q, by rw [howes, List.append_assoc]; rfl, hq, hlater⟩

/-- A step that shows nothing to the outside. -/
theorem Owing.hidden (h : Owing f Q m) (hreach : (system f).Reachable m')
    (halive : m'.fate = m.fate) (hlives : m'.logic.destructor = m.logic.destructor)
    (hsame : ∀ s, (m'.conns s).outside = (m.conns s).outside)
    (hlistens : ∀ s, m'.net.at s = none → (m'.conns s).reads = 1) : Owing f Q m' where
  reachable := hreach
  alive := halive.trans h.alive
  lives := hlives.trans h.lives
  pending s := by
    rw [(Conn.outside_eq (hsame s)).1]
    exact h.pending s
  listens := hlistens
  owes s := by
    obtain ⟨hrecv, hsends, hqueue⟩ := Conn.outside_eq (hsame s)
    rw [framed, hrecv, hsends, hqueue]
    exact h.owes s

/-- The callback sends its reply and returns. -/
theorem Owing.replied (h : Owing f Q m) {n : NodeRef} {uuid : Nat} {msg : Short × Bytes} {d : Bool}
    {q : SendQueue SendNode} (hw : m.logic.worker = .running n (uuid, msg) d)
    (hsend : sendString (f msg).1 (f msg).2 (m.conns uuid).sendQueue = some (.returned, q))
    (hreach : (system f).Reachable m') (halive : m'.fate = .alive)
    (hlives : m'.logic.destructor = m.logic.destructor) (hnet : m'.net = m.net)
    (hconns : m'.conns = Function.update m.conns uuid { m.conns uuid with
      sendQueue := q, sends := (m.conns uuid).sends ++ [f msg] }) : Owing f Q m' := by
  obtain ⟨rs, q', howes, hq, hlater⟩ := h.next hw
  rw [sent_eq_some, hsend] at hq
  cases hq
  have hrecv : ∀ s, (m'.conns s).received = (m.conns s).received := by
    rw [hconns]
    exact field_update Conn.received rfl
  have hreads : ∀ s, (m'.conns s).reads = (m.conns s).reads := by
    rw [hconns]
    exact field_update Conn.reads rfl
  refine ⟨hreach, halive, hlives.trans h.lives, fun s => ?_, fun s hat => ?_, fun s => ?_⟩
  · rw [hrecv s]
    exact h.pending s
  · rw [hnet] at hat
    rw [hreads s]
    exact h.listens s hat
  · by_cases hs : s = uuid
    · subst hs
      refine ⟨rs, ?_, ?_⟩
      · rw [framed, hconns, Function.update_self]
        exact howes
      · rw [hconns, Function.update_self]
        exact hlater
    · rw [framed, hconns, Function.update_of_ne hs]
      exact h.owes s

/-- A session that is left by its handler has a read outstanding. -/
theorem Owing.turn_listens (h : Owing f Q m) {uuid n : Nat} {data : Bytes} {copyLen : Int}
    {turn : Turn Short} (hpos : m.net = .inHandleRead uuid data copyLen n)
    (hturn : loopBody receiver data (m.loopAt uuid copyLen n) = turn) (s : Nat)
    (hat : (nextPos uuid data turn).at s = none) :
    (Function.update m.conns uuid (connAfter (m.conns uuid) turn) s).reads = 1 := by
  by_cases hs : s = uuid
  · subst hs
    rw [Function.update_self]
    obtain ⟨done, _, hstage⟩ := h.inv.receives.parsed s
    rw [hpos, NetPos.at_self] at hstage
    cases hstage with
    | reading parse coupled remains more reads =>
      have hspec : TurnSpec receiver ref data _
          (loopBody receiver data (m.loopAt s copyLen n)) :=
        loopBody_spec receiver_reads coupled remains
      rw [hturn] at hspec
      show (m.conns s).reads + armed turn.1 = 1
      rw [reads, Nat.zero_add]
      cases hspec with
      | wait next del arm => exact arm
      | last next del msg full arm => exact arm
      | more =>
        unfold nextPos at hat
        rw [NetPos.at_self] at hat
        cases hat
      | reject next =>
        obtain ⟨r, hr⟩ := h.pending s
        rw [parse, Lib.Format.parse_rejected next] at hr
        cases hr
      | broken next =>
        obtain ⟨r, hr⟩ := h.pending s
        rw [parse, Lib.Format.parse_broken next] at hr
        cases hr
  · rw [Function.update_of_ne hs]
    refine h.listens s ?_
    rw [hpos]
    exact NetPos.at_of_ne hs _ _ _

/-- **An own step of the machine** leaves it with as much to answer, or with one reply less. -/
theorem Owing.step {a : Act} (h : Owing f Q m) (ha : a.internal = true)
    (hstep : m.step f a = some m') : Owing f Q m' := by
  have hreach : (system f).Reachable m' := h.reachable.step hstep
  have hlives : m'.logic.destructor = m.logic.destructor := by
    refine step_destructor ?_ hstep
    rintro rfl
    cases ha
  obtain ⟨hspec, _⟩ := step_cases hstep
  cases hspec with
  | read | readError | write => cases ha
  | @turn uuid n data copyLen turn logic pos idle left body posted =>
    refine h.hidden hreach (h.inv.fate_turn h.unbroken pos body) hlives ?_
      (h.turn_listens pos body)
    exact field_update Conn.outside rfl
  | passEnd pos =>
    have hleft := h.inv.receives
    rw [pos] at hleft
    exact absurd hleft.bytes_left (Nat.lt_irrefl 0)
  | replied pos sent step => exact h.replied pos sent hreach h.alive hlives rfl rfl
  | sendFailed pos fails =>
    obtain ⟨_, q, _, hq, _⟩ := h.next pos
    exact absurd (sent_eq_some.mp hq) (fails q)
  | queue act out step => exact h.hidden hreach rfl hlives (fun _ => rfl) h.listens

/-! ## Settling -/

theorem unbroken_before {a : Act} (h : m.step f a = some m') (hneg : m'.Unbroken) :
    m.Unbroken := by
  intro u
  obtain ⟨b, hb⟩ := step_received h u
  have hu := hneg u
  rw [hb] at hu
  exact tail_ne_broken_of_append hu

/-- What is to be done, as a potential. -/
def potential (f : Short × Bytes → Bytes × Short) : (system f).Potential where
  good := Unbroken
  value := work
  internal := Act.internal
  credit := Act.credit
  before := unbroken_before
  uncredited := credit_of_internal
  pays hr hneg h := step_pays (reachable_inv hr hneg) hneg h

theorem reachable_orderly (h : (system f).Reachable m) : Orderly m.logic :=
  h.invariant (I := fun m => Orderly m.logic) init_orderly step_orderly

/-- A machine that has answered everything, and can be given more of any session's stream. -/
structure Serving (f : Short × Bytes → Bytes × Short) (m : Machine) : Prop where
  reachable : (system f).Reachable m
  alive : m.fate = .alive
  lives : m.logic.destructor = .alive
  free : m.networkFree = true
  pending : ∀ s, ∃ r, (ref.parse (m.conns s).received).tail = .pending r
  listens : ∀ s, (m.conns s).reads = 1
  answered : ∀ s, (m.conns s).sends = replies f (m.framed s)

theorem init_serving : Serving f init where
  reachable := .init
  alive := rfl
  lives := rfl
  free := rfl
  pending _ := ⟨[], by rw [init, Lib.Format.parse_nil]⟩
  listens _ := rfl
  answered _ := by
    rw [framed, init, Lib.Format.parse_nil]
    rfl

/-- **What is owed gets answered**: left to itself, the machine settles. -/
theorem Owing.settles (h : Owing f Q m) :
    ∃ as m', (system f).run m as = some m' ∧ Serving f m' ∧
      (∀ s, (m'.conns s).received = (m.conns s).received) ∧
      ∀ s, (m'.conns s).sendQueue = Q s := by
  obtain ⟨as, m', has, hrun, _, hquiet⟩ := (potential f).exists_quiet
    (fun {s s' a} ha hgood hs => fun u => by
      rw [internal_received ha hs u]
      exact hgood u) h.reachable h.unbroken
  obtain ⟨howing, hrecv⟩ := Lib.System.run_keeps (A := fun a => Act.internal a = true)
    (G := fun w => Owing f Q w ∧ ∀ s, (w.conns s).received = (m.conns s).received)
    (fun ha hG hs => ⟨hG.1.step ha hs, fun s => (internal_received ha hs s).trans (hG.2 s)⟩)
    has hrun ⟨h, fun _ => rfl⟩
  have hstuck : ∀ a : Act, a.internal = true → m'.step f a = none := hquiet
  have hworker := hstuck .worker rfl
  have hpost := hstuck .post rfl
  have hpass := hstuck .pass rfl
  unfold Machine.step at hworker hpost hpass
  rw [if_pos howing.alive] at hworker hpost hpass
  obtain ⟨hwait, hidle⟩ := (reachable_orderly howing.reachable).rests howing.inv.dispatches.inv
    howing.lives (stuck_worker hworker) (Option.map_eq_none_iff.mp hpost)
  have hnet := stuck_pass hpass (hidle 0)
  have hanswered := howing.inv.rest_sends hnet hidle hwait
  refine ⟨as, m', hrun, ⟨howing.reachable, howing.alive, howing.lives, ?_, howing.pending,
    fun s => howing.listens s (by rw [hnet]; rfl), hanswered⟩, hrecv, fun s => ?_⟩
  · unfold networkFree
    rw [hnet, hidle 0]
  · obtain ⟨rs, howes, hall⟩ := howing.owes s
    have hnone : rs = [] := by
      rw [hanswered s] at howes
      exact List.self_eq_append_right.mp howes
    subst hnone
    exact Option.some.inj hall

/-! ## Feeding -/

/-- The machine that has just been given some bytes of a session's stream owes what they
complete, and can send it. -/
theorem Serving.read (h : Serving f m) {uuid : Nat} {b : Bytes} {rs : List (Bytes × Short)}
    {q : SendQueue SendNode} (hne : b ≠ []) (hle : b.length ≤ maxLength)
    (htail : ∃ r, (ref.parse ((m.conns uuid).received ++ b)).tail = .pending r)
    (hrs : replies f (ref.parse ((m.conns uuid).received ++ b)).msgs = (m.conns uuid).sends ++ rs)
    (hq : sentAll (m.conns uuid).sendQueue rs = some q) :
    ∃ m₁, m.step f (.handleRead uuid b) = some m₁ ∧
      Owing f (Function.update (fun s => (m.conns s).sendQueue) uuid q) m₁ ∧
      (m₁.conns uuid).received = (m.conns uuid).received ++ b ∧
      ∀ s, s ≠ uuid → m₁.conns s = m.conns s := by
  let m₁ : Machine := { m.setConn uuid { m.conns uuid with
    reads := (m.conns uuid).reads - 1
    received := (m.conns uuid).received ++ b } with
    net := .inHandleRead uuid (readBuffer b) 0 b.length }
  have hread : m.step f (.handleRead uuid b) = some m₁ := by
    have hlisten : (m.conns uuid).reads ≠ 0 := by
      rw [h.listens]
      exact Nat.one_ne_zero
    unfold Machine.step
    rw [if_pos h.alive]
    exact if_pos ⟨h.free, hlisten, hne, hle⟩
  have hself : m₁.conns uuid = { m.conns uuid with
      reads := (m.conns uuid).reads - 1
      received := (m.conns uuid).received ++ b } := Function.update_self ..
  have hother : ∀ s, s ≠ uuid → m₁.conns s = m.conns s := fun s hs => Function.update_of_ne hs ..
  refine ⟨m₁, hread, ⟨h.reachable.step (a := .handleRead uuid b) hread, h.alive, h.lives,
    fun s => ?_, fun s hat => ?_, fun s => ?_⟩, congrArg Conn.received hself, hother⟩ <;>
    by_cases hs : s = uuid
  · subst hs
    rw [hself]
    exact htail
  · rw [hother s hs]
    exact h.pending s
  · subst hs
    rw [show m₁.net.at s = _ from NetPos.at_self ..] at hat
    cases hat
  · rw [hother s hs]
    exact h.listens s
  · subst hs
    refine ⟨rs, ?_, ?_⟩
    · rw [framed, hself]
      exact hrs
    · rw [hself, Function.update_self]
      exact hq
  · refine ⟨[], ?_, ?_⟩
    · rw [framed, hother s hs, List.append_nil]
      exact (h.answered s).symm
    · rw [hother s hs, Function.update_of_ne hs]
      rfl

/-- … and sends it, left to itself. -/
theorem Serving.chunk (h : Serving f m) {uuid : Nat} {b : Bytes} {rs : List (Bytes × Short)}
    {q : SendQueue SendNode} (hne : b ≠ []) (hle : b.length ≤ maxLength)
    (htail : ∃ r, (ref.parse ((m.conns uuid).received ++ b)).tail = .pending r)
    (hrs : replies f (ref.parse ((m.conns uuid).received ++ b)).msgs = (m.conns uuid).sends ++ rs)
    (hq : sentAll (m.conns uuid).sendQueue rs = some q) :
    ∃ as m', (system f).run m as = some m' ∧ Serving f m' ∧
      (m'.conns uuid).outside = ((m.conns uuid).received ++ b, (m.conns uuid).sends ++ rs, q) ∧
      ∀ s, s ≠ uuid → (m'.conns s).outside = (m.conns s).outside := by
  obtain ⟨m₁, hread, howing, hself, hother⟩ := h.read hne hle htail hrs hq
  obtain ⟨as, m', hrun, hserving, hrecv, hqueue⟩ := howing.settles
  refine ⟨.handleRead uuid b :: as, m', ?_, hserving, ?_, fun s hs => ?_⟩
  · rw [Lib.System.run_of_step (show (system f).step m (.handleRead uuid b) = some m₁ from hread)]
    exact hrun
  · rw [Conn.outside, hserving.answered uuid, framed, hrecv uuid, hqueue uuid, hself,
      Function.update_self, hrs]
  · rw [Conn.outside, hserving.answered s, framed, hrecv s, hqueue s, hother s hs,
      Function.update_of_ne hs, Conn.outside, h.answered s, framed]

/-- **The machine is given the next bytes of a session's stream**, and has answered what they
complete. Nothing else has happened. -/
theorem Serving.feed {uuid : Nat} {b : Bytes} {rs : List (Bytes × Short)}
    {q : SendQueue SendNode} (h : Serving f m)
    (htail : ∃ r, (ref.parse ((m.conns uuid).received ++ b)).tail = .pending r)
    (hrs : replies f (ref.parse ((m.conns uuid).received ++ b)).msgs = (m.conns uuid).sends ++ rs)
    (hq : sentAll (m.conns uuid).sendQueue rs = some q) :
    ∃ as m', (system f).run m as = some m' ∧ Serving f m' ∧
      (m'.conns uuid).outside = ((m.conns uuid).received ++ b, (m.conns uuid).sends ++ rs, q) ∧
      ∀ s, s ≠ uuid → (m'.conns s).outside = (m.conns s).outside := by
  -- a byte at a time
  induction b generalizing m rs with
  | nil =>
    rw [List.append_nil] at hrs
    have hnone : rs = [] := by
      have hanswered := h.answered uuid
      rw [framed, hrs] at hanswered
      exact List.self_eq_append_right.mp hanswered
    subst hnone
    cases hq
    refine ⟨[], m, rfl, h, ?_, fun _ _ => rfl⟩
    rw [List.append_nil, List.append_nil]
    rfl
  | cons x b ih =>
    have hcut : (m.conns uuid).received ++ x :: b = ((m.conns uuid).received ++ [x]) ++ b :=
      List.append_cons ..
    rw [hcut] at htail hrs ⊢
    -- the replies that the first byte completes, and the others
    obtain ⟨rs₁, hrs₁⟩ : ∃ rs₁, replies f (ref.parse ((m.conns uuid).received ++ [x])).msgs =
        (m.conns uuid).sends ++ rs₁ := by
      obtain ⟨new, hnew⟩ := Lib.Format.msgs_append (F := ref) (m.conns uuid).received [x]
      obtain ⟨rs₁, hrs₁⟩ := replies_prefix (f := f) ⟨new, hnew.symm⟩
      exact ⟨rs₁, by rw [← hrs₁, h.answered uuid]; rfl⟩
    obtain ⟨rs₂, rfl⟩ : ∃ rs₂, rs = rs₁ ++ rs₂ := by
      obtain ⟨new, hnew⟩ := Lib.Format.msgs_append (F := ref) ((m.conns uuid).received ++ [x]) b
      obtain ⟨rs₂, hrs₂⟩ := replies_prefix (f := f) ⟨new, hnew.symm⟩
      rw [hrs, hrs₁, List.append_assoc] at hrs₂
      exact ⟨rs₂, (List.append_cancel_left hrs₂).symm⟩
    obtain ⟨q₁, hq₁, hq₂⟩ := sentAll_append.mp hq
    rw [← List.append_assoc (m.conns uuid).sends] at hrs ⊢
    have htail₁ : ∃ r, (ref.parse ((m.conns uuid).received ++ [x])).tail = .pending r := by
      by_contra hdone
      obtain ⟨r, hr⟩ := htail
      have hstays := Lib.Format.tail_append_of_ne_pending (c := b) (not_exists.mp hdone)
      rw [hstays] at hr
      exact hdone ⟨r, hr⟩
    obtain ⟨as₁, m₁, hrun₁, hserving₁, hself₁, hother₁⟩ :=
      h.chunk (List.cons_ne_nil x []) (by show 1 ≤ maxLength; decide) htail₁ hrs₁ hq₁
    obtain ⟨hrecv, hsends, hqueue⟩ := Conn.outside_eq hself₁
    obtain ⟨as₂, m₂, hrun₂, hserving₂, hself₂, hother₂⟩ := ih hserving₁
      (by rw [hrecv]; exact htail) (by rw [hrecv, hsends]; exact hrs)
      (by rw [hqueue]; exact hq₂)
    refine ⟨as₁ ++ as₂, m₂, ?_, hserving₂, ?_, fun s hs => (hother₂ s hs).trans (hother₁ s hs)⟩
    · rw [Lib.System.run_append, hrun₁]
      exact hrun₂
    · rw [hself₂, hrecv, hsends]

/-- A write of a session completes, and nothing else happens. -/
theorem Serving.handleWrite (h : Serving f m) {uuid i : Nat} {error : Bool}
    {q : SendQueue SendNode}
    (hstep : (m.conns uuid).sendQueue.step (.handleWrite i error) = some q) :
    ∃ m', m.step f (.handleWrite uuid i error) = some m' ∧ Serving f m' ∧
      (m'.conns uuid).outside = ((m.conns uuid).received, (m.conns uuid).sends, q) ∧
      ∀ s, s ≠ uuid → (m'.conns s).outside = (m.conns s).outside := by
  have hwrite : m.step f (.handleWrite uuid i error) =
      some (m.setConn uuid { m.conns uuid with sendQueue := q }) := by
    unfold Machine.step
    rw [if_pos h.alive]
    show m.handleWrite uuid i error = _
    unfold Machine.handleWrite
    rw [if_pos h.free, hstep]
    rfl
  have hrecv : ∀ s, ((m.setConn uuid { m.conns uuid with sendQueue := q }).conns s).received =
      (m.conns s).received := field_update Conn.received rfl
  have hsends : ∀ s, ((m.setConn uuid { m.conns uuid with sendQueue := q }).conns s).sends =
      (m.conns s).sends := field_update Conn.sends rfl
  refine ⟨_, hwrite, ⟨h.reachable.step (a := .handleWrite uuid i error) hwrite, h.alive, h.lives,
    h.free, fun s => ?_, fun s => ?_, fun s => ?_⟩, ?_, fun s hs => ?_⟩
  · rw [hrecv s]
    exact h.pending s
  · exact (field_update Conn.reads (by rfl) s).trans (h.listens s)
  · rw [hsends s, framed, hrecv s]
    exact h.answered s
  · exact congrArg Conn.outside (Function.update_self uuid _ m.conns)
  · exact congrArg Conn.outside (Function.update_of_ne hs _ m.conns)

end Machine
end ServerV3
end AsyncEchoServer
