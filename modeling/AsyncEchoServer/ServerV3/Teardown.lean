import AsyncEchoServer.Logic.Reply
import AsyncEchoServer.ServerV3.CServer

/-!
# `ServerV3/Teardown.lean` — what is left of a session that was given up

Four exits give a session up. An error of a read or of a write closes the socket and clears the
entry; a header over the limits only clears it. The entry is one owner of several: a write that is
outstanding, or a node in the logic queue, keeps the session alive, and the socket open with it.
`teardown_complete_iff` says which runs leave no such session behind.

`_b_close` is set by `Close()` and read by nobody, so a handler or a callback that finds the
session closed goes on as if it were not. `closed_inert_iff` says which steps have nothing to do
anyway.

Nothing is assumed about the streams here: both laws hold in every run.
-/

set_option autoImplicit false

namespace AsyncEchoServer

namespace SendQueue

variable {ν : Type} {q q' : SendQueue ν}

/-- A `Send` leaves `_b_close` alone. -/
theorem send_bClose {node : Except Fault ν} {x : Exit} (h : q.send node = some (x, q')) :
    q'.bClose = q.bClose := by
  rcases send_cases h with ⟨rfl, _⟩ | ⟨n, _, _, _, ⟨_, rfl⟩ | ⟨_, rfl⟩⟩ <;> rfl

/-- A completion sets it when there was an error, and starts a write when there was none and
another node is queued. -/
theorem step_handleWrite {i : Nat} {error : Bool} (h : q.step (.handleWrite i error) = some q') :
    (q'.bClose = true ↔ q.bClose = true ∨ error = true) ∧
      (q'.started = q.started ↔ error = true ∨ q.sendQue.length ≤ 1) := by
  simp only [step] at h
  split at h
  · cases h
  · obtain ⟨⟨es, p⟩, hdone, rfl⟩ := Option.map_eq_some_iff.mp h
    unfold handleWrite at hdone
    cases error with
    | true =>
      rw [if_pos rfl] at hdone
      cases hdone
      simp
    | false =>
      rw [if_neg Bool.false_ne_true] at hdone
      cases hque : q.sendQue with
      | nil =>
        simp only [hque] at hdone
        cases hdone
      | cons front rest =>
        simp only [hque] at hdone
        cases rest with
        | nil =>
          cases hdone
          simp
        | cons next rest =>
          cases hdone
          simp

/-- A `Send` that returns starts a write on an empty queue only. -/
theorem send_started {node : Except Fault ν} (h : q.send node = some (.returned, q')) :
    q'.started = q.started ↔ q.sendQue ≠ [] := by
  rcases send_cases h with ⟨rfl, hfull | hthrew⟩ | ⟨n, _, _, _, ⟨hne, rfl⟩ | ⟨hempty, rfl⟩⟩
  · refine iff_of_true rfl fun hempty => ?_
    rw [hempty] at hfull
    exact Nat.not_lt_zero _ hfull
  · cases hthrew
  · exact iff_of_true rfl hne
  · refine iff_of_false ?_ (fun hne => hne hempty)
    exact fun hsame => List.cons_ne_nil _ _ (List.append_right_eq_self.mp hsame)

end SendQueue

namespace ServerV3

variable {J : JsonCpp} {f : Short × Bytes → Bytes × Short}

namespace Machine

variable {m m' : Machine}

/-- What a step does to `_b_close`: an error of a write sets it. -/
theorem step_closed {a : Act} (h : m.step f a = some m') (u : Nat) :
    ((m.conns u).Closed → (m'.conns u).Closed) ∧
      ((m'.conns u).Closed → (m.conns u).Closed ∨ u ∈ a.session) := by
  obtain ⟨hspec, _⟩ := step_cases h
  have same : (m'.conns u).sendQueue.bClose = (m.conns u).sendQueue.bClose →
      ((m.conns u).Closed → (m'.conns u).Closed) ∧
        ((m'.conns u).Closed → (m.conns u).Closed ∨ u ∈ a.session) := by
    intro hsame
    refine ⟨fun hc => hsame.trans hc, fun hc => Or.inl (hsame.symm.trans hc)⟩
  cases hspec with
  | read => exact same (field_update (fun c => c.sendQueue.bClose) (by rfl) u)
  | readError => exact same (field_update (fun c => c.sendQueue.bClose) (by rfl) u)
  | turn => exact same (field_update (fun c => c.sendQueue.bClose) (by rfl) u)
  | @write uuid i error q free done =>
    by_cases hu : u = uuid
    · subst hu
      have hself : (m.setConn u { m.conns u with sendQueue := q }).conns u =
          { m.conns u with sendQueue := q } := Function.update_self _ _ _
      rw [hself]
      refine ⟨fun hc => ?_, fun _ => Or.inr rfl⟩
      exact (SendQueue.step_handleWrite done).1.mpr (Or.inl hc)
    · have hother : (m.setConn uuid { m.conns uuid with sendQueue := q }).conns u = m.conns u :=
        Function.update_of_ne hu _ _
      rw [hother]
      exact ⟨id, Or.inl⟩
  | @replied n uuid msg d q logic pos sent step =>
    have hsame : q.bClose = (m.conns uuid).sendQueue.bClose := SendQueue.send_bClose sent
    exact same (field_update (fun c => c.sendQueue.bClose) hsame u)
  | passEnd | sendFailed | queue => exact same rfl

end Machine

namespace CServer

variable {c c' : CServer}

/-! ## Is a removed session closed? -/

/-- Every session that was cleared has been closed. -/
def TornDown (c : CServer) : Prop := ∀ u ∈ c.gone, (c.conns u).Closed

/-- The step rejects no header of a session that is still open. -/
def ClosesFirst (c : CServer) : Act → Prop
  | .run .pass => ∀ uuid data copyLen n, c.machine.net = .inHandleRead uuid data copyLen n →
      0 < n → RejectsHead receiver data (c.machine.loopAt uuid copyLen n) → (c.conns uuid).Closed
  | _ => True

theorem step_closed_mono {a : Act} (h : step J c a = some c') {u : Nat}
    (hc : (c.conns u).Closed) : (c'.conns u).Closed := by
  cases step_cases h with
  | acceptFailed | threw => exact hc
  | accepted => exact (Machine.field_update (fun d => d.sendQueue.bClose) (by rfl) u).trans hc
  | @ran _ m _ known replies step performed =>
    have hm : (m.conns u).Closed := (Machine.step_closed step u).1 hc
    rw [performed.conn u]
    split
    · rfl
    · exact hm

/-- A handler closes its own session; no pass closes anything. -/
theorem mem_close_effects {m : Machine} {a : Machine.Act} {u : Nat}
    (h : (u, Effect.close) ∈ m.effects a) : u ∈ a.session := by
  rcases mem_effects h with hact | ⟨data, copyLen, n, _, hclose⟩
  · exact hact
  · exact absurd hclose loopBody_no_close

/-- A pass clears its session when it rejects a header. -/
theorem clears_pass {uuid n : Nat} {data : Bytes} {copyLen : Int} {m : Machine}
    (hnet : m.net = .inHandleRead uuid data copyLen n) (hleft : 0 < n) :
    (RejectsHead receiver data (m.loopAt uuid copyLen n) → clears (m.effects .pass) = [uuid]) ∧
      (¬ RejectsHead receiver data (m.loopAt uuid copyLen n) → clears (m.effects .pass) = []) := by
  have heffects : m.effects .pass =
      (loopBody receiver data (m.loopAt uuid copyLen n)).1.map (uuid, ·) := by
    unfold Machine.effects
    rw [hnet]
    exact if_pos hleft
  rw [heffects, clears_map]
  cases loopBody_exit receiver data (m.loopAt uuid copyLen n) with
  | rejects h _ _ clr =>
    rw [clr]
    exact ⟨fun _ => rfl, fun hrej => absurd h hrej⟩
  | fails _ out _ _ clr =>
    rw [clr]
    exact ⟨fun hrej => absurd hrej out, fun _ => rfl⟩
  | goesOn out _ _ clr =>
    rw [clr]
    exact ⟨fun hrej => absurd hrej out, fun _ => rfl⟩

/-- Every other exit closes the session that it clears. -/
theorem closed_of_cleared {a : Machine.Act} {m : Machine} {u : Nat}
    (hfirst : c.ClosesFirst (.run a)) (hstep : c.machine.step (reply J) a = some m)
    (hperf : Performed { c with machine := m } (c.machine.effects a) c')
    (hu : u ∈ clears (c.machine.effects a)) : (c'.conns u).Closed := by
  have closes : (u, Effect.close) ∈ c.machine.effects a → (c'.conns u).Closed := by
    intro hmem
    rw [hperf.conn u, if_pos hmem]
    rfl
  cases a with
  | handleReadError uuid =>
    obtain rfl := List.mem_singleton.mp hu
    exact closes List.mem_cons_self
  | handleWrite uuid i error =>
    cases error with
    | true =>
      obtain rfl := List.mem_singleton.mp hu
      exact closes List.mem_cons_self
    | false => cases hu
  | pass =>
    obtain ⟨hspec, _⟩ := Machine.step_cases hstep
    cases hspec with
    | @turn uuid n data copyLen turn logic pos idle left body posted =>
      obtain ⟨hclr, hgoes⟩ := clears_pass pos left
      have hrej : RejectsHead receiver data (c.machine.loopAt uuid copyLen n) := by
        by_contra hrej
        rw [hgoes hrej] at hu
        cases hu
      rw [hclr hrej] at hu
      obtain rfl := List.mem_singleton.mp hu
      have hc := hfirst u data copyLen n pos left hrej
      have hopen : (u, Effect.close) ∉ c.machine.effects .pass :=
        fun hmem => nomatch mem_close_effects hmem
      rw [hperf.conn u, if_neg hopen]
      exact (Machine.step_closed hstep u).1 hc
    | passEnd pos =>
      unfold Machine.effects at hu
      rw [pos] at hu
      cases hu
    | queue act => cases act
  | handleRead | post | worker | spurious | destructor => cases hu

theorem TornDown.step {a : Act} (ht : c.TornDown) (hfirst : c.ClosesFirst a)
    (h : step J c a = some c') : c'.TornDown := by
  intro u hu
  have old : u ∈ c.gone → (c'.conns u).Closed := fun hold => step_closed_mono h (ht u hold)
  cases step_cases h with
  | acceptFailed | accepted | threw => exact old hu
  | ran known replies step performed =>
    rw [performed.gone] at hu
    rcases List.mem_append.mp hu with hold | hnew
    · exact old hold
    · exact closed_of_cleared hfirst step performed hnew

theorem not_tornDown_of_rejects {a : Act} (hfirst : ¬ c.ClosesFirst a)
    (h : step J c a = some c') : ¬ c'.TornDown := by
  cases step_cases h with
  | acceptFailed | accepted | threw => exact absurd trivial hfirst
  | @ran a m _ known replies step performed =>
    cases a with
    | pass =>
      unfold ClosesFirst at hfirst
      push Not at hfirst
      obtain ⟨uuid, data, copyLen, n, hnet, hleft, hrej, hclosed⟩ := hfirst
      intro ht
      have hgone : uuid ∈ c'.gone := by
        rw [performed.gone, (clears_pass hnet hleft).1 hrej]
        exact List.mem_append_right _ (List.mem_singleton_self _)
      have hc := ht uuid hgone
      have hopen : (uuid, Effect.close) ∉ c.machine.effects .pass :=
        fun hmem => nomatch mem_close_effects hmem
      rw [performed.conn uuid, if_neg hopen] at hc
      exact hclosed (((Machine.step_closed step uuid).2 hc).resolve_right nofun)
    | handleRead | handleReadError | handleWrite | post | worker | spurious | destructor =>
      exact absurd trivial hfirst

/-- **When teardown is complete**: all along a run, exactly when no step rejects a header of a
session that is still open. -/
theorem teardown_complete_iff {as : List Act} (h : (system J).run init as = some c) :
    (∀ pre s, pre <+: as → (system J).run init pre = some s → s.TornDown) ↔
      ∀ pre a s, pre ++ [a] <+: as → (system J).run init pre = some s → s.ClosesFirst a := by
  have hinit : (system J).init.TornDown := fun u hu => absurd hu List.not_mem_nil
  exact Lib.System.run_prefix_iff (I := TornDown) hinit (fun ht hc hs => ht.step hc hs)
    (fun hc hs => not_tornDown_of_rejects hc hs) h

/-- The client hangs up: the read error closes first. -/
theorem teardown_complete_iff_eof : ∃ c, (system noJson).run init
    [.handleAccept false, .run (.handleReadError 0)] = some c ∧ c.gone = [0] ∧ c.TornDown := by
  obtain ⟨c, hc, hgone⟩ : ∃ c, (system noJson).run init
      [.handleAccept false, .run (.handleReadError 0)] = some c ∧ c.gone = [0] := ⟨_, rfl, rfl⟩
  refine ⟨c, hc, hgone, (teardown_complete_iff hc).mpr ?_ _ c (List.prefix_refl _) hc⟩
  intro pre a s hpre _
  rcases List.mem_cons.mp (Lib.System.mem_of_prefix_snoc hpre) with rfl | hmem
  · trivial
  · rw [List.mem_singleton.mp hmem]
    trivial

/-- A client sends an empty `MSG_HELLO_WORD` message, and behind it a header whose id is over the
limit. -/
def helloThenBadId : List Act :=
  [.handleAccept false, .run (.handleRead 0 [3, 0xe9, 0, 0, 0x7f, 0xff, 0, 0]), .run .pass,
    .run .post, .run .post, .run .post, .run .post, .run .post, .run .pass]

/-- The session is cleared and its socket is open, with its message still in the logic queue. -/
theorem cleared_not_closed : ∃ c, (system noJson).run init helloThenBadId = some c ∧
    c.machine.Unbroken ∧ c.machine.fate = .alive ∧ 0 ∈ c.gone ∧ ¬ (c.conns 0).Closed ∧
      c.machine.logic.msgQueue.map Prod.fst = [0] := by
  obtain ⟨c, hc, halive, hgone, hopen, hque, h₀, hrest⟩ : ∃ c,
      (system noJson).run init helloThenBadId = some c ∧ c.machine.fate = .alive ∧
        c.gone = [0] ∧ (c.conns 0).sendQueue.bClose = false ∧
        c.machine.logic.msgQueue.map Prod.fst = [0] ∧
        (c.conns 0).received = [3, 0xe9, 0, 0, 0x7f, 0xff, 0, 0] ∧
        ∀ u, (c.conns (u + 1)).received = [] :=
    ⟨_, rfl, rfl, rfl, rfl, rfl, rfl, fun u => by cases u <;> rfl⟩
  refine ⟨c, hc, fun u => ?_, halive, ?_, ?_, hque⟩
  · cases u with
    | zero => rw [show (c.machine.conns 0).received = _ from h₀]; decide
    | succ u =>
      rw [show (c.machine.conns (u + 1)).received = _ from hrest u, Lib.Format.parse_nil]
      exact nofun
  · rw [hgone]
    exact List.mem_singleton_self 0
  · rw [Conn.Closed, hopen]
    exact Bool.false_ne_true

end CServer

/-! ## Is a closed session inert? -/

namespace Machine

variable {m m' : Machine}

/-- The step initiates nothing on the session: no write, no read, no call of `PostMsgtoQueue`. -/
structure Inert (m m' : Machine) (u : Nat) : Prop where
  writes : (m'.conns u).sendQueue.started = (m.conns u).sendQueue.started
  reads : (m'.conns u).reads ≤ (m.conns u).reads
  posts : nodesOf (m'.logic.handedOver 0) u = nodesOf (m.logic.handedOver 0) u

/-- The step has nothing to do on a closed session: a pass fails or rejects a header, a completed
write was the last, and a reply joins a queue or cannot be built. -/
def LeavesClosed (f : Short × Bytes → Bytes × Short) (m : Machine) : Act → Prop
  | .pass => ∀ uuid data copyLen n, m.net = .inHandleRead uuid data copyLen n → 0 < n →
      (m.conns uuid).Closed → RejectsHead receiver data (m.loopAt uuid copyLen n) ∨
        PassFails receiver data (m.loopAt uuid copyLen n)
  | .handleWrite uuid _ error =>
      (m.conns uuid).Closed → error = true ∨ (m.conns uuid).sendQueue.sendQue.length ≤ 1
  | .worker => ∀ n uuid msg d, m.logic.worker = .running n (uuid, msg) d →
      (m.conns uuid).Closed → (m.conns uuid).sendQueue.sendQue ≠ [] ∨
        32763 < (f msg).1.length % 65536
  | _ => True

/-- A step that is about one session is inert on the others. -/
theorem inert_update_iff {uuid : Nat} {c' : Conn}
    (hconns : m'.conns = Function.update m.conns uuid c')
    (hposts : ∀ u, u ≠ uuid →
      nodesOf (m'.logic.handedOver 0) u = nodesOf (m.logic.handedOver 0) u) :
    (∀ u, (m.conns u).Closed → m.Inert m' u) ↔ ((m.conns uuid).Closed →
      c'.sendQueue.started = (m.conns uuid).sendQueue.started ∧ c'.reads ≤ (m.conns uuid).reads ∧
        nodesOf (m'.logic.handedOver 0) uuid = nodesOf (m.logic.handedOver 0) uuid) := by
  have hself : m'.conns uuid = c' := by rw [hconns, Function.update_self]
  constructor
  · intro hall hc
    obtain ⟨writes, reads, posts⟩ := hall uuid hc
    rw [hself] at writes reads
    exact ⟨writes, reads, posts⟩
  · intro hone u hc
    by_cases hu : u = uuid
    · subst hu
      obtain ⟨writes, reads, posts⟩ := hone hc
      exact ⟨by rw [hself]; exact writes, by rw [hself]; exact reads, posts⟩
    · have hother : m'.conns u = m.conns u := by rw [hconns, Function.update_of_ne hu]
      exact ⟨by rw [hother], by rw [hother], hposts u hu⟩

/-- What a pass does to the calls of `PostMsgtoQueue`, for each session. -/
theorem postTurn_nodes {uuid : Nat} {turn : Turn Short} {logic : LogicSystem NodeRef CallBackArgs}
    (h : m.postTurn uuid turn = some logic) (u : Nat) :
    nodesOf (logic.handedOver 0) u = nodesOf (m.logic.handedOver 0) u ↔
      u ≠ uuid ∨ delivered turn.1 = [] := by
  unfold postTurn at h
  cases hdel : delivered turn.1 with
  | nil =>
    rw [hdel] at h
    cases h
    exact iff_of_true rfl (Or.inr rfl)
  | cons p ps =>
    rw [hdel] at h
    rw [LogicSystem.post_handedOver h, nodesOf_append]
    by_cases hu : u = uuid
    · subst hu
      refine iff_of_false (fun hsame => ?_) (fun hor => ?_)
      · have hnil := List.append_right_eq_self.mp hsame
        rw [nodesOf, List.filter_cons_of_pos (by simp)] at hnil
        cases hnil
      · exact hor.elim (fun hne => hne rfl) (List.cons_ne_nil p ps)
    · refine iff_of_true ?_ (Or.inl hu)
      rw [nodesOf, nodesOf, List.filter_cons_of_neg (by simpa using Ne.symm hu)]
      exact List.append_nil _

/-- A pass, on its own session. -/
theorem turn_inert_iff {uuid n : Nat} {data : Bytes} {copyLen : Int} {turn : Turn Short}
    (body : loopBody receiver data (m.loopAt uuid copyLen n) = turn) :
    armed turn.1 = 0 ∧ delivered turn.1 = [] ↔
      RejectsHead receiver data (m.loopAt uuid copyLen n) ∨
        PassFails receiver data (m.loopAt uuid copyLen n) := by
  subst body
  cases loopBody_exit receiver data (m.loopAt uuid copyLen n) with
  | rejects h arm del => exact iff_of_true ⟨arm, del⟩ (Or.inl h)
  | fails h out arm del => exact iff_of_true ⟨arm, del⟩ (Or.inr h)
  | goesOn out ok active =>
    refine iff_of_false (fun hidle => ?_) (fun hor => hor.elim out ok)
    rcases active with harm | hdel
    · rw [hidle.1] at harm
      cases harm
    · exact hdel hidle.2

/-- **When a step is inert** on every session that is closed. -/
theorem inert_iff {a : Act} (h : m.step f a = some m') :
    (∀ u, (m.conns u).Closed → m.Inert m' u) ↔ m.LeavesClosed f a := by
  obtain ⟨hspec, _⟩ := step_cases h
  cases hspec with
  | read =>
    refine Iff.trans (inert_update_iff rfl fun _ _ => rfl) ?_
    exact iff_of_true (fun _ => ⟨rfl, Nat.sub_le _ _, rfl⟩) trivial
  | readError =>
    refine Iff.trans (inert_update_iff rfl fun _ _ => rfl) ?_
    exact iff_of_true (fun _ => ⟨rfl, Nat.sub_le _ _, rfl⟩) trivial
  | @turn uuid n data copyLen turn logic pos idle left body posted =>
    have hpass : m.LeavesClosed f .pass ↔ ((m.conns uuid).Closed →
        RejectsHead receiver data (m.loopAt uuid copyLen n) ∨
          PassFails receiver data (m.loopAt uuid copyLen n)) := by
      constructor
      · exact fun hleaves => hleaves uuid data copyLen n pos left
      · intro hone uuid' data' copyLen' n' pos'
        rw [pos] at pos'
        cases pos'
        exact fun _ => hone
    rw [hpass, ← turn_inert_iff body]
    refine Iff.trans (inert_update_iff rfl ?_) ?_
    · exact fun u hu => (postTurn_nodes posted u).mpr (Or.inl hu)
    refine imp_congr_right fun _ => ⟨?_, ?_⟩
    · rintro ⟨_, hreads, hposts⟩
      have hreads : (m.conns uuid).reads + armed turn.1 ≤ (m.conns uuid).reads := hreads
      exact ⟨by omega, ((postTurn_nodes posted uuid).mp hposts).resolve_left fun hne => hne rfl⟩
    · rintro ⟨harm, hdel⟩
      refine ⟨rfl, ?_, (postTurn_nodes posted uuid).mpr (Or.inr hdel)⟩
      show (m.conns uuid).reads + armed turn.1 ≤ (m.conns uuid).reads
      rw [harm]
      exact Nat.le_refl _
  | passEnd pos =>
    refine iff_of_true (fun u _ => ⟨rfl, Nat.le_refl _, rfl⟩) ?_
    intro uuid data copyLen n hnet hleft
    rw [pos] at hnet
    cases hnet
    exact absurd hleft (Nat.lt_irrefl 0)
  | @write uuid i error q free done =>
    refine Iff.trans (inert_update_iff rfl fun _ _ => rfl) ?_
    refine imp_congr_right fun _ => ?_
    rw [← (SendQueue.step_handleWrite done).2]
    exact ⟨fun hinert => hinert.1, fun hsame => ⟨hsame, Nat.le_refl _, rfl⟩⟩
  | @replied n uuid msg d q logic pos sent step =>
    have hposts : logic.handedOver 0 = m.logic.handedOver 0 :=
      LogicSystem.workerStep_handedOver step
    refine Iff.trans (inert_update_iff rfl fun u _ => congrArg (nodesOf · u) hposts) ?_
    have hstarted := SendQueue.send_started sent
    constructor
    · intro hone n' uuid' msg' d' pos' hc
      rw [pos] at pos'
      cases pos'
      exact Or.inl (hstarted.mp (hone hc).1)
    · intro hleaves hc
      refine ⟨hstarted.mpr ?_, Nat.le_refl _, congrArg (nodesOf · uuid) hposts⟩
      rcases sendString_returned_iff.mp ⟨q, sent⟩ with hfull | hshort
      · exact List.ne_nil_of_length_pos (Nat.zero_lt_of_lt hfull)
      · exact (hleaves n uuid msg d pos hc).resolve_right (Nat.not_lt.mpr hshort)
  | @sendFailed n uuid msg d fate pos fails =>
    refine iff_of_true (fun u _ => ⟨rfl, Nat.le_refl _, rfl⟩) ?_
    intro n' uuid' msg' d' pos' _
    rw [pos] at pos'
    cases pos'
    refine Or.inr (Nat.not_le.mp fun hshort => ?_)
    obtain ⟨q, hq⟩ := sendString_returned_iff.mpr (Or.inr hshort)
    exact fails q hq
  | queue act out step =>
    refine iff_of_true (fun u _ => ?_) ?_
    · exact ⟨rfl, Nat.le_refl _, congrArg (nodesOf · u) (queue_handedOver act step)⟩
    · cases a with
      | worker => exact fun n uuid msg d hw => absurd hw (out rfl n (uuid, msg) d)
      | post | spurious | destructor => trivial
      | handleRead | handleReadError | pass | handleWrite => cases act

end Machine

namespace CServer

variable {c c' : CServer}

/-- The step has nothing to do on a closed session, or its callback throws before the `Send`. -/
def LeavesClosed (J : JsonCpp) (c : CServer) : Act → Prop
  | .handleAccept _ => True
  | .run .worker =>
      c.machine.callBackThrows J = false → c.machine.LeavesClosed (reply J) .worker
  | .run a => c.machine.LeavesClosed (reply J) a

/-- Only accepted sessions are closed. -/
theorem step_closed_known {a : Act} (hi : ∀ u, (c.conns u).Closed → u < c.fresh)
    (h : step J c a = some c') : ∀ u, (c'.conns u).Closed → u < c'.fresh := by
  intro u hc
  cases step_cases h with
  | acceptFailed | threw => exact hi u hc
  | accepted =>
    have hold : (c.conns u).Closed :=
      (Machine.field_update (fun d => d.sendQueue.bClose) (by rfl) u).symm.trans hc
    exact Nat.lt_succ_of_lt (hi u hold)
  | @ran a m _ known replies step performed =>
    rw [performed.fresh]
    rw [performed.conn u] at hc
    split at hc
    · rename_i hmem
      exact known u (mem_close_effects hmem)
    · rcases (Machine.step_closed step u).2 hc with hold | hact
      · exact hi u hold
      · exact known u hact

theorem reachable_closed_known (hr : (system J).Reachable c) :
    ∀ u, (c.conns u).Closed → u < c.fresh := by
  refine hr.invariant (I := fun c => ∀ u, (c.conns u).Closed → u < c.fresh) ?_ step_closed_known
  exact fun u hc => Bool.noConfusion hc

/-- As long as no session is closed, no step finds one. -/
theorem leavesClosed_of_open {a : Act} (hopen : ∀ u, ¬ (c.conns u).Closed) :
    c.LeavesClosed J a := by
  cases a with
  | handleAccept error => trivial
  | run a =>
    cases a with
    | pass => exact fun uuid _ _ _ _ _ hc => absurd hc (hopen uuid)
    | handleWrite uuid i error => exact fun hc => absurd hc (hopen uuid)
    | worker => exact fun _ _ uuid _ _ _ hc => absurd hc (hopen uuid)
    | handleRead | handleReadError | post | spurious | destructor => trivial

theorem step_inert_iff {a : Act} (hr : (system J).Reachable c) (h : step J c a = some c') :
    (∀ u, (c.conns u).Closed → c.machine.Inert c'.machine u) ↔ c.LeavesClosed J a := by
  have hknown := reachable_closed_known hr
  cases step_cases h with
  | acceptFailed => exact iff_of_true (fun u _ => ⟨rfl, Nat.le_refl _, rfl⟩) trivial
  | accepted =>
    refine iff_of_true (fun u hc => ?_) trivial
    have hother : c.accept.machine.conns u = c.machine.conns u :=
      Function.update_of_ne (Nat.ne_of_lt (hknown u hc)) _ _
    exact ⟨by rw [hother], by rw [hother], rfl⟩
  | threw throws =>
    refine iff_of_true (fun u _ => ⟨rfl, Nat.le_refl _, rfl⟩) fun hreplies => ?_
    rw [throws] at hreplies
    cases hreplies
  | @ran a m _ known replies step performed =>
    -- `Close()` initiates nothing
    have hperf : ∀ u, c.machine.Inert c'.machine u ↔ c.machine.Inert m u := by
      intro u
      have hwrites := performed.same (fun d => d.sendQueue.started) (fun _ => rfl) u
      have hreads := performed.same Conn.reads (fun _ => rfl) u
      constructor
      · rintro ⟨writes, reads, posts⟩
        rw [performed.logic] at posts
        exact ⟨hwrites.symm.trans writes, hreads.symm.trans_le reads, posts⟩
      · rintro ⟨writes, reads, posts⟩
        refine ⟨hwrites.trans writes, hreads.trans_le reads, ?_⟩
        rw [performed.logic]
        exact posts
    have hmachine := Machine.inert_iff step
    cases a with
    | worker =>
      simp only [hperf, LeavesClosed, replies rfl, forall_const]
      exact hmachine
    | handleRead | handleReadError | pass | handleWrite | post | spurious | destructor =>
      simp only [hperf, LeavesClosed]
      exact hmachine

/-- **When a closed session is inert**: at every step of a run, exactly when no step finds one with
something left to do. -/
theorem closed_inert_iff {as : List Act} (h : (system J).run init as = some c) :
    (∀ pre a s s', pre ++ [a] <+: as → (system J).run init pre = some s →
      step J s a = some s' → ∀ u, (s.conns u).Closed → s.machine.Inert s'.machine u) ↔
      ∀ pre a s, pre ++ [a] <+: as → (system J).run init pre = some s → s.LeavesClosed J a :=
  Lib.System.run_steps_iff step_inert_iff h

/-- A client asks and gets its reply written. -/
def askThenReply : List Act :=
  [.handleAccept false,
    .run (.handleRead 0 ([3, 0xe9, 0, 23] ++ asBytes "\x7b\"id\":1001,\"data\":\"hi\"\x7d")),
    .run .pass, .run .post, .run .post, .run .post, .run .post, .run .post,
    .run .worker, .run .worker, .run .worker, .run .worker]

/-- The client hangs up, and then the write of its reply completes. -/
def eofThenWritten : List Act := [.run (.handleReadError 0), .run (.handleWrite 0 0 false)]

/-- The write that completes on the closed session was its last. -/
theorem closed_inert_iff_written : ∃ c, (system replyJsonCpp).run init
    (askThenReply ++ eofThenWritten) = some c ∧ (c.conns 0).Closed ∧
      (c.conns 0).sendQueue.written.length = 1 ∧
      ∀ pre a s s', pre ++ [a] <+: askThenReply ++ eofThenWritten →
        (system replyJsonCpp).run init pre = some s → step replyJsonCpp s a = some s' →
          ∀ u, (s.conns u).Closed → s.machine.Inert s'.machine u := by
  obtain ⟨s, s', c, hs, hfresh, hopen, herror, hlast, hwrite, hclosed, hwritten⟩ : ∃ s s' c,
      (system replyJsonCpp).run init askThenReply = some s ∧ s.fresh = 1 ∧
        (s.conns 0).sendQueue.bClose = false ∧
        step replyJsonCpp s (.run (.handleReadError 0)) = some s' ∧
        (s'.conns 0).sendQueue.sendQue.length = 1 ∧
        step replyJsonCpp s' (.run (.handleWrite 0 0 false)) = some c ∧
        (c.conns 0).sendQueue.bClose = true ∧ (c.conns 0).sendQueue.written.length = 1 :=
    ⟨_, _, _, rfl, rfl, rfl, rfl, rfl, rfl, rfl, rfl⟩
  have hrun : (system replyJsonCpp).run init (askThenReply ++ eofThenWritten) = some c := by
    rw [Lib.System.run_append, hs, Option.bind_some, eofThenWritten, Lib.System.run_of_step herror,
      Lib.System.run_one hwrite]
  refine ⟨c, hrun, hclosed, hwritten, (closed_inert_iff hrun).mpr ?_⟩
  refine (Lib.System.forall_steps_append hs).mpr ⟨?_, (Lib.System.forall_steps_cons herror).mpr
    ⟨trivial, (Lib.System.forall_steps_cons hwrite).mpr ⟨?_, Lib.System.forall_steps_nil⟩⟩⟩
  · -- no session is closed before the error
    have hnone : ∀ u, ¬ (s.conns u).Closed := by
      intro u hc
      have hlt := reachable_closed_known (.of_run hs) u hc
      rw [hfresh, Nat.lt_one_iff] at hlt
      rw [hlt, Conn.Closed, hopen] at hc
      cases hc
    intro pre a t hpre ht
    refine leavesClosed_of_open (Lib.System.before_of_run (G := fun t => ∀ u, ¬ (t.conns u).Closed)
      ?_ hs hnone ((List.prefix_append pre [a]).trans hpre) ht)
    exact fun hstep hnone u hc => hnone u (step_closed_mono hstep hc)
  · exact fun _ => Or.inr (Nat.le_of_eq hlast)

/-- A client asks and hangs up before the worker gets to its message. -/
def askThenEof : List Act :=
  [.handleAccept false,
    .run (.handleRead 0 ([3, 0xe9, 0, 23] ++ asBytes "\x7b\"id\":1001,\"data\":\"hi\"\x7d")),
    .run .pass, .run .post, .run .post, .run .post, .run .post, .run .post,
    .run (.handleReadError 0), .run .worker, .run .worker, .run .worker]

/-- The reply is written to the closed socket. -/
theorem closed_session_writes : ∃ c c', (system replyJsonCpp).run init askThenEof = some c ∧
    (c.conns 0).Closed ∧ 0 ∈ c.gone ∧ step replyJsonCpp c (.run .worker) = some c' ∧
      ¬ c.machine.Inert c'.machine 0 := by
  obtain ⟨c, c', hc, hclosed, hgone, hstep, hbefore, hafter⟩ : ∃ c c',
      (system replyJsonCpp).run init askThenEof = some c ∧
        (c.conns 0).sendQueue.bClose = true ∧ c.gone = [0] ∧
        step replyJsonCpp c (.run .worker) = some c' ∧
        (c.conns 0).sendQueue.started.length = 0 ∧ (c'.conns 0).sendQueue.started.length = 1 :=
    ⟨_, _, rfl, rfl, rfl, rfl, rfl, rfl⟩
  refine ⟨c, c', hc, hclosed, ?_, hstep, fun hinert => ?_⟩
  · rw [hgone]
    exact List.mem_singleton_self 0
  · have hlen : (c'.conns 0).sendQueue.started.length = (c.conns 0).sendQueue.started.length :=
      congrArg List.length hinert.writes
    rw [hbefore, hafter] at hlen
    cases hlen

end CServer
end ServerV3
end AsyncEchoServer
