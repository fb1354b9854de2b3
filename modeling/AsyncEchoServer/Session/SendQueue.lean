import Mathlib.Data.List.Nodup
import AsyncEchoServer.Lib.Channel
import AsyncEchoServer.Session.HandleRead

/-!
# `Session/SendQueue.lean` — the send queue

`Send` pushes a node and starts the write when the queue was empty; `HandleWrite` pops the node
that was written and starts the next write when there is one. Both hold `_send_lock`, so each is
one step. The two share the duty of starting writes, and an error leaves the failed node in the
queue for good.

A node gets an address when it is pushed, so that "the write of the front node" is a statement
about the node and not about its contents. Beside the fields of `CSession` the state has the
writes asio has outstanding (any of them may complete next, whatever the code relies on), and
four histories: what `Send` accepted, what was started, what completed, and whether a write
failed.

The `Send` of each server is `SendQueue.send` at the node that server builds. Building it can
throw, and the push then does not happen.
-/

set_option autoImplicit false

namespace AsyncEchoServer

/-- `MAX_SENDQUEUE`. -/
def maxSendQueue : Nat := 1000

/-- A node in the heap. -/
structure Queued (ν : Type) where
  addr : Nat
  node : ν
  deriving Repr, DecidableEq

structure SendQueue (ν : Type) where
  sendQue : List (Queued ν)
  bClose : Bool
  /-- `async_write` operations outstanding -/
  writes : List (Queued ν)
  nextAddr : Nat
  accepted : List (Queued ν)
  started : List (Queued ν)
  written : List (Queued ν)
  failed : Bool

namespace SendQueue

variable {ν : Type}

def fresh : SendQueue ν where
  sendQue := []
  bClose := false
  writes := []
  nextAddr := 0
  accepted := []
  started := []
  written := []
  failed := false

/-- `_send_que.push(node)`. -/
def push (q : SendQueue ν) (node : ν) : SendQueue ν :=
  { q with
    sendQue := q.sendQue ++ [⟨q.nextAddr, node⟩]
    nextAddr := q.nextAddr + 1
    accepted := q.accepted ++ [⟨q.nextAddr, node⟩] }

/-- `async_write` of `_send_que.front()`; following an empty queue's front is undefined. -/
def asyncWrite (q : SendQueue ν) : Option (SendQueue ν) :=
  match q.sendQue with
  | [] => none
  | front :: _ =>
    some { q with writes := q.writes ++ [front], started := q.started ++ [front] }

/-- `CSession::Send`, at the outcome of building the node. `none` is undefined behaviour. -/
def send (node : Except Fault ν) (q : SendQueue ν) : Option (Exit × SendQueue ν) :=
  let sendQueueSize := q.sendQue.length
  if maxSendQueue < sendQueueSize then some (.returned, q)
  else
    match node with
    | .error .badArrayNewLength => some (.threw, q)
    | .error .outOfBounds => none
    | .ok node =>
      let q := q.push node
      if 0 < sendQueueSize then some (.returned, q)
      else q.asyncWrite.map fun q => (.returned, q)

/-- `CSession::HandleWrite`, completing the write of `w`. `none` is undefined behaviour. -/
def handleWrite (w : Queued ν) (error : Bool) (q : SendQueue ν) :
    Option (List Effect × SendQueue ν) :=
  if error then some ([.close, .clearSession], { q with bClose := true, failed := true })
  else
    match q.sendQue with
    | [] => none
    | _ :: rest =>
      let q := { q with sendQue := rest, written := q.written ++ [w] }
      if rest.isEmpty then some ([], q) else q.asyncWrite.map fun q => ([], q)

inductive Act (ν : Type) where
  | send (node : Except Fault ν)
  /-- the `i`-th outstanding write completes -/
  | handleWrite (i : Nat) (error : Bool)

def step (q : SendQueue ν) : Act ν → Option (SendQueue ν)
  | .send node => (q.send node).map Prod.snd
  | .handleWrite i error =>
    match q.writes[i]? with
    | none => none
    | some w => ({ q with writes := q.writes.eraseIdx i }.handleWrite w error).map Prod.snd

def system : Lib.System (SendQueue ν) (Act ν) where
  init := fresh
  step := step

/-! ## The invariant -/

/-- The front node, if there is one, is the one that was started last; it is in flight unless a
write has failed. -/
structure Inv (q : SendQueue ν) : Prop where
  flight : q.writes = if q.failed then [] else q.sendQue.head?.toList
  wire : q.started = q.written ++ q.sendQue.head?.toList
  stuck : q.failed = true → q.sendQue ≠ []
  addrs : ∀ n ∈ q.accepted, n.addr < q.nextAddr
  distinct : (q.accepted.map Queued.addr).Nodup

theorem Inv.fresh : Inv (SendQueue.fresh : SendQueue ν) :=
  ⟨rfl, rfl, fun h => absurd h Bool.false_ne_true, fun _ hn => absurd hn List.not_mem_nil,
    List.nodup_nil⟩

/-- The new node's address is new. -/
theorem Inv.push_distinct {q : SendQueue ν} (h : Inv q) (node : ν) :
    (∀ n ∈ (q.push node).accepted, n.addr < (q.push node).nextAddr) ∧
      ((q.push node).accepted.map Queued.addr).Nodup := by
  have haddrs := h.addrs
  unfold push
  dsimp only
  constructor
  · intro n hn
    rcases List.mem_append.mp hn with hn | hn
    · exact Nat.lt_succ_of_lt (haddrs n hn)
    · rw [List.mem_singleton.mp hn]
      exact Nat.lt_succ_self _
  · rw [List.map_append, List.nodup_append]
    refine ⟨h.distinct, List.nodup_singleton _, ?_⟩
    intro a ha b hb
    obtain ⟨n, hn, rfl⟩ := List.mem_map.mp ha
    have hlt := haddrs n hn
    rw [List.map_singleton, List.mem_singleton] at hb
    subst hb
    exact Nat.ne_of_lt hlt

/-- Everything a `Send` can do. -/
theorem send_cases {q q' : SendQueue ν} {node : Except Fault ν} {x : Exit}
    (h : q.send node = some (x, q')) :
    (q' = q ∧ (maxSendQueue < q.sendQue.length ∨ x = .threw)) ∨
    (∃ n, node = .ok n ∧ q.sendQue.length ≤ maxSendQueue ∧ x = .returned ∧
      ((q.sendQue ≠ [] ∧ q' = q.push n) ∨
        (q.sendQue = [] ∧ q' = { q.push n with
          writes := q.writes ++ [⟨q.nextAddr, n⟩]
          started := q.started ++ [⟨q.nextAddr, n⟩] }))) := by
  unfold send at h
  dsimp only at h
  by_cases hfull : maxSendQueue < q.sendQue.length
  · rw [if_pos hfull] at h
    cases h
    exact Or.inl ⟨rfl, Or.inl hfull⟩
  · rw [if_neg hfull] at h
    match node, h with
    | .error .badArrayNewLength, h =>
      cases h
      exact Or.inl ⟨rfl, Or.inr rfl⟩
    | .ok n, h =>
      dsimp only at h
      refine Or.inr ⟨n, rfl, Nat.not_lt.mp hfull, ?_⟩
      by_cases hempty : q.sendQue = []
      · rw [if_neg (by rw [hempty]; exact Nat.lt_irrefl 0)] at h
        simp only [asyncWrite, push, hempty, List.nil_append, Option.map_some] at h
        cases h
        exact ⟨rfl, Or.inr ⟨hempty, by simp [push, hempty]⟩⟩
      · rw [if_pos (List.length_pos_of_ne_nil hempty)] at h
        cases h
        exact ⟨rfl, Or.inl ⟨hempty, rfl⟩⟩

theorem Inv.send {q q' : SendQueue ν} {node : Except Fault ν} {x : Exit} (hi : Inv q)
    (h : q.send node = some (x, q')) : Inv q' := by
  obtain ⟨rfl, _⟩ | ⟨n, rfl, _, _, ⟨hne, rfl⟩ | ⟨hempty, rfl⟩⟩ := send_cases h
  · exact hi
  · -- behind other nodes: the front stays
    obtain ⟨haddrs, hdistinct⟩ := hi.push_distinct n
    have hhead : (q.push n).sendQue.head? = q.sendQue.head? := by
      rw [push, List.head?_append_of_ne_nil _ hne]
    exact ⟨by rw [hhead]; exact hi.flight, by rw [hhead]; exact hi.wire,
      fun _ => List.append_ne_nil_of_right_ne_nil _ (List.cons_ne_nil _ _), haddrs, hdistinct⟩
  · obtain ⟨haddrs, hdistinct⟩ := hi.push_distinct n
    have hok : q.failed = false := by
      cases hf : q.failed with
      | false => rfl
      | true => exact absurd hempty (hi.stuck hf)
    have hwrites : q.writes = [] := by rw [hi.flight, hok, hempty]; rfl
    have hstarted : q.started = q.written := by
      rw [hi.wire, hempty]
      exact List.append_nil _
    refine ⟨?_, ?_, ?_, haddrs, hdistinct⟩
    · simp [push, hwrites, hok, hempty]
    · simp [push, hstarted, hempty]
    · simp [push]

/-- Everything a completion can do to a queue whose front is in flight. -/
theorem Inv.handleWrite_cases {q : SendQueue ν} (hi : Inv q) {i : Nat} {w : Queued ν}
    (hw : q.writes[i]? = some w) :
    q.failed = false ∧ i = 0 ∧ q.writes = [w] ∧ ∃ rest, q.sendQue = w :: rest := by
  have hflight := hi.flight
  cases hf : q.failed with
  | true =>
    rw [hf, if_pos rfl] at hflight
    rw [hflight] at hw
    cases hw
  | false =>
    rw [hf, if_neg Bool.false_ne_true] at hflight
    cases hq : q.sendQue with
    | nil =>
      rw [hq] at hflight
      rw [hflight] at hw
      cases hw
    | cons front rest =>
      have hone : q.writes = [front] := by rw [hflight, hq]; rfl
      rw [hone] at hw
      obtain ⟨hlt, hget⟩ := List.getElem?_eq_some_iff.mp hw
      have hi0 : i = 0 := Nat.lt_one_iff.mp hlt
      subst hi0
      exact ⟨rfl, rfl, by rw [hone, ← hget]; rfl, rest, by rw [← hget]; rfl⟩

/-- **A completion is always handled**, and does one of two things. -/
theorem Inv.handleWrite_spec {q : SendQueue ν} (hi : Inv q) {i : Nat} {w : Queued ν}
    (hw : q.writes[i]? = some w) (error : Bool) :
    ∃ es q', { q with writes := q.writes.eraseIdx i }.handleWrite w error = some (es, q') ∧
      Inv q' ∧ q'.accepted = q.accepted ∧
      (if error then es = [.close, .clearSession] ∧ q'.failed = true ∧ q'.bClose = true ∧
          q'.sendQue = q.sendQue ∧ q'.written = q.written ∧ q'.started = q.started
        else es = [] ∧ q'.failed = false ∧ q'.bClose = q.bClose ∧ q.sendQue = w :: q'.sendQue ∧
          q'.written = q.written ++ [w]) := by
  obtain ⟨hok, rfl, hone, rest, hque⟩ := hi.handleWrite_cases hw
  have hwire := hi.wire
  rw [hque] at hwire
  cases error with
  | true =>
    refine ⟨_, _, rfl, ⟨?_, hi.wire, ?_, hi.addrs, hi.distinct⟩, rfl, ?_⟩
    · rw [hone]
      rfl
    · intro _
      rw [hque]
      exact List.cons_ne_nil _ _
    · exact ⟨rfl, rfl, rfl, rfl, rfl, rfl⟩
  | false =>
    cases rest with
    | nil =>
      refine ⟨[], { q with writes := [], sendQue := [], written := q.written ++ [w] }, ?_,
        ⟨?_, ?_, ?_, hi.addrs, hi.distinct⟩, rfl, ?_⟩
      · simp [SendQueue.handleWrite, hque, hone]
      · simp
      · simpa using hwire
      · intro hf
        exact absurd hf (by rw [hok]; exact Bool.false_ne_true)
      · exact ⟨rfl, hok, rfl, hque, rfl⟩
    | cons next rest =>
      refine ⟨[], { q with
        writes := [next], sendQue := next :: rest, written := q.written ++ [w]
        started := q.started ++ [next] }, ?_, ⟨?_, ?_, ?_, hi.addrs, hi.distinct⟩, rfl, ?_⟩
      · simp [SendQueue.handleWrite, asyncWrite, hque, hone]
      · simp [hok]
      · show q.started ++ [next] = (q.written ++ [w]) ++ [next]
        rw [hwire]
        rfl
      · intro _
        exact List.cons_ne_nil _ _
      · exact ⟨rfl, hok, rfl, hque, rfl⟩

/-- The same, read off a step that was taken. -/
theorem Inv.completed {q q' : SendQueue ν} (hi : Inv q) {i : Nat} {error : Bool}
    (h : step q (.handleWrite i error) = some q') :
    ∃ w, q.writes[i]? = some w ∧ q.failed = false ∧ Inv q' ∧ q'.accepted = q.accepted ∧
      (if error then q'.failed = true ∧ q'.sendQue = q.sendQue ∧ q'.written = q.written
        else q'.failed = false ∧ q.sendQue = w :: q'.sendQue ∧ q'.written = q.written ++ [w]) := by
  simp only [step] at h
  cases hw : q.writes[i]? with
  | none =>
    rw [hw] at h
    cases h
  | some w =>
    rw [hw] at h
    obtain ⟨es, p, hp, hinv, hacc, hdone⟩ := hi.handleWrite_spec hw error
    dsimp only at h
    rw [hp] at h
    cases h
    refine ⟨w, rfl, (hi.handleWrite_cases hw).1, hinv, hacc, ?_⟩
    cases error with
    | true =>
      obtain ⟨_, hf, _, hque, hwr, _⟩ := hdone
      exact ⟨hf, hque, hwr⟩
    | false =>
      obtain ⟨_, hf, _, hque, hwr⟩ := hdone
      exact ⟨hf, hque, hwr⟩

/-- What a step does to the queue and its histories. -/
inductive StepSpec (q : SendQueue ν) : SendQueue ν → Prop where
  | unchanged : StepSpec q q
  | accepted {q' : SendQueue ν} (n : Queued ν) (room : q.sendQue.length ≤ maxSendQueue)
      (que : q'.sendQue = q.sendQue ++ [n]) (acc : q'.accepted = q.accepted ++ [n])
      (wr : q'.written = q.written) (failed : q'.failed = q.failed) : StepSpec q q'
  | written {q' : SendQueue ν} (w : Queued ν) (isOpen : q.failed = false)
      (que : q.sendQue = w :: q'.sendQue) (acc : q'.accepted = q.accepted)
      (wr : q'.written = q.written ++ [w]) (failed : q'.failed = q.failed) : StepSpec q q'
  | failed {q' : SendQueue ν} (isOpen : q.failed = false) (que : q'.sendQue = q.sendQue)
      (acc : q'.accepted = q.accepted) (wr : q'.written = q.written)
      (failed : q'.failed = true) : StepSpec q q'

theorem send_spec {q q' : SendQueue ν} {node : Except Fault ν} {x : Exit}
    (h : q.send node = some (x, q')) : StepSpec q q' := by
  obtain ⟨rfl, _⟩ | ⟨n, rfl, hroom, _, ⟨_, rfl⟩ | ⟨_, rfl⟩⟩ := send_cases h
  · exact .unchanged
  · exact .accepted _ hroom rfl rfl rfl rfl
  · exact .accepted _ hroom rfl rfl rfl rfl

theorem step_spec {q q' : SendQueue ν} {a : Act ν} (hi : Inv q) (h : step q a = some q') :
    StepSpec q q' ∧ Inv q' := by
  cases a with
  | send node =>
    obtain ⟨⟨x, p⟩, hsend, rfl⟩ := Option.map_eq_some_iff.mp h
    exact ⟨send_spec hsend, hi.send hsend⟩
  | handleWrite i error =>
    obtain ⟨w, hw, hopen, hinv, hacc, hdone⟩ := hi.completed h
    refine ⟨?_, hinv⟩
    cases error with
    | true =>
      obtain ⟨hf, hque, hwr⟩ := hdone
      exact .failed hopen hque hacc hwr hf
    | false =>
      obtain ⟨hf, hque, hwr⟩ := hdone
      exact .written w hopen hque hacc hwr (hf.trans hopen.symm)

theorem step_inv {q q' : SendQueue ν} {a : Act ν} (hi : Inv q) (h : step q a = some q') :
    Inv q' := (step_spec hi h).2

theorem reachable_inv {q : SendQueue ν} (h : system.Reachable q) : Inv q :=
  h.invariant Inv.fresh step_inv

theorem reachable_send {q q' : SendQueue ν} {node : Except Fault ν} {x : Exit}
    (h : system.Reachable q) (hsend : q.send node = some (x, q')) : system.Reachable q' := by
  apply h.step (a := .send node)
  show (q.send node).map Prod.snd = some q'
  rw [hsend]
  rfl

/-- A `Send` whose node could be built returns: refused, or with the node accepted. -/
theorem send_ok (q : SendQueue ν) (n : ν) :
    ∃ q', q.send (.ok n) = some (.returned, q') ∧ (maxSendQueue < q.sendQue.length → q' = q) ∧
      (q.sendQue.length ≤ maxSendQueue → q'.accepted = q.accepted ++ [⟨q.nextAddr, n⟩]) := by
  by_cases hfull : maxSendQueue < q.sendQue.length
  · exact ⟨q, by simp only [send, if_pos hfull], fun _ => rfl,
      fun hle => absurd hfull (Nat.not_lt.mpr hle)⟩
  · by_cases hempty : q.sendQue = []
    · refine ⟨{ q.push n with
        writes := q.writes ++ [⟨q.nextAddr, n⟩], started := q.started ++ [⟨q.nextAddr, n⟩] },
        ?_, fun h => absurd h hfull, fun _ => rfl⟩
      simp only [send, if_neg hfull]
      rw [if_neg (by rw [hempty]; exact Nat.lt_irrefl 0)]
      simp only [asyncWrite, push, hempty, List.nil_append, Option.map_some]
    · refine ⟨q.push n, ?_, fun h => absurd h hfull, fun _ => rfl⟩
      simp only [send, if_neg hfull]
      rw [if_pos (List.length_pos_of_ne_nil hempty)]

/-! ## The queue is a channel -/

/-- The send queue is a first-in first-out channel to the wire, closed by the first error. -/
def toChannel : Lib.System.Simulation (system (ν := ν)) (Lib.Channel.system (α := Queued ν)) where
  rel q c := c.entered = q.accepted ∧ c.out = q.written ∧ c.waiting = q.sendQue ∧
    c.closed = q.failed
  init := ⟨rfl, rfl, rfl, rfl⟩
  step := by
    rintro q q' c a hq _ ⟨hent, hout, hwait, hclosed⟩ hstep
    obtain ⟨hspec, _⟩ := step_spec (reachable_inv hq) hstep
    cases hspec with
    | unchanged => exact ⟨[], c, rfl, hent, hout, hwait, hclosed⟩
    | accepted n room que acc wr failed =>
      refine ⟨[.enter n], c.enter n, rfl, ?_, ?_, ?_, ?_⟩
      · rw [acc, ← hent]
        rfl
      · rw [Lib.Channel.out_enter, hout, wr]
      · rw [Lib.Channel.waiting_enter, hwait, que]
      · rw [failed, ← hclosed]
        rfl
    | written w isOpen que acc wr failed =>
      obtain ⟨c', hpass, ho, hw, he, hcl⟩ := Lib.Channel.pass_of_waiting
        (hclosed.trans isOpen) (hwait.trans que)
      refine ⟨[.pass], c', ?_, ?_, ?_, hw, ?_⟩
      · rw [Lib.System.run_cons]
        show c.pass.bind _ = _
        rw [hpass]
        rfl
      · rw [he, hent, acc]
      · rw [ho, hout, wr]
      · rw [hcl, hclosed, failed]
    | failed isOpen que acc wr failed =>
      refine ⟨[.close], c.close, rfl, ?_, ?_, ?_, failed.symm⟩
      · rw [acc]
        exact hent
      · rw [wr]
        exact hout
      · rw [que]
        exact hwait

theorem accepted_eq {q : SendQueue ν} (h : system.Reachable q) :
    q.accepted = q.written ++ q.sendQue := by
  obtain ⟨c, _, hent, hout, hwait, _⟩ := toChannel.reachable h
  rw [← hent, ← hout, ← hwait, Lib.Channel.out_append_waiting]

/-- Nothing is started on a failed session. -/
theorem started_of_failed {q q' : SendQueue ν} {as : List (Act ν)} (h : system.Reachable q)
    (hf : q.failed = true) (hrun : system.run q as = some q') :
    q'.started = q.started ∧ q'.writes = [] := by
  obtain ⟨c, hc, hent, hout, hwait, hclosed⟩ := toChannel.reachable h
  obtain ⟨bs, c', hbs, hent', hout', hwait', hclosed'⟩ :=
    toChannel.run h hc ⟨hent, hout, hwait, hclosed⟩ hrun
  obtain ⟨hsame, hshut⟩ := Lib.Channel.run_closed (hclosed.trans hf) hbs
  obtain ⟨hgrow, _⟩ := Lib.Channel.run_prefix hbs
  have hi := reachable_inv h
  have hi' := reachable_inv (h.run hrun)
  have hwritten : q'.written = q.written := by rw [← hout', hsame, hout]
  have hfailed : q'.failed = true := by rw [← hclosed', hshut]
  -- the failed node is still at the front
  have hhead : q'.sendQue.head? = q.sendQue.head? := by
    have hacc := accepted_eq (h.run hrun)
    rw [hent, hent', accepted_eq h, hacc, hwritten] at hgrow
    obtain ⟨t, ht⟩ := (List.prefix_append_right_inj _).mp hgrow
    rw [← ht, List.head?_append_of_ne_nil _ (hi.stuck hf)]
  refine ⟨by rw [hi'.wire, hi.wire, hwritten, hhead], ?_⟩
  rw [hi'.flight, hfailed, if_pos rfl]

/-! ## What the invariant means -/

theorem Inv.writes_length_le {q : SendQueue ν} (hi : Inv q) : q.writes.length ≤ 1 := by
  rw [hi.flight]
  split
  · exact Nat.zero_le 1
  · cases q.sendQue <;> simp

theorem Inv.writes_ne_nil_iff {q : SendQueue ν} (hi : Inv q) (hf : q.failed = false) :
    q.writes ≠ [] ↔ q.sendQue ≠ [] := by
  rw [hi.flight, hf, if_neg Bool.false_ne_true]
  cases q.sendQue <;> simp

/-- A write is the write of the front node. -/
theorem Inv.head_of_mem_writes {q : SendQueue ν} (hi : Inv q) {w : Queued ν} (hw : w ∈ q.writes) :
    q.sendQue.head? = some w := by
  obtain ⟨i, hlt, hget⟩ := List.getElem_of_mem hw
  obtain ⟨_, _, _, rest, hque⟩ :=
    hi.handleWrite_cases (List.getElem?_eq_some_iff.mpr ⟨hlt, hget⟩)
  rw [hque]
  rfl

/-- Every outstanding write can complete: its handler never meets an empty queue. -/
theorem Inv.step_handleWrite {q : SendQueue ν} (hi : Inv q) {i : Nat} (hlt : i < q.writes.length)
    (error : Bool) : ∃ q', step q (.handleWrite i error) = some q' := by
  have hget := List.getElem?_eq_getElem hlt
  obtain ⟨es, q', hq', _⟩ := hi.handleWrite_spec hget error
  exact ⟨q', by simp only [step, hget, hq', Option.map_some]⟩

/-- Only the completion of its own write takes a node off the queue. -/
theorem Inv.popped_of_step {q q' : SendQueue ν} {a : Act ν} (hi : Inv q)
    (h : step q a = some q') : q.sendQue <+: q'.sendQue ∨
      ∃ w i, a = .handleWrite i false ∧ q.writes[i]? = some w ∧ q.sendQue = w :: q'.sendQue := by
  cases a with
  | send node =>
    obtain ⟨⟨x, p⟩, hsend, rfl⟩ := Option.map_eq_some_iff.mp h
    obtain ⟨rfl, _⟩ | ⟨n, _, _, _, ⟨_, rfl⟩ | ⟨_, rfl⟩⟩ := send_cases hsend
    · exact Or.inl (List.prefix_refl _)
    · exact Or.inl (List.prefix_append _ _)
    · exact Or.inl (List.prefix_append _ _)
  | handleWrite i error =>
    obtain ⟨w, hw, _, _, _, hdone⟩ := hi.completed h
    cases error with
    | true =>
      obtain ⟨_, hque, _⟩ := hdone
      exact Or.inl ⟨[], by rw [hque, List.append_nil]⟩
    | false =>
      obtain ⟨_, hque, _⟩ := hdone
      exact Or.inr ⟨w, i, rfl, hw, hque⟩

/-- A full queue refuses, whatever the node. -/
theorem step_send_full {q : SendQueue ν} (hfull : maxSendQueue < q.sendQue.length)
    (node : Except Fault ν) : step q (.send node) = some q := by
  simp only [step, send, if_pos hfull, Option.map_some]

/-- The wire carries accepted nodes in order. -/
theorem started_prefix {q : SendQueue ν} (h : system.Reachable q) : q.started <+: q.accepted := by
  rw [(reachable_inv h).wire, accepted_eq h]
  refine (List.prefix_append_right_inj _).mpr ?_
  cases q.sendQue with
  | nil => exact List.nil_prefix
  | cons n rest => exact List.cons_prefix_cons.mpr ⟨rfl, List.nil_prefix⟩

end SendQueue

/-! ## The overloads of the servers -/

namespace ServerV3

/-- `Send(std::string msg, short msg_id)`. -/
def sendString (msg : Bytes) (msgId : Short) (q : SendQueue SendNode) :
    Option (Exit × SendQueue SendNode) :=
  q.send (SendNode.make msg (toShort msg.length) msgId)

/-- `Send(char *msg, int max_length, short msg_id)`. -/
def sendBuffer (msg : Bytes) (maxLength : Int) (msgId : Short) (q : SendQueue SendNode) :
    Option (Exit × SendQueue SendNode) :=
  q.send (SendNode.make msg (toShort maxLength) msgId)

inductive SendAct where
  | sendString (msg : Bytes) (msgId : Short)
  | sendBuffer (msg : Bytes) (maxLength : Int) (msgId : Short)
  | handleWrite (i : Nat) (error : Bool)

def sendSystem : Lib.System (SendQueue SendNode) SendAct where
  init := .fresh
  step q
    | .sendString msg msgId => (sendString msg msgId q).map Prod.snd
    | .sendBuffer msg maxLength msgId => (sendBuffer msg maxLength msgId q).map Prod.snd
    | .handleWrite i error => q.step (.handleWrite i error)

end ServerV3

namespace ServerV3Mt

/-- The multi-thread server's overload takes the length as a `short`. -/
def sendBuffer (msg : Bytes) (maxLength msgId : Short) (q : SendQueue SendNode) :
    Option (Exit × SendQueue SendNode) :=
  q.send (SendNode.make msg maxLength msgId)

def sendSystem : Lib.System (SendQueue SendNode) ServerV3.SendAct where
  init := .fresh
  step q
    | .sendString msg msgId => (ServerV3.sendString msg msgId q).map Prod.snd
    | .sendBuffer msg maxLength msgId => (sendBuffer msg (toShort maxLength) msgId q).map Prod.snd
    | .handleWrite i error => q.step (.handleWrite i error)

end ServerV3Mt

/-- `Send(char *msg, int max_length)` of version 2.1. -/
def Server.send (msg : Bytes) (maxLength : Int) (q : SendQueue MsgNode) :
    Option (Exit × SendQueue MsgNode) :=
  q.send (Server.msgNode msg (toShort maxLength))

namespace ServerV3

/-- Each overload is the send queue's `Send` at its own node. -/
def SendAct.act : SendAct → SendQueue.Act SendNode
  | .sendString msg msgId => .send (SendNode.make msg (toShort msg.length) msgId)
  | .sendBuffer msg maxLength msgId => .send (SendNode.make msg (toShort maxLength) msgId)
  | .handleWrite i error => .handleWrite i error

theorem SendAct.step_act {M : Lib.System (SendQueue SendNode) SendAct}
    (hM : M = sendSystem ∨ M = ServerV3Mt.sendSystem) (q : SendQueue SendNode) (a : SendAct) :
    M.step q a = q.step a.act := by
  rcases hM with rfl | rfl
  · cases a <;> rfl
  · cases a <;> rfl

theorem SendAct.run_act {M : Lib.System (SendQueue SendNode) SendAct}
    (hM : M = sendSystem ∨ M = ServerV3Mt.sendSystem) {q q' : SendQueue SendNode}
    {as : List SendAct} (h : M.run q as = some q') :
    SendQueue.system.run q (as.map SendAct.act) = some q' := by
  induction as generalizing q with
  | nil => exact h
  | cons a as ih =>
    rw [Lib.System.run_cons, SendAct.step_act hM] at h
    obtain ⟨q₁, h₁, hrest⟩ := Option.bind_eq_some_iff.mp h
    rw [List.map_cons, Lib.System.run_cons]
    show (q.step a.act).bind _ = _
    rw [h₁]
    exact ih hrest

end ServerV3

/-- **The send-queue protocol**, after any interleaving of sends and completions. -/
theorem sendQueue_protocol {M : Lib.System (SendQueue SendNode) ServerV3.SendAct}
    (hM : M = ServerV3.sendSystem ∨ M = ServerV3Mt.sendSystem) {q : SendQueue SendNode}
    (h : M.Reachable q) :
    -- at most one write is outstanding
    q.writes.length ≤ 1 ∧
    -- it is the front node's, and there is one as long as there is a front and no error
    (q.failed = false → (q.writes ≠ [] ↔ q.sendQue ≠ [])) ∧
    (∀ w ∈ q.writes, q.sendQue.head? = some w) ∧
    -- a completion never meets an empty queue, and nothing but its own completion pops a node
    (∀ i error, i < q.writes.length → ∃ q', M.step q (.handleWrite i error) = some q') ∧
    (∀ a q', M.step q a = some q' → q.sendQue <+: q'.sendQue ∨
      ∃ w i, a = .handleWrite i false ∧ q.writes[i]? = some w ∧ q.sendQue = w :: q'.sendQue) ∧
    -- the wire carries the accepted nodes in order, each once
    q.accepted = q.written ++ q.sendQue ∧ q.started <+: q.accepted ∧
    (q.accepted.map Queued.addr).Nodup ∧
    -- nothing is started after an error
    (q.failed = true → ∀ as q', M.run q as = some q' → q'.started = q.started ∧ q'.writes = []) ∧
    -- a full queue refuses and nothing changes
    (maxSendQueue < q.sendQue.length → ∀ msg maxLength msgId,
      M.step q (.sendString msg msgId) = some q ∧
      M.step q (.sendBuffer msg maxLength msgId) = some q) := by
  have hr : SendQueue.system.Reachable q := by
    obtain ⟨as, hrun⟩ := h.exists_run
    have hinit : M.init = SendQueue.fresh := by rcases hM with rfl | rfl <;> rfl
    rw [hinit] at hrun
    exact .of_run (ServerV3.SendAct.run_act hM hrun)
  have hi := SendQueue.reachable_inv hr
  have hstep := ServerV3.SendAct.step_act hM
  refine ⟨hi.writes_length_le, hi.writes_ne_nil_iff, fun w => hi.head_of_mem_writes, ?_, ?_,
    SendQueue.accepted_eq hr, SendQueue.started_prefix hr, hi.distinct, ?_, ?_⟩
  · intro i error hlt
    rw [hstep]
    exact hi.step_handleWrite hlt error
  · intro a q' hq'
    rw [hstep] at hq'
    rcases hi.popped_of_step hq' with hpre | ⟨w, i, hact, hw, hque⟩
    · exact Or.inl hpre
    · refine Or.inr ⟨w, i, ?_, hw, hque⟩
      cases a <;> cases hact
      rfl
  · intro hf as q' hrun
    exact SendQueue.started_of_failed hr hf (ServerV3.SendAct.run_act hM hrun)
  · intro hfull msg maxLength msgId
    rw [hstep, hstep]
    exact ⟨SendQueue.step_send_full hfull _, SendQueue.step_send_full hfull _⟩

/-- Two sends, then the first write completes: the second is the one in flight. -/
theorem sendQueue_protocol_two :
    ∃ q, ServerV3.sendSystem.run .fresh
        [.sendString [0x61] 1001, .sendBuffer [0x62] 1 7, .handleWrite 0 false] = some q ∧
      q.accepted = q.written ++ q.sendQue ∧ q.written.length = 1 ∧ q.sendQue.length = 1 := by
  have hrun : ∃ q, ServerV3.sendSystem.run .fresh
      [.sendString [0x61] 1001, .sendBuffer [0x62] 1 7, .handleWrite 0 false] = some q ∧
        q.written.length = 1 ∧ q.sendQue.length = 1 := ⟨_, rfl, rfl, rfl⟩
  obtain ⟨q, hq, hw, hs⟩ := hrun
  have hr : ServerV3.sendSystem.Reachable q := .of_run hq
  exact ⟨q, hq, (sendQueue_protocol (Or.inl rfl) hr).2.2.2.2.2.1, hw, hs⟩

end AsyncEchoServer
