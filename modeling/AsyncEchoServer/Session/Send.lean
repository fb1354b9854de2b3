import AsyncEchoServer.Session.Encoder
import AsyncEchoServer.Session.SendQueue

/-!
# `Session/Send.lean` — what `Send` queues, and how much of it

`Send(std::string, short)` hands `msg.length()` to a constructor that takes a `short`, which adds
the header in a `short` again. Of the four things that can come of it three are bad: from 32764
the sum wraps and `new char[]` throws; from 32768 the length itself is negative, and what the
array still has room for is not what `memcpy` copies; and from 65536 a frame is built that has
lost a multiple of 65536 bytes. `sendString_faithful_iff` is the range that is left.

The queue is bounded by a test before the push, `size > MAX_SENDQUEUE`, so the push may be the
one that makes it too long. `sendQueue_bound_iff` says which runs do not get there.
-/

set_option autoImplicit false

namespace AsyncEchoServer

/-! ## Building the node -/

theorem bind_ok {α β : Type} {x : Except Fault α} {f : α → Except Fault β} {b : β}
    (h : x.bind f = .ok b) : ∃ a, x = .ok a ∧ f a = .ok b := by
  cases x with
  | error e => cases h
  | ok a => exact ⟨a, rfl, h⟩

/-- A node that has been built had a length of at least 0 that left room for the header. -/
theorem SendNode.make_ok {msg : Bytes} {maxLen msgId : Short} {n : SendNode}
    (h : SendNode.make msg maxLen msgId = .ok n) :
    0 ≤ maxLen.toInt ∧ maxLen.toInt ≤ 32763 := by
  have hlo := le_short maxLen
  have hhi := short_lt maxLen
  obtain ⟨n₀, h₀, h⟩ := bind_ok h
  obtain ⟨n₁, _, h⟩ := bind_ok h
  obtain ⟨n₂, _, h⟩ := bind_ok h
  obtain ⟨n₃, _, h⟩ := bind_ok h
  obtain ⟨n₄, h₄, _⟩ := bind_ok h
  have hpos : 0 ≤ maxLen.toInt := by
    by_contra hneg
    have hhuge := toSizeT_short_neg (Int.not_le.mp hneg)
    have hsize := short_lt n₃.totalLen
    unfold MsgNode.memcpy at h₄
    split at h₄
    · rename_i hfit
      have hroom := hfit.1
      omega
    · cases h₄
  refine ⟨hpos, ?_⟩
  by_contra hbig
  -- the sum with the header wraps round
  have htotal : (toShort (maxLen.toInt + headTotalLen)).toInt = maxLen.toInt + 4 - 65536 := by
    have hbits := bits_toShort (maxLen.toInt + headTotalLen)
    have hge := le_short (toShort (maxLen.toInt + headTotalLen))
    have hlt := short_lt (toShort (maxLen.toInt + headTotalLen))
    unfold bits at hbits
    unfold headTotalLen at hbits hge hlt ⊢
    omega
  unfold MsgNode.new at h₀
  split at h₀
  · cases h₀
  · rename_i hnew
    omega

/-- **When `Send` can build its node**: the length's last sixteen bits are at most 32763. -/
theorem SendNode.make_ok_iff (msg : Bytes) (msgId : Short) :
    (∃ n, SendNode.make msg (toShort msg.length) msgId = .ok n) ↔ msg.length % 65536 ≤ 32763 := by
  have hbits := bits_toShort (msg.length : Int)
  have hlo := le_short (toShort msg.length)
  have hhi := short_lt (toShort msg.length)
  unfold bits at hbits
  constructor
  · rintro ⟨n, hn⟩
    obtain ⟨hpos, hle⟩ := SendNode.make_ok hn
    omega
  · intro hlen
    have h₀ : 0 ≤ (toShort (msg.length : Int)).toInt := by omega
    obtain ⟨n, hn, _⟩ := SendNode.make_buffer msg msgId h₀ (by omega) (by omega)
    exact ⟨n, hn⟩

/-- A `Send` comes back when it drops the message, or can build the node. -/
theorem sendString_returned_iff {msg : Bytes} {msgId : Short} {q : SendQueue SendNode} :
    (∃ q', ServerV3.sendString msg msgId q = some (.returned, q')) ↔
      maxSendQueue < q.sendQue.length ∨ msg.length % 65536 ≤ 32763 := by
  rw [← SendNode.make_ok_iff msg msgId]
  unfold ServerV3.sendString
  constructor
  · rintro ⟨q', h⟩
    rcases SendQueue.send_cases h with ⟨_, hfull | hthrew⟩ | ⟨n, hn, _⟩
    · exact Or.inl hfull
    · cases hthrew
    · exact Or.inr ⟨n, hn⟩
  · rintro (hfull | ⟨n, hn⟩)
    · exact ⟨q, by simp only [SendQueue.send, if_pos hfull]⟩
    · obtain ⟨q', hq', _⟩ := SendQueue.send_ok q n
      exact ⟨q', by rw [hn, hq']⟩

/-! ## A message survives `Send` -/

/-- The node is a frame of the message: its bytes read back as the id, the length and the payload
that were given. -/
structure SendNode.Frames (n : SendNode) (msg : Bytes) (msgId : Short) : Prop where
  total : n.totalLen.toInt = msg.length + headTotalLen
  id : n.buffer.take headIdLen = networkBytes msgId
  length :
    (networkToHostShort (loadShort (slice n.buffer headIdLen headDataLen))).toInt = msg.length
  payload : n.buffer.drop headTotalLen = msg

/-- `Send` returns; it has queued nothing, or one node, which is a frame of the message. -/
def SendsFaithfully (msg : Bytes) (msgId : Short) (q : SendQueue SendNode) : Prop :=
  ∃ q', ServerV3.sendString msg msgId q = some (.returned, q') ∧
    (q' = q ∨ ∃ n, q'.sendQue = q.sendQue ++ [⟨q.nextAddr, n⟩] ∧ n.Frames msg msgId)

/-- What is read from a buffer that is laid out as a frame. -/
theorem SendNode.frames_of_buffer {n : SendNode} {msg : Bytes} {msgId : Short}
    (hlen : msg.length ≤ 32763) (htotal : n.totalLen.toInt = msg.length + 4)
    (hbuf : n.buffer = networkBytes msgId ++ networkBytes (toShort msg.length) ++ msg) :
    n.Frames msg msgId where
  total := htotal
  id := by
    rw [hbuf, List.append_assoc]
    exact List.take_left' rfl
  length := by
    have hback := bigEndianShort_networkBytes (toShort msg.length) []
    rw [List.append_nil] at hback
    have hslice : slice n.buffer headIdLen headDataLen = networkBytes (toShort msg.length) := by
      rw [hbuf, List.append_assoc]
      rfl
    rw [hslice, networkToHost_load, hback]
    exact toShort_toInt (by omega) (by omega)
  payload := by
    rw [hbuf]
    exact List.drop_left' rfl

/-- A node that is a frame of the message has room for all of it. -/
theorem SendNode.Frames.short {n : SendNode} {msg : Bytes} {msgId : Short}
    (h : n.Frames msg msgId) : msg.length ≤ 32763 := by
  have htotal := h.total
  have hlt := short_lt n.totalLen
  unfold headTotalLen at htotal
  omega

theorem SendsFaithfully.full {msg : Bytes} {msgId : Short} {q : SendQueue SendNode}
    (h : maxSendQueue < q.sendQue.length) : SendsFaithfully msg msgId q :=
  ⟨q, by simp only [ServerV3.sendString, SendQueue.send, if_pos h], Or.inl rfl⟩

/-- A message that fits is queued whole. -/
theorem sendString_frames {msg : Bytes} (msgId : Short) {q : SendQueue SendNode}
    (h : msg.length ≤ 32763) (hroom : q.sendQue.length ≤ maxSendQueue) :
    ∃ q' n, ServerV3.sendString msg msgId q = some (.returned, q') ∧
      q'.sendQue = q.sendQue ++ [⟨q.nextAddr, n⟩] ∧ n.Frames msg msgId := by
  have hn : (toShort (msg.length : Int)).toInt = msg.length := toShort_toInt (by omega) (by omega)
  have h₀ : 0 ≤ (toShort (msg.length : Int)).toInt := by omega
  obtain ⟨n, hmake, htotal, hbuf⟩ := SendNode.make_buffer msg msgId h₀ (by omega) (by omega)
  rw [hn, Int.toNat_natCast, List.take_length] at hbuf
  rw [hn] at htotal
  obtain ⟨q', hq', _⟩ := SendQueue.send_ok q n
  refine ⟨q', n, by rw [ServerV3.sendString, hmake, hq'], ?_,
    SendNode.frames_of_buffer h htotal hbuf⟩
  rcases SendQueue.send_cases hq' with ⟨_, hfull | hthrew⟩ | ⟨n', hn', _, _, hpush⟩
  · exact absurd hfull (Nat.not_lt.mpr hroom)
  · cases hthrew
  · cases hn'
    rcases hpush with ⟨_, rfl⟩ | ⟨_, rfl⟩ <;> rfl

/-- With room in the queue a longer message does not survive: either `Send` does not return, or
what it has queued is no frame of the message. -/
theorem SendsFaithfully.short {msg : Bytes} {msgId : Short} {q : SendQueue SendNode}
    (h : SendsFaithfully msg msgId q) (hroom : q.sendQue.length ≤ maxSendQueue) :
    msg.length ≤ 32763 := by
  obtain ⟨q', hq', hsame | ⟨n, _, hframes⟩⟩ := h
  · -- a `Send` that returns with room in the queue has queued something
    rcases SendQueue.send_cases hq' with ⟨_, hfull | hthrew⟩ | ⟨n, _, _, _, hpush⟩
    · omega
    · cases hthrew
    · have hlen := congrArg (fun q => q.sendQue.length) hsame
      rcases hpush with ⟨_, rfl⟩ | ⟨_, rfl⟩ <;> simp [SendQueue.push] at hlen
  · exact hframes.short

/-- **When `Send` keeps a message whole**, in any state of the session: the queue refuses it, or
it has at most 32763 bytes. -/
theorem sendString_faithful_iff (msg : Bytes) (msgId : Short) (q : SendQueue SendNode) :
    SendsFaithfully msg msgId q ↔
      maxSendQueue < q.sendQue.length ∨ msg.length ≤ 32763 := by
  constructor
  · intro h
    by_cases hfull : maxSendQueue < q.sendQue.length
    · exact Or.inl hfull
    · exact Or.inr (h.short (Nat.not_lt.mp hfull))
  · intro h
    by_cases hfull : maxSendQueue < q.sendQue.length
    · exact .full hfull
    · obtain ⟨q', n, hq', hque, hframes⟩ := sendString_frames msgId (h.resolve_left hfull)
        (Nat.not_lt.mp hfull)
      exact ⟨q', hq', Or.inr ⟨n, hque, hframes⟩⟩

/-- 32764 bytes on an idle session: the length is a `short`, the length of the frame is not. -/
theorem sendString_wraps : ¬ ∀ msg msgId q, SendsFaithfully msg msgId q := by
  intro h
  have hlen := (h (List.replicate 32764 0x61) 1001 SendQueue.fresh).short (Nat.zero_le _)
  rw [List.length_replicate] at hlen
  omega

/-! ## The bound of the queue -/

/-- The step is not a `Send` that finds `MAX_SENDQUEUE` nodes queued and can build another. -/
def SendQueue.KeepsBound (q : SendQueue SendNode) (a : ServerV3.SendAct) : Prop :=
  q.sendQue.length = maxSendQueue → ∀ n, a.act ≠ .send (.ok n)

namespace SendQueue

theorem handleWrite_length {ν : Type} {q q' : SendQueue ν} {w : Queued ν} {error : Bool}
    {es : List Effect} (h : q.handleWrite w error = some (es, q')) :
    q'.sendQue.length ≤ q.sendQue.length := by
  unfold handleWrite at h
  split at h
  · cases h
    exact Nat.le_refl _
  · split at h
    · cases h
    · rename_i front rest hque
      have hle : rest.length ≤ q.sendQue.length := by
        rw [hque, List.length_cons]
        exact Nat.le_succ _
      cases rest with
      | nil =>
        cases h
        exact hle
      | cons next rest =>
        cases h
        exact hle

/-- What a step does to the length of the queue. -/
theorem step_length {ν : Type} {q q' : SendQueue ν} {a : Act ν} (h : step q a = some q') :
    q'.sendQue.length ≤ q.sendQue.length ∨
      (∃ n, a = .send (.ok n)) ∧ q.sendQue.length ≤ maxSendQueue ∧
        q'.sendQue.length = q.sendQue.length + 1 := by
  cases a with
  | send node =>
    obtain ⟨⟨x, p⟩, hsend, rfl⟩ := Option.map_eq_some_iff.mp h
    rcases send_cases hsend with ⟨rfl, _⟩ | ⟨n, rfl, hroom, _, ⟨_, rfl⟩ | ⟨_, rfl⟩⟩
    · exact Or.inl (Nat.le_refl _)
    · exact Or.inr ⟨⟨n, rfl⟩, hroom, by simp [push]⟩
    · exact Or.inr ⟨⟨n, rfl⟩, hroom, by simp [push]⟩
  | handleWrite i error =>
    simp only [step] at h
    split at h
    · cases h
    · obtain ⟨⟨es, p⟩, hdone, rfl⟩ := Option.map_eq_some_iff.mp h
      have hle := handleWrite_length hdone
      exact Or.inl hle

/-- A `Send` that can build its node adds it, as long as it is not over the limit. -/
theorem step_send_length {ν : Type} {q q' : SendQueue ν} {n : ν}
    (hroom : q.sendQue.length ≤ maxSendQueue) (h : step q (.send (.ok n)) = some q') :
    q'.sendQue.length = q.sendQue.length + 1 := by
  obtain ⟨⟨x, p⟩, hsend, rfl⟩ := Option.map_eq_some_iff.mp h
  rcases send_cases hsend with ⟨_, hfull | hthrew⟩ | ⟨n', _, _, _, ⟨_, rfl⟩ | ⟨_, rfl⟩⟩
  · exact absurd hfull (Nat.not_lt.mpr hroom)
  · obtain ⟨_, hok, _⟩ := send_ok q n
    rw [hsend] at hok
    cases hok
    cases hthrew
  · simp [push]
  · simp [push]

/-- **The bound the test gives**: one node more than the limit it names. -/
theorem reachable_length {ν : Type} {q : SendQueue ν} (h : (system (ν := ν)).Reachable q) :
    q.sendQue.length ≤ maxSendQueue + 1 := by
  induction h with
  | init => exact Nat.zero_le _
  | step _ hstep ih =>
    rcases step_length hstep with hle | ⟨_, hroom, hlen⟩ <;> omega

end SendQueue

/-- `Send` alone fills the queue, to one node over the limit. -/
theorem SendQueue.fill {k : Nat} (hk : k ≤ maxSendQueue + 1) :
    ∃ q, ServerV3.sendSystem.run .fresh (List.replicate k (.sendString [] 1001)) = some q ∧
      q.sendQue.length = k ∧ q.failed = false := by
  induction k with
  | zero => exact ⟨.fresh, rfl, rfl, rfl⟩
  | succ k ih =>
    obtain ⟨q, hrun, hlen, hok⟩ := ih (by omega)
    have h₀ : 0 ≤ (toShort 0).toInt := by decide
    obtain ⟨n, hmake, _⟩ := SendNode.make_buffer [] 1001 h₀ (by decide) (by decide)
    obtain ⟨q', hq', _⟩ := send_ok q n
    have hsend : step q (.send (.ok n)) = some q' := by rw [step, hq', Option.map_some]
    have hstep : ServerV3.sendSystem.step q (.sendString [] 1001) = some q' := by
      rw [ServerV3.SendAct.step_act (Or.inl rfl), ← hsend, ← hmake]
      rfl
    refine ⟨q', ?_, by rw [step_send_length (by omega) hsend, hlen], ?_⟩
    · rw [List.replicate_succ', Lib.System.run_snoc, hrun]
      exact hstep
    · obtain ⟨rfl, _⟩ | ⟨_, _, _, _, ⟨_, rfl⟩ | ⟨_, rfl⟩⟩ := send_cases hq' <;> exact hok

/-- While the queue is filled to the limit, no `Send` finds it there. -/
theorem SendQueue.fill_keepsBound {pre : List ServerV3.SendAct} {a : ServerV3.SendAct}
    {q : SendQueue SendNode}
    (hpre : pre ++ [a] <+: List.replicate maxSendQueue (.sendString [] 1001))
    (hq : ServerV3.sendSystem.run .fresh pre = some q) : q.KeepsBound a := by
  intro hfull
  obtain ⟨k, hk, rfl⟩ := Lib.System.prefix_snoc_iff.mp hpre
  obtain ⟨hlt, _⟩ := List.getElem?_eq_some_iff.mp hk
  rw [List.length_replicate] at hlt
  have hle := Nat.le_of_lt hlt
  obtain ⟨q', hq', hlen, _⟩ := fill (Nat.le_succ_of_le hle)
  rw [List.take_replicate, Nat.min_eq_left hle, hq'] at hq
  cases hq
  exact absurd (hlen.symm.trans hfull) (Nat.ne_of_lt hlt)

/-- **When the queue stays within `MAX_SENDQUEUE`**: in a run, after every prefix, exactly when no
node is accepted at the limit. -/
theorem sendQueue_bound_iff {M : Lib.System (SendQueue SendNode) ServerV3.SendAct}
    (hM : M = ServerV3.sendSystem ∨ M = ServerV3Mt.sendSystem) {as : List ServerV3.SendAct}
    {q : SendQueue SendNode} (h : M.run M.init as = some q) :
    (∀ pre q', pre <+: as → M.run M.init pre = some q' → q'.sendQue.length ≤ maxSendQueue) ↔
      ∀ pre a q', pre ++ [a] <+: as → M.run M.init pre = some q' → q'.KeepsBound a := by
  have hinit : M.init.sendQue.length ≤ maxSendQueue := by
    rcases hM with rfl | rfl <;> exact Nat.zero_le _
  refine Lib.System.run_prefix_iff (I := fun q => q.sendQue.length ≤ maxSendQueue) hinit ?_ ?_ h
  · intro q q' a hle hkeep hstep
    rw [ServerV3.SendAct.step_act hM] at hstep
    rcases SendQueue.step_length hstep with hshrink | ⟨⟨n, hn⟩, _, hlen⟩
    · exact Nat.le_trans hshrink hle
    · have hne : q.sendQue.length ≠ maxSendQueue := fun heq => hkeep heq n hn
      omega
  · intro q q' a hbreak hstep
    rw [ServerV3.SendAct.step_act hM] at hstep
    unfold SendQueue.KeepsBound at hbreak
    push Not at hbreak
    obtain ⟨hfull, n, hn⟩ := hbreak
    rw [hn] at hstep
    rw [SendQueue.step_send_length (Nat.le_of_eq hfull) hstep]
    omega

/-- The queue is filled to the limit, the first write completes, and there is room for one more. -/
theorem sendQueue_bound_iff_fill :
    ∃ q q', ServerV3.sendSystem.run .fresh (List.replicate maxSendQueue (.sendString [] 1001)) =
        some q ∧ q.sendQue.length = maxSendQueue ∧
      ServerV3.sendSystem.run q [.handleWrite 0 false, .sendString [] 1001] = some q' ∧
      ∀ pre s, pre <+: List.replicate maxSendQueue (.sendString [] 1001) ++
          [.handleWrite 0 false, .sendString [] 1001] →
        ServerV3.sendSystem.run .fresh pre = some s → s.sendQue.length ≤ maxSendQueue := by
  obtain ⟨q, hq, hlen, hok⟩ := SendQueue.fill (Nat.le_succ maxSendQueue)
  have hi : q.Inv := SendQueue.reachable_inv (.of_run (ServerV3.SendAct.run_act (Or.inl rfl) hq))
  -- the write of the front node is outstanding, and completes
  have hne : q.sendQue ≠ [] := List.ne_nil_of_length_pos (by rw [hlen]; decide)
  obtain ⟨q₁, hq₁⟩ := hi.step_handleWrite
    (List.length_pos_of_ne_nil ((hi.writes_ne_nil_iff hok).mpr hne)) false
  obtain ⟨_, _, _, _, _, _, hpop, _⟩ := hi.completed hq₁
  have hlen₁ : q₁.sendQue.length + 1 = maxSendQueue := by
    rw [← hlen, hpop, List.length_cons]
  have hstep₁ : ServerV3.sendSystem.step q (.handleWrite 0 false) = some q₁ := hq₁
  -- the last `Send` finds one node fewer
  obtain ⟨q', hq'⟩ : ∃ q', ServerV3.sendString [] 1001 q₁ = some (.returned, q') :=
    sendString_returned_iff.mpr (Or.inr (by decide))
  have hstep' : ServerV3.sendSystem.step q₁ (.sendString [] 1001) = some q' :=
    congrArg (Option.map Prod.snd) hq'
  have hrun' : ServerV3.sendSystem.run q [.handleWrite 0 false, .sendString [] 1001] = some q' := by
    rw [Lib.System.run_of_step hstep₁, Lib.System.run_one hstep']
  have hrun : ServerV3.sendSystem.run .fresh (List.replicate maxSendQueue (.sendString [] 1001) ++
      [.handleWrite 0 false, .sendString [] 1001]) = some q' := by
    rw [Lib.System.run_append, hq]
    exact hrun'
  refine ⟨q, q', hq, hlen, hrun', (sendQueue_bound_iff (Or.inl rfl) hrun).mpr ?_⟩
  refine (Lib.System.forall_steps_append hq).mpr ⟨fun _ _ _ => SendQueue.fill_keepsBound,
    (Lib.System.forall_steps_cons hstep₁).mpr ⟨?_, (Lib.System.forall_steps_cons hstep').mpr
      ⟨?_, Lib.System.forall_steps_nil⟩⟩⟩
  · intro _ n hsend
    cases hsend
  · intro hfull
    omega

theorem sendQueue_over_limit :
    ¬ ∀ q, ServerV3.sendSystem.Reachable q → q.sendQue.length ≤ maxSendQueue := by
  intro h
  obtain ⟨q, hq, hlen, _⟩ := SendQueue.fill (Nat.le_refl (maxSendQueue + 1))
  have hle := h q (.of_run hq)
  omega

end AsyncEchoServer
