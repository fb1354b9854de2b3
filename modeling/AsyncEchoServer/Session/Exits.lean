import AsyncEchoServer.Session.Footprint

/-!
# `Session/Exits.lean` — which pass ends a session

A pass of the loop goes on with the session: it arms the next read, or hands over a message, or
both. There are two exceptions. A header over the limits is rejected, which clears the session; and
a pass can fail, on a negative array length or a message node that is not there.

Which of the three it is can be told before the pass, from the flag and the header that it
completes. Nothing is assumed about the session, so `loopBody_exit` holds in states no client can
bring about as well.
-/

set_option autoImplicit false

namespace AsyncEchoServer

variable {ι : Type} {R : Receiver ι} {data : Bytes} {l : Loop ι}

/-- The pass completes a header that is over the limits. -/
def RejectsHead (R : Receiver ι) (data : Bytes) (l : Loop ι) : Prop :=
  CompletesHead R l ∧ R.decodeHead (headNodeAfter R data l).data = none

/-- The pass completes a header whose length makes `new char[_total_len + 1]` throw, or continues a
message that has no node. -/
def PassFails (R : Receiver ι) (data : Bytes) (l : Loop ι) : Prop :=
  (CompletesHead R l ∧ ∃ tag len, R.decodeHead (headNodeAfter R data l).data = some (tag, len) ∧
    len.toInt + 1 < 0) ∨
  (l.session.bHeadParse = true ∧ l.session.recvMsgNode.bind (l.heap[·]?) = none)

/-- How a pass ends, for the session. -/
inductive PassExit (R : Receiver ι) (data : Bytes) (l : Loop ι) (es : List Effect) : Prop where
  | rejects (h : RejectsHead R data l) (arm : armed es = 0) (del : delivered es = [])
      (clr : cleared es = 1)
  | fails (h : PassFails R data l) (out : ¬ RejectsHead R data l) (arm : armed es = 0)
      (del : delivered es = []) (clr : cleared es = 0)
  | goesOn (out : ¬ RejectsHead R data l) (ok : ¬ PassFails R data l)
      (active : armed es = 1 ∨ delivered es ≠ []) (clr : cleared es = 0)

/-- The effects of a pass that has come to the payload. -/
structure Goes (es : List Effect) : Prop where
  active : armed es = 1 ∨ delivered es ≠ []
  clr : cleared es = 0

theorem Goes.prepend {es : List Effect} (h : Goes es) (pre : List Effect) (harm : armed pre = 0)
    (hclr : cleared pre = 0) : Goes (pre ++ es) where
  active := by
    rw [armed_append, harm, Nat.zero_add, delivered_append]
    exact h.active.imp_right fun hne => List.append_ne_nil_of_right_ne_nil _ hne
  clr := by rw [cleared_append, hclr, h.clr]

theorem takeBody_goes (data : Bytes) (p : Nat) (node : ReciveNode ι) (need : Int) (l : Loop ι) :
    Goes (takeBody data p node need l).1 := by
  unfold takeBody
  split
  · exact ⟨Or.inl rfl, rfl⟩
  · refine Goes.prepend ?_ [node.copyEffect l.copyLen (toSizeT need)] rfl rfl
    unfold finishMsg
    dsimp only
    split
    · exact ⟨Or.inl rfl, rfl⟩
    · exact ⟨Or.inr (List.cons_ne_nil _ _), rfl⟩

/-- **How a pass ends**, told from its start. -/
theorem loopBody_exit (R : Receiver ι) (data : Bytes) (l : Loop ι) :
    PassExit R data l (loopBody R data l).1 := by
  have hcases := loopBody_cases R data l
  generalize loopBody R data l = turn at hcases ⊢
  -- a flag that is set has no header to complete, one that is not has no payload
  have hset : l.session.bHeadParse = true → ¬ CompletesHead R l := by
    rintro htrue ⟨hfalse, _⟩
    rw [htrue] at hfalse
    cases hfalse
  have hclear : l.session.bHeadParse = false → ¬ (l.session.bHeadParse = true ∧
      l.session.recvMsgNode.bind (l.heap[·]?) = none) := by
    rintro hfalse ⟨htrue, _⟩
    rw [hfalse] at htrue
    cases htrue
  cases hcases with
  | lost flag hnone =>
    exact .fails (Or.inr ⟨flag, hnone⟩) (fun h => hset flag h.1) rfl rfl rfl
  | @rest p node flag ptr get =>
    have hok : ¬ PassFails R data l := by
      rintro (⟨hhead, _⟩ | ⟨_, hnone⟩)
      · exact hset flag hhead
      · rw [ptr, Option.bind_some, get] at hnone
        cases hnone
    have hgoes := takeBody_goes data p node (node.totalLen.toInt - node.curLen.toInt) l
    exact .goesOn (fun h => hset flag h.1) hok hgoes.active hgoes.clr
  | short flag few =>
    have hnot : ¬ CompletesHead R l := fun h => absurd h.2 (Nat.not_le.mpr few)
    have hok : ¬ PassFails R data l := fun h => h.elim (fun h => hnot h.1) (hclear flag)
    exact .goesOn (fun h => hnot h.1) hok (Or.inl rfl) rfl
  | rejected head dec => exact .rejects ⟨head, dec⟩ rfl rfl rfl
  | @threw msgId msgLen head dec neg =>
    have hout : ¬ RejectsHead R data l := by
      rintro ⟨_, hnone⟩
      rw [dec] at hnone
      cases hnone
    exact .fails (Or.inl ⟨head, msgId, msgLen, dec, neg⟩) hout rfl rfl rfl
  | @fresh msgId msgLen head dec nonneg =>
    have hout : ¬ RejectsHead R data l := by
      rintro ⟨_, hnone⟩
      rw [dec] at hnone
      cases hnone
    have hok : ¬ PassFails R data l := by
      rintro (⟨_, tag, len, hdec, hneg⟩ | hlost)
      · rw [dec] at hdec
        cases hdec
        exact nonneg hneg
      · exact hclear head.1 hlost
    obtain ⟨_, harm, hclr, _⟩ := headEffects_quiet R l msgLen
    have hgoes := (takeBody_goes data l.heap.length (freshNode msgId msgLen) msgLen.toInt
      (nodeLoop R data l msgId msgLen)).prepend (headEffects R l msgLen) harm hclr
    exact .goesOn hout hok hgoes.active hgoes.clr

/-! ## No pass closes the socket -/

theorem takeBody_no_close (p : Nat) (node : ReciveNode ι) (need : Int) (l : Loop ι) :
    Effect.close ∉ (takeBody data p node need l).1 := by
  unfold takeBody finishMsg
  split
  · simp [MsgNode.copyEffect]
  · dsimp only
    split <;> simp [MsgNode.copyEffect]

theorem loopBody_no_close : Effect.close ∉ (loopBody R data l).1 := by
  have hcases := loopBody_cases R data l
  generalize loopBody R data l = turn at hcases ⊢
  cases hcases with
  | lost | short | rejected | threw => simp [headCopy, MsgNode.copyEffect]
  | rest => exact takeBody_no_close _ _ _ _
  | @fresh msgId msgLen =>
    intro hmem
    rcases List.mem_append.mp hmem with hmem | hmem
    · exact (headEffects_quiet R l msgLen).2.2.2 hmem
    · exact takeBody_no_close _ _ _ _ hmem

end AsyncEchoServer
