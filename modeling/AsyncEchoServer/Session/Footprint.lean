import AsyncEchoServer.Session.Pass

/-!
# `Session/Footprint.lean` — which nodes the loop still writes

`_recv_msg_node` is not reset when a node is posted, so the session keeps a pointer to memory
another thread is reading. What keeps the payload intact is the flag: the node is written only
through `bodyTurn`, which needs `_b_head_parse`, or right after it was allocated.

`Writable` is that set of nodes and `Frame` is what every pass guarantees about it: a node
outside the set is unchanged and stays outside, and a node that is handed over leaves the set.
Nothing here assumes anything about the bytes received, so the frame holds on hostile input too,
and it composes over passes, over callbacks and over the sessions that share a heap.
-/

set_option autoImplicit false

namespace AsyncEchoServer

variable {ι : Type} {R : Receiver ι}

/-- The session is filling the node at `q`. -/
def Session.Fills (s : Session) (q : Nat) : Prop := s.bHeadParse = true ∧ s.recvMsgNode = some q

/-- The nodes a session may still write: its unfinished one, and those not allocated yet. -/
def Writable (heap : Heap ι) (s : Session) (q : Nat) : Prop := heap.length ≤ q ∨ s.Fills q

structure Frame (heap : Heap ι) (s : Session) (es : List Effect) (heap' : Heap ι)
    (s' : Session) : Prop where
  grows : heap.length ≤ heap'.length
  /-- a node it starts to fill is there -/
  fills : ∀ q, s'.Fills q → q < heap'.length ∨ s.Fills q
  kept : ∀ q, ¬ Writable heap s q → heap'[q]? = heap[q]?
  shrinks : ∀ q, Writable heap' s' q → Writable heap s q
  handed : ∀ p ∈ delivered es, Writable heap s p ∧ ¬ Writable heap' s' p

theorem Frame.refl {heap : Heap ι} {s s' : Session} {es : List Effect}
    (hflag : s'.bHeadParse = s.bHeadParse) (hptr : s'.recvMsgNode = s.recvMsgNode)
    (hes : delivered es = []) : Frame heap s es heap s' where
  grows := Nat.le_refl _
  fills := fun _ h => Or.inr ⟨by rw [← hflag, h.1], by rw [← hptr, h.2]⟩
  kept := fun _ _ => rfl
  shrinks := by
    intro q h
    rcases h with h | ⟨hf, hp⟩
    · exact Or.inl h
    · exact Or.inr ⟨by rw [← hflag, hf], by rw [← hptr, hp]⟩
  handed := by
    intro p hp
    rw [hes] at hp
    cases hp

theorem Frame.trans {a b c : Heap ι} {sa sb sc : Session} {es es' : List Effect}
    (h : Frame a sa es b sb) (h' : Frame b sb es' c sc) : Frame a sa (es ++ es') c sc where
  grows := Nat.le_trans h.grows h'.grows
  fills := by
    intro q hq
    rcases h'.fills q hq with hlt | hb
    · exact Or.inl hlt
    · exact (h.fills q hb).imp (fun hlt => Nat.lt_of_lt_of_le hlt h'.grows) id
  kept := by
    intro q hq
    have hb : ¬ Writable b sb q := fun hw => hq (h.shrinks q hw)
    exact (h'.kept q hb).trans (h.kept q hq)
  shrinks := fun q hw => h.shrinks q (h'.shrinks q hw)
  handed := by
    intro p hp
    rw [delivered_append] at hp
    rcases List.mem_append.mp hp with hp | hp
    · obtain ⟨hw, hn⟩ := h.handed p hp
      exact ⟨hw, fun hc => hn (h'.shrinks p hc)⟩
    · obtain ⟨hw, hn⟩ := h'.handed p hp
      exact ⟨h.shrinks p hw, hn⟩

/-- Effects that hand nothing over do not matter to a frame. -/
theorem Frame.prepend {heap heap' : Heap ι} {s s' : Session} {es : List Effect}
    (h : Frame heap s es heap' s') (pre : List Effect) (hpre : delivered pre = []) :
    Frame heap s (pre ++ es) heap' s' where
  grows := h.grows
  fills := h.fills
  kept := h.kept
  shrinks := h.shrinks
  handed := by
    intro p hp
    rw [delivered_append, hpre, List.nil_append] at hp
    exact h.handed p hp

/-- The loop variables a pass ends with. -/
def Turn.after (t : Turn ι) : Loop ι :=
  match t.2 with
  | .again l => l
  | .leave (l, _) => l

/-- The loop is about to write the node at `p`, and against the state the pass began in it has
touched nothing else. -/
structure Owns (heap : Heap ι) (s : Session) (p : Nat) (l : Loop ι) : Prop where
  own : Writable heap s p
  grows : heap.length ≤ l.heap.length
  lt : p < l.heap.length
  ptr : l.session.recvMsgNode = some p
  agree : ∀ q, ¬ Writable heap s q → l.heap[q]? = heap[q]?
  above : ∀ q, l.heap.length ≤ q → Writable heap s q

/-- Writing an owned node, with the flag left as it may be. -/
theorem Owns.frame {heap : Heap ι} {s s' : Session} {p : Nat} {l : Loop ι} {node : ReciveNode ι}
    {es : List Effect} (h : Owns heap s p l) (hptr : s'.recvMsgNode = some p)
    (hes : delivered es = [] ∨ (delivered es = [p] ∧ s'.bHeadParse = false)) :
    Frame heap s es (l.heap.set p node) s' where
  grows := by rw [List.length_set]; exact h.grows
  fills := by
    rintro q ⟨_, hq⟩
    rw [hptr] at hq
    cases hq
    exact Or.inl (by rw [List.length_set]; exact h.lt)
  kept := by
    intro q hq
    have hne : p ≠ q := fun heq => hq (heq ▸ h.own)
    rw [List.getElem?_set_ne hne]
    exact h.agree q hq
  shrinks := by
    intro q hw
    rcases hw with hw | ⟨_, hq⟩
    · exact h.above q (by rwa [List.length_set] at hw)
    · rw [hptr] at hq
      cases hq
      exact h.own
  handed := by
    intro q hq
    rcases hes with hes | ⟨hes, hflag⟩
    · rw [hes] at hq
      cases hq
    · rw [hes, List.mem_singleton] at hq
      subst hq
      refine ⟨h.own, ?_⟩
      rintro (hw | ⟨hf, _⟩)
      · rw [List.length_set] at hw
        exact absurd h.lt (Nat.not_lt.mpr hw)
      · rw [hflag] at hf
        cases hf

theorem finishMsg_frame {heap : Heap ι} {s : Session} {p : Nat} {node : ReciveNode ι} {l : Loop ι}
    (h : Owns heap s p l) :
    Frame heap s (finishMsg p node l).1 (Turn.after (finishMsg p node l)).heap
      (Turn.after (finishMsg p node l)).session := by
  unfold finishMsg
  dsimp only
  by_cases hz : l.bytesTransferred = 0
  · rw [if_pos hz]
    exact h.frame h.ptr (Or.inr ⟨rfl, rfl⟩)
  · rw [if_neg hz]
    exact h.frame h.ptr (Or.inr ⟨rfl, rfl⟩)

theorem takeBody_frame {data : Bytes} {heap : Heap ι} {s : Session} {p : Nat}
    {node : ReciveNode ι} {need : Int} {l : Loop ι} (h : Owns heap s p l) :
    Frame heap s (takeBody data p node need l).1 (Turn.after (takeBody data p node need l)).heap
      (Turn.after (takeBody data p node need l)).session := by
  unfold takeBody
  by_cases hlt : l.bytesTransferred < toSizeT need
  · rw [if_pos hlt]
    exact h.frame h.ptr (Or.inl rfl)
  · rw [if_neg hlt]
    have hmoved : Owns heap s p { l with
        copyLen := l.copyLen + need
        bytesTransferred := toSizeT (l.bytesTransferred - need) } :=
      ⟨h.own, h.grows, h.lt, h.ptr, h.agree, h.above⟩
    exact (finishMsg_frame hmoved).prepend [node.copyEffect l.copyLen (toSizeT need)] rfl

/-- The node at the end of the heap was not there when the pass began. -/
theorem Owns.allocated {heap : Heap ι} {s : Session} {node : ReciveNode ι} {l : Loop ι}
    (hheap : l.heap = heap ++ [node]) (hptr : l.session.recvMsgNode = some heap.length) :
    Owns heap s heap.length l where
  own := Or.inl (Nat.le_refl _)
  grows := by rw [hheap, List.length_append]; exact Nat.le_add_right _ _
  lt := by rw [hheap, List.length_append, List.length_singleton]; exact Nat.lt_succ_self _
  ptr := hptr
  agree := by
    intro q hq
    have hlt : q < heap.length := Nat.not_le.mp fun hle => hq (Or.inl hle)
    rw [hheap, List.getElem?_append_left hlt]
  above := by
    intro q hq
    rw [hheap, List.length_append] at hq
    exact Or.inl (Nat.le_trans (Nat.le_add_right _ _) hq)

/-- **The frame of a pass.** The header node is no heap node, so on the way to the payload nothing
is written. -/
theorem loopBody_frame (R : Receiver ι) (data : Bytes) (l : Loop ι) :
    Frame l.heap l.session (loopBody R data l).1 (Turn.after (loopBody R data l)).heap
      (Turn.after (loopBody R data l)).session := by
  have hcases := loopBody_cases R data l
  generalize loopBody R data l = turn at hcases ⊢
  cases hcases with
  | lost | short | rejected | threw => exact .refl rfl rfl rfl
  | rest flag ptr get =>
    exact takeBody_frame ⟨Or.inr ⟨flag, ptr⟩, Nat.le_refl _, (List.getElem?_eq_some_iff.mp get).1, ptr,
      fun _ _ => rfl, fun _ hq => Or.inl hq⟩
  | @fresh msgId msgLen =>
    exact (takeBody_frame (.allocated rfl rfl)).prepend _ (headEffects_quiet R l msgLen).1

/-! ## What has been handed over -/

/-- The nodes handed over in a log hold `msgs`, in order, and are out of the session's reach. -/
structure Ledger (heap : Heap ι) (s : Session) (log : List Effect) (msgs : List (ι × Bytes)) :
    Prop where
  read : (delivered log).map (messageAt heap) = msgs.map some
  settled : ∀ p ∈ delivered log, ¬ Writable heap s p
  filled : ∀ p ∈ delivered log, Filled heap p

theorem Ledger.nil {heap : Heap ι} {s : Session} : Ledger heap s [] [] :=
  ⟨rfl, fun _ hp => absurd hp List.not_mem_nil, fun _ hp => absurd hp List.not_mem_nil⟩

/-- A framed step keeps what was handed over and adds what it hands over itself. -/
theorem Ledger.extend {heap heap' : Heap ι} {s s' : Session} {log es : List Effect}
    {msgs new : List (ι × Bytes)} (h : Ledger heap s log msgs) (hf : Frame heap s es heap' s')
    (hnew : (delivered es).map (messageAt heap') = new.map some)
    (hfull : ∀ p ∈ delivered es, Filled heap' p) :
    Ledger heap' s' (log ++ es) (msgs ++ new) where
  read := by
    have hkept : (delivered log).map (messageAt heap') = (delivered log).map (messageAt heap) := by
      apply List.map_congr_left
      intro p hp
      rw [messageAt, messageAt, hf.kept p (h.settled p hp)]
    rw [delivered_append, List.map_append, List.map_append, hkept, h.read, hnew]
  settled := by
    intro p hp
    rw [delivered_append] at hp
    rcases List.mem_append.mp hp with hp | hp
    · exact fun hw => h.settled p hp (hf.shrinks p hw)
    · exact (hf.handed p hp).2
  filled := by
    intro p hp
    rw [delivered_append] at hp
    rcases List.mem_append.mp hp with hp | hp
    · obtain ⟨node, hget, hfill⟩ := h.filled p hp
      exact ⟨node, by rw [hf.kept p (h.settled p hp), hget], hfill⟩
    · exact hfull p hp

end AsyncEchoServer
