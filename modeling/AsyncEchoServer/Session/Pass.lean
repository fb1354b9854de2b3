import AsyncEchoServer.Session.Coupling

/-!
# `Session/Pass.lean` — the ways of a pass

What a pass of the loop does from an arbitrary state, said once. The code nests its tests and has
six ways through them; `PassCases` has one constructor for each, with what was tested on the way.
The facts about a pass that assume nothing of the stream — what it may write, how it can end, what
it counts — are case analyses over `loopBody_cases`, and do not unfold the pass again.

Two of the ways come to the payload, and both are `takeBody`: with the node the session has, or
with one just allocated, behind the effects of the header (`headEffects`).
-/

set_option autoImplicit false

namespace AsyncEchoServer

variable {ι : Type} {R : Receiver ι} {data : Bytes} {l : Loop ι}

/-- The chunk has the rest of the header. -/
def CompletesHead (R : Receiver ι) (l : Loop ι) : Prop :=
  l.session.bHeadParse = false ∧
    R.headLen ≤ toSizeT (l.bytesTransferred + l.session.recvHeadNode.curLen.toInt)

/-- The header node with the rest of the header copied in. -/
def headNodeAfter (R : Receiver ι) (data : Bytes) (l : Loop ι) : MsgNode :=
  l.session.recvHeadNode.copyIn data l.copyLen
    (toSizeT (R.headLen - l.session.recvHeadNode.curLen.toInt))

def headCopy (R : Receiver ι) (l : Loop ι) : Effect :=
  l.session.recvHeadNode.copyEffect l.copyLen
    (toSizeT (R.headLen - l.session.recvHeadNode.curLen.toInt))

/-- The loop behind the header. -/
def headLoop (R : Receiver ι) (data : Bytes) (l : Loop ι) : Loop ι :=
  { l with
    session := { l.session with recvHeadNode := headNodeAfter R data l }
    copyLen := l.copyLen + (R.headLen - l.session.recvHeadNode.curLen.toInt)
    bytesTransferred :=
      toSizeT (l.bytesTransferred - (R.headLen - l.session.recvHeadNode.curLen.toInt)) }

def freshNode (msgId : ι) (msgLen : Short) : ReciveNode ι :=
  { MsgNode.zeroed msgLen with msgId := msgId }

/-- The loop behind the header, with a node allocated for the message. -/
def nodeLoop (R : Receiver ι) (data : Bytes) (l : Loop ι) (msgId : ι) (msgLen : Short) : Loop ι :=
  { headLoop R data l with
    heap := l.heap ++ [freshNode msgId msgLen]
    session := { l.session with
      recvHeadNode := headNodeAfter R data l
      recvMsgNode := some l.heap.length } }

/-- The pass from there on. -/
def nodeTurn (R : Receiver ι) (data : Bytes) (l : Loop ι) (msgId : ι) (msgLen : Short) : Turn ι :=
  takeBody data l.heap.length (freshNode msgId msgLen) msgLen.toInt
    (nodeLoop R data l msgId msgLen)

/-- What was done up to there. -/
def headEffects (R : Receiver ι) (l : Loop ι) (msgLen : Short) : List Effect :=
  headCopy R l :: .newArray (msgLen.toInt + 1) ::
    if R.ctorTerminates then [.store (msgLen.toInt + 1) msgLen.toInt] else []

inductive PassCases (R : Receiver ι) (data : Bytes) (l : Loop ι) : Turn ι → Prop where
  /-- a payload is to go on, and there is no node -/
  | lost (flag : l.session.bHeadParse = true)
      (none : l.session.recvMsgNode.bind (l.heap[·]?) = none) :
      PassCases R data l ([], .leave (l, .undefined))
  | rest {p : Nat} {node : ReciveNode ι} (flag : l.session.bHeadParse = true)
      (ptr : l.session.recvMsgNode = some p) (get : l.heap[p]? = some node) :
      PassCases R data l (takeBody data p node (node.totalLen.toInt - node.curLen.toInt) l)
  /-- the chunk ends inside the header -/
  | short (flag : l.session.bHeadParse = false)
      (few : toSizeT (l.bytesTransferred + l.session.recvHeadNode.curLen.toInt) < R.headLen) :
      PassCases R data l
        ([l.session.recvHeadNode.copyEffect l.copyLen l.bytesTransferred, .asyncReadSome],
          .leave ({ l with
              session := { l.session with
                recvHeadNode := (l.session.recvHeadNode.copyIn data l.copyLen
                  l.bytesTransferred).advance l.bytesTransferred } }, .returned))
  | rejected (head : CompletesHead R l)
      (dec : R.decodeHead (headNodeAfter R data l).data = none) :
      PassCases R data l ([headCopy R l, .clearSession], .leave (headLoop R data l, .returned))
  | threw {msgId : ι} {msgLen : Short} (head : CompletesHead R l)
      (dec : R.decodeHead (headNodeAfter R data l).data = some (msgId, msgLen))
      (neg : msgLen.toInt + 1 < 0) :
      PassCases R data l
        ([headCopy R l, .newArray (msgLen.toInt + 1)], .leave (headLoop R data l, .threw))
  | fresh {msgId : ι} {msgLen : Short} (head : CompletesHead R l)
      (dec : R.decodeHead (headNodeAfter R data l).data = some (msgId, msgLen))
      (nonneg : ¬ msgLen.toInt + 1 < 0) :
      PassCases R data l (headEffects R l msgLen ++ (nodeTurn R data l msgId msgLen).1,
        (nodeTurn R data l msgId msgLen).2)

/-- **What a pass can do**, in any state. -/
theorem loopBody_cases (R : Receiver ι) (data : Bytes) (l : Loop ι) :
    PassCases R data l (loopBody R data l) := by
  unfold loopBody
  by_cases hflag : l.session.bHeadParse = true
  · rw [if_pos hflag]
    unfold bodyTurn
    cases hptr : l.session.recvMsgNode with
    | none => exact .lost hflag (by rw [hptr]; rfl)
    | some p =>
      dsimp only
      cases hget : l.heap[p]? with
      | none => exact .lost hflag (by rw [hptr]; exact hget)
      | some node => exact .rest hflag hptr hget
  · rw [if_neg hflag]
    have hfalse := Bool.eq_false_iff.mpr hflag
    unfold headTurn
    dsimp only
    by_cases hlt : toSizeT (l.bytesTransferred + l.session.recvHeadNode.curLen.toInt) < R.headLen
    · rw [if_pos hlt]
      exact .short hfalse hlt
    · rw [if_neg hlt]
      have hhead : CompletesHead R l := ⟨hfalse, Nat.not_lt.mp hlt⟩
      unfold headDone
      dsimp only
      rw [show l.session.recvHeadNode.copyIn data l.copyLen
        (toSizeT (R.headLen - l.session.recvHeadNode.curLen.toInt)) = headNodeAfter R data l from rfl]
      cases hdec : R.decodeHead (headNodeAfter R data l).data with
      | none => exact .rejected hhead hdec
      | some hd =>
        obtain ⟨msgId, msgLen⟩ := hd
        dsimp only
        by_cases hthrow : msgLen.toInt + 1 < 0
        · rw [MsgNode.new, if_pos hthrow]
          exact .threw hhead hdec hthrow
        · rw [MsgNode.new, if_neg hthrow]
          exact .fresh hhead hdec hthrow

/-- Up to the payload nothing is handed over, and the session neither goes on nor ends. -/
theorem headEffects_quiet (R : Receiver ι) (l : Loop ι) (msgLen : Short) :
    delivered (headEffects R l msgLen) = [] ∧ armed (headEffects R l msgLen) = 0 ∧
      cleared (headEffects R l msgLen) = 0 ∧ Effect.close ∉ headEffects R l msgLen := by
  unfold headEffects headCopy MsgNode.copyEffect
  cases R.ctorTerminates <;> exact ⟨rfl, rfl, rfl, by simp⟩

end AsyncEchoServer
