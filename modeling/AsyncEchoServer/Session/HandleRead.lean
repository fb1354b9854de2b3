import AsyncEchoServer.Lib.While
import AsyncEchoServer.Session.MsgNode

/-!
# `Session/HandleRead.lean` — the reassembly loop

`CSession::HandleRead` exists three times: in `Server/` (a two-byte header, the payload goes to
`Send`), in `Server-version-3/` and in `Server-version-3-multi-thread/` (a four-byte header with
an id, the payload is posted to the logic system). The loop is the same text up to the header,
so it is written once here over a `Receiver`, and each server names its own at the end.

## What is in the state

The nodes the loop allocates are shared: `_recv_msg_node` keeps pointing at a node after it was
posted. So a message node is an index into a heap of nodes, a write goes through the heap, and
"the posted node is not altered afterwards" is something to prove, not something the model
assumes by handing out copies. The header node belongs to the session alone.

The loop's locals `copy_len` and `bytes_transferred` are kept apart, with the conversions the
code has: the comparisons with `bytes_transferred` are in `size_t`, the remainders are `int`s.

## What is logged

Every pass returns its effects in order — the array allocation and the copies and stores into
nodes, with the size of the destination and both offsets, and the calls that leave the session.
A copy that does not fit is undefined behaviour; the log says so and the loop goes on, since what
the integer fields do afterwards is part of what is claimed about this code.
-/

set_option autoImplicit false

namespace AsyncEchoServer

/-- `ReciveNode`, and the plain `MsgNode` of version 2.1 at `ι = Unit`. -/
structure ReciveNode (ι : Type) extends MsgNode where
  msgId : ι

abbrev Heap (ι : Type) := List (ReciveNode ι)

/-- The receive half of a `CSession`. -/
structure Session where
  bHeadParse : Bool
  recvHeadNode : MsgNode
  /-- `_recv_msg_node`, an index into the heap -/
  recvMsgNode : Option Nat

inductive Effect where
  /-- `new char[count]` -/
  | newArray (count : Int)
  /-- `memcpy` of `n` bytes from `_data + src` to offset `off` of a node buffer of `size` bytes -/
  | memcpy (size off src : Int) (n : Nat)
  /-- a store of one byte at index `idx` of a node buffer of `size` bytes -/
  | store (size idx : Int)
  /-- `PostMsgtoQueue` of the node, or `Send` of its payload -/
  | deliver (node : Nat)
  | asyncReadSome
  | clearSession
  | close
  deriving Repr, DecidableEq

/-- How `HandleRead` is left. -/
inductive Exit where
  | returned
  | threw
  /-- a null `_recv_msg_node` was followed -/
  | undefined
  deriving Repr, DecidableEq

/-- What the loop works on. -/
structure Loop (ι : Type) where
  heap : Heap ι
  session : Session
  copyLen : Int
  bytesTransferred : Nat

/-- One pass: its effects, and whether the loop goes on. -/
abbrev Turn (ι : Type) := List Effect × Lib.Pass (Loop ι) (Loop ι × Exit)

/-- What differs between the servers. -/
structure Receiver (ι : Type) where
  headLen : Nat
  /-- read the header fields, apply the limits: `none` is the rejection path -/
  decodeHead : Bytes → Option (ι × Short)
  /-- the node constructor ends with `_data[_total_len] = '\0'` -/
  ctorTerminates : Bool

variable {ι : Type}

/-- `memcpy(node->_data + node->_cur_len, _data + copy_len, n)`. -/
def MsgNode.copyIn (m : MsgNode) (data : Bytes) (copyLen : Int) (n : Nat) : MsgNode :=
  m.write m.curLen.toInt (slice data copyLen n)

def MsgNode.copyEffect (m : MsgNode) (copyLen : Int) (n : Nat) : Effect :=
  .memcpy (m.totalLen.toInt + 1) m.curLen.toInt copyLen n

/-- The payload is complete: terminate it, hand it over, get ready for the next header, and go
round again unless the chunk is used up. -/
def finishMsg (p : Nat) (node : ReciveNode ι) (l : Loop ι) : Turn ι :=
  let l := { l with
    heap := l.heap.set p { node with toMsgNode := node.write node.totalLen.toInt [0] }
    session := { l.session with
      bHeadParse := false
      recvHeadNode := l.session.recvHeadNode.clear } }
  let effects := [.store (node.totalLen.toInt + 1) node.totalLen.toInt, .deliver p]
  if l.bytesTransferred = 0 then (effects ++ [.asyncReadSome], .leave (l, .returned))
  else (effects, .again l)

/-- Copy `need` payload bytes into the node at `p`, or as many as the chunk has. The source has
this twice, with `need = msg_len` right behind the header and with `need = remain_msg` in a
later callback, where `_b_head_parse` is set already. -/
def takeBody (data : Bytes) (p : Nat) (node : ReciveNode ι) (need : Int) (l : Loop ι) : Turn ι :=
  if l.bytesTransferred < toSizeT need then
    let node' := (node.copyIn data l.copyLen l.bytesTransferred).advance l.bytesTransferred
    ([node.copyEffect l.copyLen l.bytesTransferred, .asyncReadSome],
      .leave
        ({ l with
            heap := l.heap.set p { node with toMsgNode := node' }
            session := { l.session with bHeadParse := true } }, .returned))
  else
    let node' := (node.copyIn data l.copyLen (toSizeT need)).advance need
    let turn := finishMsg p { node with toMsgNode := node' }
      { l with
        copyLen := l.copyLen + need
        bytesTransferred := toSizeT (l.bytesTransferred - need) }
    (node.copyEffect l.copyLen (toSizeT need) :: turn.1, turn.2)

/-- `_b_head_parse` is set: the rest of a payload. -/
def bodyTurn (data : Bytes) (l : Loop ι) : Turn ι :=
  match l.session.recvMsgNode with
  | none => ([], .leave (l, .undefined))
  | some p =>
    match l.heap[p]? with
    | none => ([], .leave (l, .undefined))
    | some node => takeBody data p node (node.totalLen.toInt - node.curLen.toInt) l

/-- The header is complete: check it, allocate the message node, start on the payload. -/
def headDone (R : Receiver ι) (data : Bytes) (l : Loop ι) : Turn ι :=
  match R.decodeHead l.session.recvHeadNode.data with
  | none => ([.clearSession], .leave (l, .returned))
  | some (msgId, msgLen) =>
    match MsgNode.new msgLen with
    | .error _ => ([.newArray (msgLen.toInt + 1)], .leave (l, .threw))
    | .ok node =>
      let effects := .newArray (msgLen.toInt + 1) ::
        if R.ctorTerminates then [.store (msgLen.toInt + 1) msgLen.toInt] else []
      let p := l.heap.length
      let node : ReciveNode ι := { node with msgId := msgId }
      let turn := takeBody data p node msgLen.toInt
        { l with
          heap := l.heap ++ [node]
          session := { l.session with recvMsgNode := some p } }
      (effects ++ turn.1, turn.2)

/-- `_b_head_parse` is not set: (the rest of) a header. -/
def headTurn (R : Receiver ι) (data : Bytes) (l : Loop ι) : Turn ι :=
  let head := l.session.recvHeadNode
  if toSizeT (l.bytesTransferred + head.curLen.toInt) < R.headLen then
    let head' := (head.copyIn data l.copyLen l.bytesTransferred).advance l.bytesTransferred
    ([head.copyEffect l.copyLen l.bytesTransferred, .asyncReadSome],
      .leave ({ l with session := { l.session with recvHeadNode := head' } }, .returned))
  else
    -- `_cur_len` is not moved here: it goes stale until `Clear()`
    let headRemain : Int := R.headLen - head.curLen.toInt
    let turn := headDone R data
      { l with
        session := { l.session with
          recvHeadNode := head.copyIn data l.copyLen (toSizeT headRemain) }
        copyLen := l.copyLen + headRemain
        bytesTransferred := toSizeT (l.bytesTransferred - headRemain) }
    (head.copyEffect l.copyLen (toSizeT headRemain) :: turn.1, turn.2)

def loopBody (R : Receiver ι) (data : Bytes) (l : Loop ι) : Turn ι :=
  if l.session.bHeadParse then bodyTurn data l else headTurn R data l

/-- `_data` as the handler finds it: zeroed before the read was armed, then filled from the
front. -/
def readBuffer (chunk : Bytes) : Bytes :=
  chunk ++ List.replicate (maxLength - chunk.length) 0

/-- A bound on the passes over `n` bytes that no reachable session needs in full: a pass consumes
a header byte, or finishes a payload that a header pass has to precede. -/
def passBound (n : Nat) : Nat := 2 * n + 2

def handleReadLoop (R : Receiver ι) (data : Bytes) (l : Loop ι) :
    Option (List Effect × (Loop ι × Exit)) :=
  Lib.whileLog (fun l => decide (0 < l.bytesTransferred)) (loopBody R data)
    (fun l => (l, .returned)) (passBound l.bytesTransferred) l

/-- What `async_read_some` completes with. -/
inductive ReadResult where
  | ok (chunk : Bytes)
  | error
  deriving Repr, DecidableEq

/-- `CSession::HandleRead`. `none` only when the loop outruns `passBound`. -/
def handleRead (R : Receiver ι) (heap : Heap ι) (s : Session) :
    ReadResult → Option (List Effect × (Loop ι × Exit))
  | .ok chunk =>
    handleReadLoop R (readBuffer chunk)
      { heap := heap, session := s, copyLen := 0, bytesTransferred := chunk.length }
  | .error =>
    some ([.close, .clearSession],
      ({ heap := heap, session := s, copyLen := 0, bytesTransferred := 0 }, .returned))

/-- `CSession::CSession`, as far as reading goes. -/
def Session.fresh (R : Receiver ι) : Session where
  bHeadParse := false
  recvHeadNode := MsgNode.zeroed (toShort R.headLen)
  recvMsgNode := none

/-! ## The three servers -/

namespace ServerV3

def decodeHead (head : Bytes) : Option (Short × Short) :=
  let msgId := networkToHostShort (loadShort (slice head 0 headIdLen))
  if (maxLength : Int) < msgId.toInt then none
  else
    let msgLen := networkToHostShort (loadShort (slice head headIdLen headDataLen))
    if (maxLength : Int) < msgLen.toInt then none else some (msgId, msgLen)

def receiver : Receiver Short where
  headLen := headTotalLen
  decodeHead := decodeHead
  ctorTerminates := true

end ServerV3

namespace ServerV3Mt

/-- The multi-thread server repeats the header checks of `ServerV3.decodeHead`. -/
def receiver : Receiver Short where
  headLen := headTotalLen
  decodeHead := ServerV3.decodeHead
  ctorTerminates := true

end ServerV3Mt

namespace Server

def decodeHead (head : Bytes) : Option (Unit × Short) :=
  let dataLen := networkToHostShort (loadShort (slice head 0 headLength))
  if (maxLength : Int) < dataLen.toInt then none else some ((), dataLen)

def receiver : Receiver Unit where
  headLen := headLength
  decodeHead := decodeHead
  ctorTerminates := false

end Server
end AsyncEchoServer
