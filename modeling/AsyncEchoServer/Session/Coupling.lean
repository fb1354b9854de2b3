import AsyncEchoServer.Session.Reference

/-!
# `Session/Coupling.lean` — one pass of the loop is one step of the reference parser

`Coupled R F heap s pend` says what a session between two passes stands for: `pend` is the part
of the stream it has consumed and not yet handed over. Either the header is incomplete and the
header node holds exactly `pend`, or the header is complete, its bytes are in the header node
(whose `_cur_len` is stale and says nothing), and the message node holds the part of the payload
that has arrived.

`loopBody_spec` is the whole content of the file: with `r` left of the chunk, a pass does to
`pend ++ r` what `Lib.Format.next` says, in the five ways a pass can end. Everything about
`HandleRead` — the refinement, the memory safety, the conservation of bytes — is read off it.

The copy of a payload into the node exists twice in the source and once here (`takeBody`), so
there is one lemma about it, `takeBody_spec`, at a state both callers reach.
-/

set_option autoImplicit false

namespace AsyncEchoServer

variable {ι : Type} {R : Receiver ι} {F : Lib.Format UInt8 ι}

/-! ## Reading a log -/

/-- The nodes handed over, in order. -/
def delivered (es : List Effect) : List Nat :=
  es.filterMap fun
    | .deliver p => some p
    | _ => none

/-- How many reads were armed. -/
def armed (es : List Effect) : Nat := es.count .asyncReadSome

def cleared (es : List Effect) : Nat := es.count .clearSession

@[simp] theorem delivered_nil : delivered [] = [] := rfl

@[simp] theorem delivered_append (a b : List Effect) :
    delivered (a ++ b) = delivered a ++ delivered b := List.filterMap_append

@[simp] theorem armed_append (a b : List Effect) : armed (a ++ b) = armed a + armed b :=
  List.count_append

@[simp] theorem cleared_append (a b : List Effect) : cleared (a ++ b) = cleared a + cleared b :=
  List.count_append

/-- The access is inside its object, and an allocation has room for `0 .. MAX_LENGTH` bytes and
the terminator. -/
def Effect.InBounds : Effect → Prop
  | .newArray count => 1 ≤ count ∧ count ≤ maxLength + 1
  | .memcpy size off _ n => 0 ≤ off ∧ off + n ≤ size
  | .store size idx => 0 ≤ idx ∧ idx < size
  | .deliver _ | .asyncReadSome | .clearSession | .close => True

instance : DecidablePred Effect.InBounds := fun e => by
  cases e <;> unfold Effect.InBounds <;> infer_instance

/-- What the logic layer reads off a node: `_msg_id` and the first `_cur_len` bytes. -/
def ReciveNode.message (n : ReciveNode ι) : ι × Bytes :=
  (n.msgId, n.data.take (toSizeT n.curLen.toInt))

def messageAt (heap : Heap ι) (p : Nat) : Option (ι × Bytes) := heap[p]?.map ReciveNode.message

theorem ReciveNode.message_of_holds {n : ReciveNode ι} {b : Bytes} (h : n.Holds b) :
    n.message = (n.msgId, b) := by
  obtain ⟨hcur, hdata⟩ := h
  have hlt := short_lt n.curLen
  rw [ReciveNode.message, hcur, toSizeT_natCast (by omega), hdata]

/-- The node's payload is complete: `_cur_len` has reached `_total_len`. -/
def Filled (heap : Heap ι) (p : Nat) : Prop :=
  ∃ node, heap[p]? = some node ∧ node.curLen.toInt = node.totalLen.toInt ∧
    0 ≤ node.totalLen.toInt

/-! ## What a session stands for -/

/-- A complete header `hd` with a message node for it, `body` of the payload in the node. -/
structure BodyNode (R : Receiver ι) (F : Lib.Format UInt8 ι) (heap : Heap ι) (s : Session)
    (p : Nat) (node : ReciveNode ι) (hd body : Bytes) : Prop where
  total : s.recvHeadNode.totalLen.toInt = R.headLen
  header : s.recvHeadNode.data.take R.headLen = hd
  ptr : s.recvMsgNode = some p
  get : heap[p]? = some node
  decode : F.decode hd = .accept node.msgId node.totalLen.toInt.toNat
  nonneg : 0 ≤ node.totalLen.toInt
  limit : node.totalLen.toInt ≤ 2048
  holds : node.Holds body
  fits : (body.length : Int) ≤ node.totalLen.toInt

inductive Coupled (R : Receiver ι) (F : Lib.Format UInt8 ι) (heap : Heap ι) (s : Session) :
    Bytes → Prop where
  | head {pend : Bytes} (flag : s.bHeadParse = false) (short : pend.length < R.headLen)
      (total : s.recvHeadNode.totalLen.toInt = R.headLen) (holds : s.recvHeadNode.Holds pend) :
      Coupled R F heap s pend
  | body {p : Nat} {node : ReciveNode ι} {hd body : Bytes} (flag : s.bHeadParse = true)
      (held : BodyNode R F heap s p node hd body)
      (short : (body.length : Int) < node.totalLen.toInt) : Coupled R F heap s (hd ++ body)

theorem BodyNode.header_length {heap : Heap ι} {s : Session} {p : Nat} {node : ReciveNode ι}
    {hd body : Bytes} (h : BodyNode R F heap s p node hd body) : hd.length = R.headLen := by
  rw [← h.header, List.length_take, s.recvHeadNode.size, h.total]
  omega

/-- A coupled session is waiting: what it stands for is not a frame yet. -/
theorem Coupled.incomplete (hR : R.Reads F) {heap : Heap ι} {s : Session} {pend : Bytes}
    (h : Coupled R F heap s pend) : F.next pend = .incomplete := by
  cases h with
  | head _ short _ _ => exact Lib.Format.next_of_short (by rw [hR.headLen]; exact short)
  | body _ hn short =>
    apply Lib.Format.next_of_partial (by rw [hn.header_length, hR.headLen]) hn.decode
    have := hn.nonneg
    omega

/-- The chunk bytes `r` are the ones the loop has not consumed. -/
structure Remains (data : Bytes) (l : Loop ι) (r : Bytes) : Prop where
  copyLen : 0 ≤ l.copyLen
  bytes : l.bytesTransferred = r.length
  bound : r.length ≤ 2048
  slice : slice data l.copyLen r.length = r

theorem Remains.slice_take {data : Bytes} {l : Loop ι} {r : Bytes} (h : Remains data l r)
    {k : Nat} (hk : k ≤ r.length) : AsyncEchoServer.slice data l.copyLen k = r.take k := by
  have hs := h.slice
  unfold AsyncEchoServer.slice at hs ⊢
  rw [← hs, List.take_take, Nat.min_eq_left hk]

/-- Moving `copy_len` on and `bytes_transferred` down by `k` leaves the rest behind `k`. -/
theorem Remains.drop {data : Bytes} {l l' : Loop ι} {r : Bytes} (h : Remains data l r) {k : Nat}
    (hk : k ≤ r.length) (hcopy : l'.copyLen = l.copyLen + k)
    (hbytes : l'.bytesTransferred = r.length - k) : Remains data l' (r.drop k) := by
  have h0 := h.copyLen
  refine ⟨by omega, by rw [List.length_drop]; exact hbytes, ?_, ?_⟩
  · have := h.bound
    rw [List.length_drop]
    omega
  · have hs := h.slice
    have hto : (l.copyLen + (k : Int)).toNat = l.copyLen.toNat + k := by omega
    unfold AsyncEchoServer.slice at hs ⊢
    rw [hcopy, hto, List.length_drop, ← List.drop_drop, ← List.drop_take, hs]

/-! ## What a pass may do -/

/-- One pass against one step of the reference parser on `b`, the pending bytes and the rest of
the chunk. -/
inductive TurnSpec (R : Receiver ι) (F : Lib.Format UInt8 ι) (data b : Bytes) : Turn ι → Prop where
  | wait {es : List Effect} {l : Loop ι} (next : F.next b = .incomplete)
      (del : delivered es = []) (arm : armed es = 1) (clr : cleared es = 0)
      (ok : ∀ e ∈ es, e.InBounds) (coupled : Coupled R F l.heap l.session b) :
      TurnSpec R F data b (es, .leave (l, .returned))
  | reject {es : List Effect} {l : Loop ι} (next : F.next b = .rejected)
      (del : delivered es = []) (arm : armed es = 0) (clr : cleared es = 1)
      (ok : ∀ e ∈ es, e.InBounds) : TurnSpec R F data b (es, .leave (l, .returned))
  | broken {es : List Effect} {l : Loop ι} {x : Exit} (next : F.next b = .broken)
      (bad : ∃ e ∈ es, ¬ e.InBounds) : TurnSpec R F data b (es, .leave (l, x))
  | last {es : List Effect} {l : Loop ι} {p : Nat} {tag : ι} {payload : Bytes}
      (next : F.next b = .frame tag payload []) (del : delivered es = [p])
      (msg : messageAt l.heap p = some (tag, payload)) (full : Filled l.heap p) (arm : armed es = 1)
      (clr : cleared es = 0) (ok : ∀ e ∈ es, e.InBounds)
      (coupled : Coupled R F l.heap l.session []) :
      TurnSpec R F data b (es, .leave (l, .returned))
  | more {es : List Effect} {l : Loop ι} {p : Nat} {tag : ι} {payload rest : Bytes}
      (next : F.next b = .frame tag payload rest) (ne : rest ≠ []) (del : delivered es = [p])
      (msg : messageAt l.heap p = some (tag, payload)) (full : Filled l.heap p) (arm : armed es = 0)
      (clr : cleared es = 0) (ok : ∀ e ∈ es, e.InBounds)
      (coupled : Coupled R F l.heap l.session []) (rem : Remains data l rest) :
      TurnSpec R F data b (es, .again l)

/-- Accesses in front of a pass that are in bounds change nothing about it. -/
theorem TurnSpec.prepend {data b : Bytes} {t : Turn ι} (h : TurnSpec R F data b t)
    (pre : List Effect) (hdel : delivered pre = []) (harm : armed pre = 0)
    (hclr : cleared pre = 0) (hok : ∀ e ∈ pre, e.InBounds) :
    TurnSpec R F data b (pre ++ t.1, t.2) := by
  have all : ∀ {es : List Effect}, (∀ e ∈ es, e.InBounds) → ∀ e ∈ pre ++ es, e.InBounds := by
    intro es hes e he
    rcases List.mem_append.mp he with he | he
    · exact hok e he
    · exact hes e he
  cases h with
  | wait next del arm clr ok coupled =>
    exact .wait next (by simp [hdel, del]) (by simp [harm, arm]) (by simp [hclr, clr]) (all ok)
      coupled
  | reject next del arm clr ok =>
    exact .reject next (by simp [hdel, del]) (by simp [harm, arm]) (by simp [hclr, clr]) (all ok)
  | broken next bad =>
    obtain ⟨e, he, hbad⟩ := bad
    exact .broken next ⟨e, List.mem_append_right _ he, hbad⟩
  | last next del msg full arm clr ok coupled =>
    exact .last next (by simp [hdel, del]) msg full (by simp [harm, arm]) (by simp [hclr, clr])
      (all ok) coupled
  | more next ne del msg full arm clr ok coupled rem =>
    exact .more next ne (by simp [hdel, del]) msg full (by simp [harm, arm]) (by simp [hclr, clr])
      (all ok) coupled rem

/-! ## The payload -/

/-- The node of a complete payload, handed over. -/
theorem finishMsg_spec (hR : R.Reads F) {data b payload rest : Bytes} {l : Loop ι} {p : Nat}
    {node : ReciveNode ι} (hp : p < l.heap.length)
    (hnext : F.next b = .frame node.msgId payload rest)
    (htotal : l.session.recvHeadNode.totalLen.toInt = R.headLen) (hholds : node.Holds payload)
    (hlen : node.totalLen.toInt = payload.length) (hrem : Remains data l rest) :
    TurnSpec R F data b (finishMsg p node l) := by
  have hcoupled : ∀ heap : Heap ι, Coupled R F heap
      { l.session with bHeadParse := false, recvHeadNode := l.session.recvHeadNode.clear } [] :=
    fun heap => .head rfl (by have := F.headLen_pos; have := hR.headLen; simp; omega) htotal
      (MsgNode.clear_holds _)
  have hmsg : messageAt (l.heap.set p
      { node with toMsgNode := node.write node.totalLen.toInt [0] }) p =
        some (node.msgId, payload) := by
    rw [messageAt, List.getElem?_set_self hp, Option.map_some]
    exact congrArg some (ReciveNode.message_of_holds (hholds.write_behind [0] (by omega)))
  have hfull : Filled (l.heap.set p
      { node with toMsgNode := node.write node.totalLen.toInt [0] }) p :=
    ⟨_, List.getElem?_set_self hp, hholds.1.trans hlen.symm,
      by show 0 ≤ node.totalLen.toInt; omega⟩
  have hok : ∀ e ∈ [Effect.store (node.totalLen.toInt + 1) node.totalLen.toInt, .deliver p],
      e.InBounds := by
    intro e he
    rcases List.mem_pair.mp he with rfl | rfl
    · exact ⟨by omega, by omega⟩
    · trivial
  unfold finishMsg
  dsimp only
  by_cases hz : l.bytesTransferred = 0
  · rw [if_pos hz]
    have hrest : rest = [] := List.length_eq_zero_iff.mp (by rw [← hrem.bytes]; exact hz)
    subst hrest
    refine .last hnext rfl hmsg hfull rfl rfl ?_ (hcoupled _)
    intro e he
    rcases List.mem_append.mp he with he | he
    · exact hok e he
    · rw [List.mem_singleton.mp he]
      trivial
  · rw [if_neg hz]
    refine .more hnext ?_ rfl hmsg hfull rfl rfl hok (hcoupled _)
      ⟨hrem.copyLen, hrem.bytes, hrem.bound, hrem.slice⟩
    intro hnil
    exact hz (by rw [hrem.bytes, hnil]; rfl)

/-- Too few bytes end the callback, whatever `need` was before the conversion. -/
theorem takeBody_short (data : Bytes) (p : Nat) (node : ReciveNode ι) {l : Loop ι} {need : Int}
    (h : l.bytesTransferred < toSizeT need) :
    ∃ es l', takeBody data p node need l = (es, .leave (l', .returned)) := by
  unfold takeBody
  rw [if_pos h]
  exact ⟨_, _, rfl⟩

/-- **The payload copy**, from either caller. -/
theorem takeBody_spec (hR : R.Reads F) {data r hd body : Bytes} {l : Loop ι} {p : Nat}
    {node : ReciveNode ι} {need : Int} (hn : BodyNode R F l.heap l.session p node hd body)
    (hneed : need = node.totalLen.toInt - body.length) (hrem : Remains data l r) :
    TurnSpec R F data ((hd ++ body) ++ r) (takeBody data p node need l) := by
  have hp : p < l.heap.length := (List.getElem?_eq_some_iff.mp hn.get).1
  have hfits := hn.fits
  have hlimit := hn.limit
  have hcur := hn.holds.1
  have hbytes := hrem.bytes
  have hbound := hrem.bound
  have hsize : toSizeT need = need.toNat := toSizeT_of_nonneg (by omega) (by omega)
  unfold takeBody
  by_cases hlt : l.bytesTransferred < toSizeT need
  · -- the chunk ends inside the payload
    rw [if_pos hlt]
    rw [hsize] at hlt
    have hslice : slice data l.copyLen l.bytesTransferred = r := by rw [hbytes]; exact hrem.slice
    have hfill := (hn.holds.fill (c := r) (by omega)).1
    have hcoupled : Coupled R F
        (l.heap.set p { node with toMsgNode :=
          (node.copyIn data l.copyLen l.bytesTransferred).advance l.bytesTransferred })
        { l.session with bHeadParse := true } (hd ++ (body ++ r)) := by
      refine .body rfl ⟨hn.total, hn.header, hn.ptr, List.getElem?_set_self hp, hn.decode,
        hn.nonneg, hn.limit, ?_, ?_⟩ ?_
      · show ((node.write _ (slice data l.copyLen l.bytesTransferred)).advance _).Holds _
        rw [hslice, hbytes]
        exact hfill
      · show ((body ++ r).length : Int) ≤ node.totalLen.toInt
        rw [List.length_append]
        omega
      · show ((body ++ r).length : Int) < node.totalLen.toInt
        rw [List.length_append]
        omega
    rw [List.append_assoc]
    refine .wait (hcoupled.incomplete hR) rfl rfl rfl ?_ hcoupled
    intro e he
    rcases List.mem_pair.mp he with rfl | rfl
    · exact ⟨by omega, by omega⟩
    · trivial
  · -- the payload is complete
    rw [if_neg hlt]
    rw [hsize] at hlt
    have hk : need.toNat ≤ r.length := by omega
    have hslice := hrem.slice_take hk
    have htake : (r.take need.toNat).length = need.toNat := List.length_take_of_le hk
    have hfill := (hn.holds.fill (c := r.take need.toNat) (by omega)).1
    have hlen : (body ++ r.take need.toNat).length = node.totalLen.toInt.toNat := by
      rw [List.length_append, htake]
      omega
    have hnext : F.next ((hd ++ body) ++ r) =
        .frame node.msgId (body ++ r.take need.toNat) (r.drop need.toNat) :=
      Lib.Format.next_of_parts (by rw [hn.header_length, hR.headLen]) hn.decode hlen
    have hturn : TurnSpec R F data ((hd ++ body) ++ r)
        (finishMsg p
          { node with toMsgNode := (node.copyIn data l.copyLen (toSizeT need)).advance need }
          { l with
            copyLen := l.copyLen + need
            bytesTransferred := toSizeT (l.bytesTransferred - need) }) := by
      refine finishMsg_spec hR hp hnext hn.total ?_ ?_ (hrem.drop hk ?_ ?_)
      · show ((node.write _ (slice data l.copyLen (toSizeT need))).advance need).Holds _
        rw [hsize, hslice]
        rw [htake, Int.toNat_of_nonneg (by omega)] at hfill
        exact hfill
      · show node.totalLen.toInt = _
        rw [hlen]
        have := hn.nonneg
        omega
      · show l.copyLen + need = l.copyLen + need.toNat
        omega
      · show toSizeT (l.bytesTransferred - need) = r.length - need.toNat
        rw [toSizeT_of_nonneg (by omega) (by omega)]
        omega
    apply hturn.prepend [node.copyEffect l.copyLen (toSizeT need)] rfl rfl rfl
    intro e he
    rw [List.mem_singleton.mp he]
    exact ⟨by omega, by rw [hsize]; omega⟩

/-! ## The header -/

/-- The header is complete in the header node, `r` is behind it in the chunk. -/
theorem headDone_spec (hR : R.Reads F) {data hd r : Bytes} {l : Loop ι}
    (htotal : l.session.recvHeadNode.totalLen.toInt = R.headLen)
    (hhead : l.session.recvHeadNode.data.take R.headLen = hd) (hrem : Remains data l r) :
    TurnSpec R F data (hd ++ r) (headDone R data l) := by
  have hsize := l.session.recvHeadNode.size
  have hlong : R.headLen < l.session.recvHeadNode.data.length := by rw [hsize, htotal]; omega
  have hhd : hd.length = F.headLen := by
    rw [hR.headLen, ← hhead, List.length_take]
    omega
  have hdec : F.decode hd = headVerdict (R.decodeHead l.session.recvHeadNode.data) := by
    rw [← hhead]
    exact hR.decode hlong
  unfold headDone
  cases hd' : R.decodeHead l.session.recvHeadNode.data with
  | none =>
    rw [hd'] at hdec
    refine .reject (Lib.Format.next_of_reject hhd hdec) rfl rfl rfl ?_
    intro e he
    rw [List.mem_singleton.mp he]
    trivial
  | some h =>
    obtain ⟨tag, len⟩ := h
    rw [hd'] at hdec
    have hlimit := hR.limit hd'
    dsimp only
    by_cases hneg : len.toInt < 0
    · -- a negative length passed the check from above
      rw [headVerdict, if_pos hneg] at hdec
      have hbroken : F.next (hd ++ r) = .broken := Lib.Format.next_of_broken hhd hdec
      have hbad : ¬ (Effect.newArray (len.toInt + 1)).InBounds := fun h => by
        have := h.1
        omega
      by_cases hthrow : len.toInt + 1 < 0
      · rw [MsgNode.new, if_pos hthrow]
        exact .broken hbroken ⟨_, List.mem_singleton_self _, hbad⟩
      · -- length -1: an empty array, and every size is below `2 ^ 64 - 1`
        rw [MsgNode.new, if_neg hthrow]
        have hbig := toSizeT_short_neg hneg
        have hbytes := hrem.bytes
        have hbound := hrem.bound
        dsimp only
        obtain ⟨es, l', ht⟩ := takeBody_short data l.heap.length
          { MsgNode.zeroed len with msgId := tag }
          (l := { l with
            heap := l.heap ++ [{ MsgNode.zeroed len with msgId := tag }]
            session := { l.session with recvMsgNode := some l.heap.length } })
          (show l.bytesTransferred < toSizeT len.toInt by omega)
        rw [ht]
        exact .broken hbroken ⟨_, List.mem_append_left _ List.mem_cons_self, hbad⟩
    · rw [headVerdict, if_neg hneg] at hdec
      rw [MsgNode.new_of_nonneg (by omega)]
      dsimp only
      have hnonneg : 0 ≤ (MsgNode.zeroed len).totalLen.toInt := Int.not_lt.mp hneg
      -- the loop with the node allocated, and nothing of the payload in it
      let node : ReciveNode ι := { MsgNode.zeroed len with msgId := tag }
      let l' : Loop ι := { l with
        heap := l.heap ++ [node]
        session := { l.session with recvMsgNode := some l.heap.length } }
      have hbody : BodyNode R F l'.heap l'.session l.heap.length node hd [] :=
        ⟨htotal, hhead, rfl, List.getElem?_concat_length, hdec, hnonneg, hlimit,
          MsgNode.zeroed_holds len, hnonneg⟩
      have hrem' : Remains data l' r := ⟨hrem.copyLen, hrem.bytes, hrem.bound, hrem.slice⟩
      have hneed : len.toInt = node.totalLen.toInt - ([] : Bytes).length := (Int.sub_zero _).symm
      have hturn := takeBody_spec hR hbody hneed hrem'
      rw [List.append_nil] at hturn
      have hnew : (Effect.newArray (len.toInt + 1)).InBounds :=
        ⟨by omega, by simp only [maxLength]; omega⟩
      have hstore : (Effect.store (len.toInt + 1) len.toInt).InBounds := ⟨by omega, by omega⟩
      cases R.ctorTerminates with
      | true =>
        refine hturn.prepend [_, _] rfl rfl rfl fun e he => ?_
        rcases List.mem_pair.mp he with rfl | rfl
        · exact hnew
        · exact hstore
      | false =>
        refine hturn.prepend [_] rfl rfl rfl fun e he => ?_
        rw [List.mem_singleton.mp he]
        exact hnew

/-- What a pass over a header comes to, before anything of it is read: the chunk ends inside the
header, or the header node has the rest and the loop is behind it. -/
inductive HeadCases (R : Receiver ι) (data pend r : Bytes) (l : Loop ι) : Turn ι → Prop where
  | short {head' : MsgNode} (few : r.length + pend.length < R.headLen)
      (total : head'.totalLen = l.session.recvHeadNode.totalLen)
      (holds : head'.Holds (pend ++ r)) :
      HeadCases R data pend r l
        ([l.session.recvHeadNode.copyEffect l.copyLen l.bytesTransferred, .asyncReadSome],
          .leave ({ l with session := { l.session with recvHeadNode := head' } }, .returned))
  | long {k : Nat} {l' : Loop ι} (len : pend.length + k = R.headLen) (k_le : k ≤ r.length)
      (total : l'.session.recvHeadNode.totalLen = l.session.recvHeadNode.totalLen)
      (head : l'.session.recvHeadNode.data.take R.headLen = pend ++ r.take k)
      (copyLen : l'.copyLen = l.copyLen + k) (left : l'.bytesTransferred = r.length - k) :
      HeadCases R data pend r l (l.session.recvHeadNode.copyEffect l.copyLen k ::
        (headDone R data l').1, (headDone R data l').2)

theorem headTurn_cases (hle : R.headLen ≤ 4) {data pend r : Bytes} {l : Loop ι}
    (hshort : pend.length < R.headLen)
    (htotal : l.session.recvHeadNode.totalLen.toInt = R.headLen)
    (hholds : l.session.recvHeadNode.Holds pend) (hrem : Remains data l r) :
    HeadCases R data pend r l (headTurn R data l) := by
  have hcur := hholds.1
  have hbytes := hrem.bytes
  have hbound := hrem.bound
  have hsum : toSizeT (l.bytesTransferred + l.session.recvHeadNode.curLen.toInt) =
      r.length + pend.length := by
    rw [toSizeT_of_nonneg (by omega) (by omega)]
    omega
  unfold headTurn
  dsimp only
  rw [hsum]
  by_cases hlt : r.length + pend.length < R.headLen
  · rw [if_pos hlt]
    have hfill := (hholds.fill (c := r) (by omega)).1
    refine .short hlt rfl ?_
    show ((l.session.recvHeadNode.write _ (slice data l.copyLen l.bytesTransferred)).advance
      _).Holds _
    rw [hbytes, hrem.slice]
    exact hfill
  · rw [if_neg hlt]
    obtain ⟨k, hk⟩ : ∃ k : Nat, (R.headLen : Int) - l.session.recvHeadNode.curLen.toInt = k :=
      ⟨R.headLen - pend.length, by omega⟩
    have hkr : k ≤ r.length := by omega
    have hlen : pend.length + k = R.headLen := by omega
    have htake : (r.take k).length = k := List.length_take_of_le hkr
    have hfill := (hholds.fill (c := r.take k) (by omega)).2
    rw [hk, toSizeT_natCast (by omega)]
    refine .long hlen hkr rfl ?_ rfl ?_
    · show (l.session.recvHeadNode.write _ (slice data l.copyLen k)).data.take _ = _
      rw [hrem.slice_take hkr, show R.headLen = pend.length + (r.take k).length by omega]
      exact hfill
    · show toSizeT (l.bytesTransferred - k) = r.length - k
      rw [toSizeT_of_nonneg (by omega) (by omega)]
      omega

theorem headTurn_spec (hR : R.Reads F) {data pend r : Bytes} {l : Loop ι}
    (hflag : l.session.bHeadParse = false) (hshort : pend.length < R.headLen)
    (htotal : l.session.recvHeadNode.totalLen.toInt = R.headLen)
    (hholds : l.session.recvHeadNode.Holds pend) (hrem : Remains data l r) :
    TurnSpec R F data (pend ++ r) (headTurn R data l) := by
  have hcur := hholds.1
  have hbytes := hrem.bytes
  have hcases := headTurn_cases hR.headLen_le hshort htotal hholds hrem
  generalize headTurn R data l = turn at hcases ⊢
  cases hcases with
  | @short head' few total holds =>
    have hcoupled : Coupled R F l.heap { l.session with recvHeadNode := head' } (pend ++ r) := by
      refine .head hflag (by rw [List.length_append]; omega) ?_ holds
      show head'.totalLen.toInt = R.headLen
      rw [total, htotal]
    refine .wait (hcoupled.incomplete hR) rfl rfl rfl ?_ hcoupled
    intro e he
    rcases List.mem_pair.mp he with rfl | rfl
    · exact ⟨by omega, by omega⟩
    · trivial
  | @long k l' len k_le total head copyLen left =>
    have hturn := headDone_spec hR (by rw [total, htotal]) head (hrem.drop k_le copyLen left)
    rw [List.append_assoc, List.take_append_drop] at hturn
    refine hturn.prepend [_] rfl rfl rfl fun e he => ?_
    rw [List.mem_singleton.mp he]
    exact ⟨by omega, by omega⟩

/-- **One pass.** -/
theorem loopBody_spec (hR : R.Reads F) {data pend r : Bytes} {l : Loop ι}
    (hc : Coupled R F l.heap l.session pend) (hrem : Remains data l r) :
    TurnSpec R F data (pend ++ r) (loopBody R data l) := by
  unfold loopBody
  cases hc with
  | head flag short total holds =>
    rw [flag]
    exact headTurn_spec hR flag short total holds hrem
  | body flag held short =>
    rw [flag, if_pos rfl, bodyTurn, held.ptr]
    dsimp only
    rw [held.get]
    exact takeBody_spec hR held (by rw [held.holds.1]) hrem

end AsyncEchoServer
