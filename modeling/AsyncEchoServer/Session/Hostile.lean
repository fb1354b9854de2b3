import AsyncEchoServer.Session.Connection

/-!
# `Session/Hostile.lean` — the receive path on any bytes

The reference parsers call a negative length broken and say no more. The code goes on: it has no
check from below, so what happens is up to the integer types. A length under −1 makes
`new char[_total_len + 1]` throw. Length −1 allocates nothing and is then compared as a `size_t`:
every chunk is too short for it, until `_cur_len` has wrapped around, so that it acts as a length of
65535, the bits of the `short`.

`taken` is the format that says so: a header is broken only where the constructor throws. Against
it the receive path is followed on **every** input, past the copies and stores that leave their
buffers, as far as the integer fields go (`Connection.run_takes`). It also accounts for the chunk:
`copy_len` and `bytes_transferred` always add up to its length, and every copy reads inside it.

What is left out of a hostile stream is the content of a node whose buffer was overrun.
-/

set_option autoImplicit false

namespace AsyncEchoServer

variable {ι : Type} {R : Receiver ι} {G : Lib.Format UInt8 ι}

/-! ## The format the code takes -/

/-- What becomes of a header: rejected, an exception in the constructor, or so many bytes. -/
def headTaken : Option (ι × Short) → Lib.Verdict ι
  | none => .reject
  | some (tag, len) => if len.toInt < -1 then .broken else .accept tag (bits len)

/-- Version 3, any length. -/
def ServerV3.taken : Lib.Format UInt8 Short where
  headLen := 4
  headLen_pos := ref.headLen_pos
  decode h :=
    let id := bigEndianShort (h.getD 0 0) (h.getD 1 0)
    let len := bigEndianShort (h.getD 2 0) (h.getD 3 0)
    if 2048 < id.toInt ∨ 2048 < len.toInt then .reject
    else if len.toInt < -1 then .broken
    else .accept id (bits len)

/-- Version 2.1, any length. -/
def Server.taken : Lib.Format UInt8 Unit where
  headLen := 2
  headLen_pos := ref.headLen_pos
  decode h :=
    let len := bigEndianShort (h.getD 0 0) (h.getD 1 0)
    if 2048 < len.toInt then .reject
    else if len.toInt < -1 then .broken
    else .accept () (bits len)

/-- A receiver takes headers the way a format says. -/
structure Receiver.Takes (R : Receiver ι) (G : Lib.Format UInt8 ι) : Prop where
  headLen : G.headLen = R.headLen
  headLen_le : R.headLen ≤ 4
  decode : ∀ {head : Bytes}, R.headLen < head.length →
    G.decode (head.take R.headLen) = headTaken (R.decodeHead head)
  limit : ∀ {head : Bytes} {tag : ι} {len : Short}, R.decodeHead head = some (tag, len) →
    len.toInt ≤ 2048

theorem ServerV3.receiver_takes : receiver.Takes taken where
  headLen := rfl
  headLen_le := by decide
  limit := receiver_reads.limit
  decode := by
    intro head hlen
    match head, hlen with
    | a :: b :: c :: d :: t, _ =>
      show taken.decode [a, b, c, d] = headTaken (decodeHead (a :: b :: c :: d :: t))
      rw [decodeHead_cons]
      show (if 2048 < (bigEndianShort a b).toInt ∨ 2048 < (bigEndianShort c d).toInt then _
        else _) = _
      by_cases hid : 2048 < (bigEndianShort a b).toInt
      · rw [if_pos (Or.inl hid), if_pos hid]
        rfl
      · by_cases hlen : 2048 < (bigEndianShort c d).toInt
        · rw [if_pos (Or.inr hlen), if_neg hid, if_pos hlen]
          rfl
        · rw [if_neg (not_or.mpr ⟨hid, hlen⟩), if_neg hid, if_neg hlen]
          rfl

theorem ServerV3Mt.receiver_takes : ServerV3Mt.receiver.Takes ServerV3.taken :=
  ServerV3.receiver_takes

theorem Server.receiver_takes : receiver.Takes taken where
  headLen := rfl
  headLen_le := by decide
  limit := receiver_reads.limit
  decode := by
    intro head hlen
    match head, hlen with
    | a :: b :: t, _ =>
      show taken.decode [a, b] = headTaken (decodeHead (a :: b :: t))
      rw [decodeHead_cons]
      show (if 2048 < (bigEndianShort a b).toInt then _ else _) = _
      by_cases hlen : 2048 < (bigEndianShort a b).toInt
      · rw [if_pos hlen, if_pos hlen]
        rfl
      · rw [if_neg hlen, if_neg hlen]
        rfl

/-! ## The wrap of `_cur_len` -/

/-- A fill mark past 32767 has wrapped. -/
theorem toShort_wrapped {b : Nat} (hlo : 32768 ≤ b) (hhi : b < 65536) :
    (toShort (b : Int)).toInt = b - 65536 := by
  rw [toShort, Int16.toInt_ofInt]
  show (b : Int).bmod 65536 = b - 65536
  rw [Int.bmod_def]
  omega

theorem bits_of_nonneg {x : Short} (h : 0 ≤ x.toInt) : bits x = x.toInt.toNat := by
  have hlt := short_lt x
  unfold bits
  omega

theorem bits_neg_one {x : Short} (h : x.toInt = -1) : bits x = 65535 := by
  unfold bits
  rw [h]
  rfl

/-- What is missing of a payload, as the code computes it: the number of bytes that are, or a size
no chunk has when it is more than any chunk has. -/
theorem remain_cases {total : Short} {b : Nat} (hlo : -1 ≤ total.toInt) (hhi : total.toInt ≤ 2048)
    (hb : b ≤ bits total) :
    total.toInt - (toShort (b : Int)).toInt = (bits total - b : Nat) ∨
      2048 < toSizeT (total.toInt - (toShort (b : Int)).toInt) ∧ 2048 < bits total - b := by
  by_cases hneg : total.toInt < 0
  · have hone : total.toInt = -1 := by omega
    have hbits := bits_neg_one hone
    by_cases hwrap : b < 32768
    · -- negative, so a huge size
      right
      rw [toShort_toInt (by omega) (by omega), hone]
      unfold toSizeT
      omega
    · left
      rw [toShort_wrapped (by omega) (by omega), hone]
      omega
  · left
    have hbits := bits_of_nonneg (Int.not_lt.mp hneg)
    rw [toShort_toInt (by omega) (by omega)]
    omega

/-! ## What a session stands for -/

/-- A complete header `hd` with its node, `body` of the payload received. The node's content is
known when its length is. -/
structure TakenNode (R : Receiver ι) (G : Lib.Format UInt8 ι) (heap : Heap ι) (s : Session)
    (p : Nat) (node : ReciveNode ι) (hd body : Bytes) : Prop where
  total : s.recvHeadNode.totalLen.toInt = R.headLen
  header : s.recvHeadNode.data.take R.headLen = hd
  ptr : s.recvMsgNode = some p
  get : heap[p]? = some node
  decode : G.decode hd = .accept node.msgId (bits node.totalLen)
  low : -1 ≤ node.totalLen.toInt
  limit : node.totalLen.toInt ≤ 2048
  mark : node.curLen = toShort body.length
  holds : 0 ≤ node.totalLen.toInt → node.Holds body
  fits : body.length ≤ bits node.totalLen

/-- `Coupled`, for any bytes. -/
inductive Tracks (R : Receiver ι) (G : Lib.Format UInt8 ι) (heap : Heap ι) (s : Session) :
    Bytes → Prop where
  | head {pend : Bytes} (flag : s.bHeadParse = false) (short : pend.length < R.headLen)
      (total : s.recvHeadNode.totalLen.toInt = R.headLen) (holds : s.recvHeadNode.Holds pend) :
      Tracks R G heap s pend
  | body {p : Nat} {node : ReciveNode ι} {hd body : Bytes} (flag : s.bHeadParse = true)
      (held : TakenNode R G heap s p node hd body) (short : body.length < bits node.totalLen) :
      Tracks R G heap s (hd ++ body)

theorem TakenNode.header_length {heap : Heap ι} {s : Session} {p : Nat} {node : ReciveNode ι}
    {hd body : Bytes} (h : TakenNode R G heap s p node hd body) : hd.length = R.headLen := by
  rw [← h.header, List.length_take, s.recvHeadNode.size, h.total]
  omega

theorem Tracks.incomplete (hR : R.Takes G) {heap : Heap ι} {s : Session} {pend : Bytes}
    (h : Tracks R G heap s pend) : G.next pend = .incomplete := by
  cases h with
  | head _ short _ _ => exact Lib.Format.next_of_short (by rw [hR.headLen]; exact short)
  | body _ held short =>
    exact Lib.Format.next_of_partial (by rw [held.header_length, hR.headLen]) held.decode short

/-- `copy_len` is where `r` starts in a chunk of `n` bytes. -/
structure Accounts (data : Bytes) (n : Nat) (l : Loop ι) (r : Bytes) : Prop
    extends Remains data l r where
  sum : l.copyLen + r.length = n

theorem Accounts.drop {data : Bytes} {n : Nat} {l l' : Loop ι} {r : Bytes}
    (h : Accounts data n l r) {k : Nat} (hk : k ≤ r.length) (hcopy : l'.copyLen = l.copyLen + k)
    (hbytes : l'.bytesTransferred = r.length - k) : Accounts data n l' (r.drop k) where
  toRemains := h.toRemains.drop hk hcopy hbytes
  sum := by
    have hsum := h.sum
    rw [List.length_drop]
    omega

/-- A copy out of a chunk of `n` bytes reads inside it. -/
def Effect.ReadsChunk (n : Nat) : Effect → Prop
  | .memcpy _ _ src k => 0 ≤ src ∧ src + k ≤ n
  | _ => True

/-! ## What a pass does -/

/-- One pass against one step of `taken` on `b`, the pending bytes and the rest of the chunk. -/
inductive TurnTakes (R : Receiver ι) (G : Lib.Format UInt8 ι) (data : Bytes) (n : Nat)
    (b : Bytes) : Turn ι → Prop where
  | wait {es : List Effect} {l : Loop ι} (next : G.next b = .incomplete)
      (del : delivered es = []) (arm : armed es = 1) (clr : cleared es = 0)
      (src : ∀ e ∈ es, e.ReadsChunk n) (tracks : Tracks R G l.heap l.session b) :
      TurnTakes R G data n b (es, .leave (l, .returned))
  | reject {es : List Effect} {l : Loop ι} (next : G.next b = .rejected)
      (del : delivered es = []) (arm : armed es = 0) (clr : cleared es = 1)
      (src : ∀ e ∈ es, e.ReadsChunk n) : TurnTakes R G data n b (es, .leave (l, .returned))
  | threw {es : List Effect} {l : Loop ι} (next : G.next b = .broken)
      (del : delivered es = []) (arm : armed es = 0) (clr : cleared es = 0)
      (src : ∀ e ∈ es, e.ReadsChunk n) : TurnTakes R G data n b (es, .leave (l, .threw))
  | last {es : List Effect} {l : Loop ι} {p : Nat} {tag : ι} {payload : Bytes}
      (next : G.next b = .frame tag payload []) (del : delivered es = [p])
      (msg : payload.length ≤ 2048 → messageAt l.heap p = some (tag, payload)) (arm : armed es = 1)
      (clr : cleared es = 0) (src : ∀ e ∈ es, e.ReadsChunk n)
      (tracks : Tracks R G l.heap l.session []) :
      TurnTakes R G data n b (es, .leave (l, .returned))
  | more {es : List Effect} {l : Loop ι} {p : Nat} {tag : ι} {payload rest : Bytes}
      (next : G.next b = .frame tag payload rest) (ne : rest ≠ []) (del : delivered es = [p])
      (msg : payload.length ≤ 2048 → messageAt l.heap p = some (tag, payload)) (arm : armed es = 0)
      (clr : cleared es = 0) (src : ∀ e ∈ es, e.ReadsChunk n)
      (tracks : Tracks R G l.heap l.session []) (acc : Accounts data n l rest) :
      TurnTakes R G data n b (es, .again l)

theorem TurnTakes.prepend {data b : Bytes} {n : Nat} {t : Turn ι} (h : TurnTakes R G data n b t)
    (pre : List Effect) (hdel : delivered pre = []) (harm : armed pre = 0)
    (hclr : cleared pre = 0) (hsrc : ∀ e ∈ pre, e.ReadsChunk n) :
    TurnTakes R G data n b (pre ++ t.1, t.2) := by
  have all : ∀ {es : List Effect}, (∀ e ∈ es, e.ReadsChunk n) →
      ∀ e ∈ pre ++ es, e.ReadsChunk n := by
    intro es hes e he
    rcases List.mem_append.mp he with he | he
    · exact hsrc e he
    · exact hes e he
  cases h with
  | wait next del arm clr src tracks =>
    exact .wait next (by simp [hdel, del]) (by simp [harm, arm]) (by simp [hclr, clr]) (all src)
      tracks
  | reject next del arm clr src =>
    exact .reject next (by simp [hdel, del]) (by simp [harm, arm]) (by simp [hclr, clr]) (all src)
  | threw next del arm clr src =>
    exact .threw next (by simp [hdel, del]) (by simp [harm, arm]) (by simp [hclr, clr]) (all src)
  | last next del msg arm clr src tracks =>
    exact .last next (by simp [hdel, del]) msg (by simp [harm, arm]) (by simp [hclr, clr])
      (all src) tracks
  | more next ne del msg arm clr src tracks acc =>
    exact .more next ne (by simp [hdel, del]) msg (by simp [harm, arm]) (by simp [hclr, clr])
      (all src) tracks acc

theorem finishMsg_takes (hR : R.Takes G) {data b payload rest : Bytes} {n : Nat} {l : Loop ι}
    {p : Nat} {node : ReciveNode ι} (hp : p < l.heap.length)
    (hnext : G.next b = .frame node.msgId payload rest)
    (htotal : l.session.recvHeadNode.totalLen.toInt = R.headLen)
    (hholds : payload.length ≤ 2048 →
      node.Holds payload ∧ node.totalLen.toInt = payload.length)
    (hacc : Accounts data n l rest) : TurnTakes R G data n b (finishMsg p node l) := by
  have htracks : ∀ heap : Heap ι, Tracks R G heap
      { l.session with bHeadParse := false, recvHeadNode := l.session.recvHeadNode.clear } [] :=
    fun heap => .head rfl (by have := G.headLen_pos; have := hR.headLen; simp; omega) htotal
      (MsgNode.clear_holds _)
  have hmsg : payload.length ≤ 2048 → messageAt (l.heap.set p
      { node with toMsgNode := node.write node.totalLen.toInt [0] }) p =
        some (node.msgId, payload) := by
    intro hlen
    obtain ⟨hnode, heq⟩ := hholds hlen
    rw [messageAt, List.getElem?_set_self hp, Option.map_some]
    exact congrArg some (ReciveNode.message_of_holds (hnode.write_behind [0] (by omega)))
  have hsrc : ∀ {es : List Effect} {e : Effect}, es = [.asyncReadSome] ∨ es = [] →
      e ∈ [Effect.store (node.totalLen.toInt + 1) node.totalLen.toInt, .deliver p] ++ es →
      e.ReadsChunk n := by
    intro es e hes he
    rcases hes with rfl | rfl <;> simp at he <;> rcases he with rfl | rfl | rfl <;> trivial
  unfold finishMsg
  dsimp only
  by_cases hz : l.bytesTransferred = 0
  · rw [if_pos hz]
    have hrest : rest = [] := List.length_eq_zero_iff.mp (by rw [← hacc.bytes]; exact hz)
    subst hrest
    exact .last hnext rfl hmsg rfl rfl (fun e => hsrc (Or.inl rfl)) (htracks _)
  · rw [if_neg hz]
    refine .more hnext ?_ rfl hmsg rfl rfl (fun e he => hsrc (Or.inr rfl) (by simpa using he))
      (htracks _) ⟨⟨hacc.copyLen, hacc.bytes, hacc.bound, hacc.slice⟩, hacc.sum⟩
    intro hnil
    exact hz (by rw [hacc.bytes, hnil]; rfl)

theorem toShort_add (i j : Int) : toShort ((toShort i).toInt + j) = toShort (i + j) := by
  rw [← Int16.toInt_inj, toShort, toShort, toShort, Int16.toInt_ofInt, Int16.toInt_ofInt,
    Int16.toInt_ofInt]
  exact Int.bmod_add_bmod

/-- **The payload copy**, from either caller: `need` is what is missing, or a size no chunk has. -/
theorem takeBody_takes (hR : R.Takes G) {data r hd body : Bytes} {n : Nat} {l : Loop ι} {p : Nat}
    {node : ReciveNode ι} {need : Int} (hn : TakenNode R G l.heap l.session p node hd body)
    (hneed : need = node.totalLen.toInt - node.curLen.toInt) (hacc : Accounts data n l r) :
    TurnTakes R G data n ((hd ++ body) ++ r) (takeBody data p node need l) := by
  have hp : p < l.heap.length := (List.getElem?_eq_some_iff.mp hn.get).1
  have hbytes := hacc.bytes
  have hbound := hacc.bound
  have hstart := hacc.copyLen
  have hsum := hacc.sum
  have hfits := hn.fits
  have hbits := bits_lt node.totalLen
  have hcases := remain_cases hn.low hn.limit hn.fits
  rw [← hn.mark, ← hneed] at hcases
  unfold takeBody
  by_cases hlt : l.bytesTransferred < toSizeT need
  · -- the chunk ends inside the payload
    rw [if_pos hlt]
    have hshort : body.length + r.length < bits node.totalLen := by
      rcases hcases with hneed | ⟨_, hmore⟩
      · rw [hneed, toSizeT_natCast (by omega)] at hlt
        omega
      · omega
    have hslice : slice data l.copyLen l.bytesTransferred = r := by rw [hbytes]; exact hacc.slice
    have htracks : Tracks R G
        (l.heap.set p { node with toMsgNode :=
          (node.copyIn data l.copyLen l.bytesTransferred).advance l.bytesTransferred })
        { l.session with bHeadParse := true } (hd ++ (body ++ r)) := by
      refine .body rfl ⟨hn.total, hn.header, hn.ptr, List.getElem?_set_self hp, hn.decode, hn.low,
        hn.limit, ?_, ?_, ?_⟩ ?_
      · show toShort (node.curLen.toInt + l.bytesTransferred) = _
        rw [hn.mark, toShort_add, hbytes, List.length_append, Int.natCast_add]
      · intro hnonneg
        show ((node.write _ (slice data l.copyLen l.bytesTransferred)).advance _).Holds _
        rw [hslice, hbytes]
        have htotal : 0 ≤ node.totalLen.toInt := hnonneg
        have hlen := bits_of_nonneg htotal
        exact ((hn.holds htotal).fill (c := r) (by omega)).1
      · show (body ++ r).length ≤ bits node.totalLen
        rw [List.length_append]
        exact Nat.le_of_lt hshort
      · show (body ++ r).length < bits node.totalLen
        rw [List.length_append]
        exact hshort
    rw [List.append_assoc]
    refine .wait (htracks.incomplete hR) rfl rfl rfl ?_ htracks
    intro e he
    rcases List.mem_pair.mp he with rfl | rfl
    · exact ⟨hstart, by omega⟩
    · trivial
  · -- the payload is complete
    rw [if_neg hlt]
    have hk : need = (bits node.totalLen - body.length : Nat) := by
      rcases hcases with hneed | ⟨hbig, _⟩
      · exact hneed
      · omega
    generalize hkdef : bits node.totalLen - body.length = k at hk
    have hsize : toSizeT need = k := by rw [hk, toSizeT_natCast (by omega)]
    rw [hsize] at hlt
    have hkr : k ≤ r.length := by omega
    have hslice := hacc.slice_take hkr
    have htake : (r.take k).length = k := List.length_take_of_le hkr
    have hlen : (body ++ r.take k).length = bits node.totalLen := by
      rw [List.length_append, htake]
      omega
    have hnext : G.next ((hd ++ body) ++ r) = .frame node.msgId (body ++ r.take k) (r.drop k) :=
      Lib.Format.next_of_parts (by rw [hn.header_length, hR.headLen]) hn.decode hlen
    have hturn : TurnTakes R G data n ((hd ++ body) ++ r)
        (finishMsg p
          { node with toMsgNode := (node.copyIn data l.copyLen (toSizeT need)).advance need }
          { l with
            copyLen := l.copyLen + need
            bytesTransferred := toSizeT (l.bytesTransferred - need) }) := by
      refine finishMsg_takes hR hp hnext hn.total ?_ (hacc.drop hkr ?_ ?_)
      · intro hsmall
        rw [hlen] at hsmall
        have hnonneg : 0 ≤ node.totalLen.toInt := by
          by_contra hneg
          have hone := bits_neg_one (x := node.totalLen) (by have := hn.low; omega)
          omega
        have htotal := bits_of_nonneg hnonneg
        constructor
        · show ((node.write _ (slice data l.copyLen (toSizeT need))).advance need).Holds _
          have hfill := ((hn.holds hnonneg).fill (c := r.take k) (by omega)).1
          rw [htake] at hfill
          rw [hsize, hslice, hk]
          exact hfill
        · show node.totalLen.toInt = _
          rw [hlen]
          omega
      · show l.copyLen + need = l.copyLen + k
        rw [hk]
      · show toSizeT (l.bytesTransferred - need) = r.length - k
        rw [toSizeT_of_nonneg (by omega) (by omega)]
        omega
    apply hturn.prepend [node.copyEffect l.copyLen (toSizeT need)] rfl rfl rfl
    intro e he
    rw [List.mem_singleton.mp he]
    exact ⟨hstart, by rw [hsize]; omega⟩

/-- The header is complete in the header node, `r` is behind it in the chunk. -/
theorem headDone_takes (hR : R.Takes G) {data hd r : Bytes} {n : Nat} {l : Loop ι}
    (htotal : l.session.recvHeadNode.totalLen.toInt = R.headLen)
    (hhead : l.session.recvHeadNode.data.take R.headLen = hd) (hacc : Accounts data n l r) :
    TurnTakes R G data n (hd ++ r) (headDone R data l) := by
  have hsize := l.session.recvHeadNode.size
  have hlong : R.headLen < l.session.recvHeadNode.data.length := by rw [hsize, htotal]; omega
  have hhd : hd.length = G.headLen := by
    rw [hR.headLen, ← hhead, List.length_take]
    omega
  have hdec : G.decode hd = headTaken (R.decodeHead l.session.recvHeadNode.data) := by
    rw [← hhead]
    exact hR.decode hlong
  have hone : ∀ {e e' : Effect}, e ∈ [e'] → e'.ReadsChunk n → e.ReadsChunk n := by
    intro e e' he hread
    rw [List.mem_singleton.mp he]
    exact hread
  unfold headDone
  cases hd' : R.decodeHead l.session.recvHeadNode.data with
  | none =>
    rw [hd'] at hdec
    exact .reject (Lib.Format.next_of_reject hhd hdec) rfl rfl rfl fun e he => hone he trivial
  | some h =>
    obtain ⟨tag, len⟩ := h
    rw [hd'] at hdec
    have hlimit := hR.limit hd'
    dsimp only
    by_cases hneg : len.toInt < -1
    · -- a negative count: the constructor throws
      rw [headTaken, if_pos hneg] at hdec
      rw [MsgNode.new, if_pos (by omega)]
      exact .threw (Lib.Format.next_of_broken hhd hdec) rfl rfl rfl fun e he => hone he trivial
    · rw [headTaken, if_neg hneg] at hdec
      rw [MsgNode.new, if_neg (by omega)]
      dsimp only
      let node : ReciveNode ι := { MsgNode.zeroed len with msgId := tag }
      let l' : Loop ι := { l with
        heap := l.heap ++ [node]
        session := { l.session with recvMsgNode := some l.heap.length } }
      have hnode : TakenNode R G l'.heap l'.session l.heap.length node hd [] :=
        ⟨htotal, hhead, rfl, List.getElem?_concat_length, hdec, Int.not_lt.mp hneg, hlimit, rfl,
          fun _ => MsgNode.zeroed_holds len, Nat.zero_le _⟩
      have hacc' : Accounts data n l' r :=
        ⟨⟨hacc.copyLen, hacc.bytes, hacc.bound, hacc.slice⟩, hacc.sum⟩
      have hneed : len.toInt = node.totalLen.toInt - node.curLen.toInt := (Int.sub_zero _).symm
      have hturn := takeBody_takes hR hnode hneed hacc'
      rw [List.append_nil] at hturn
      cases R.ctorTerminates with
      | true =>
        refine hturn.prepend [_, _] rfl rfl rfl fun e he => ?_
        rcases List.mem_pair.mp he with rfl | rfl <;> trivial
      | false => exact hturn.prepend [_] rfl rfl rfl fun e he => hone he trivial

theorem headTurn_takes (hR : R.Takes G) {data pend r : Bytes} {n : Nat} {l : Loop ι}
    (hflag : l.session.bHeadParse = false) (hshort : pend.length < R.headLen)
    (htotal : l.session.recvHeadNode.totalLen.toInt = R.headLen)
    (hholds : l.session.recvHeadNode.Holds pend) (hacc : Accounts data n l r) :
    TurnTakes R G data n (pend ++ r) (headTurn R data l) := by
  have hbytes := hacc.bytes
  have hstart := hacc.copyLen
  have hsum := hacc.sum
  have hcases := headTurn_cases hR.headLen_le hshort htotal hholds hacc.toRemains
  generalize headTurn R data l = turn at hcases ⊢
  cases hcases with
  | @short head' few total holds =>
    have htracks : Tracks R G l.heap { l.session with recvHeadNode := head' } (pend ++ r) := by
      refine .head hflag (by rw [List.length_append]; omega) ?_ holds
      show head'.totalLen.toInt = R.headLen
      rw [total, htotal]
    refine .wait (htracks.incomplete hR) rfl rfl rfl ?_ htracks
    intro e he
    rcases List.mem_pair.mp he with rfl | rfl
    · exact ⟨hstart, by omega⟩
    · trivial
  | @long k l' len k_le total head copyLen left =>
    have hturn := headDone_takes hR (by rw [total, htotal]) head (hacc.drop k_le copyLen left)
    rw [List.append_assoc, List.take_append_drop] at hturn
    refine hturn.prepend [_] rfl rfl rfl fun e he => ?_
    rw [List.mem_singleton.mp he]
    exact ⟨hstart, by omega⟩

/-- **One pass, on any bytes.** -/
theorem loopBody_takes (hR : R.Takes G) {data pend r : Bytes} {n : Nat} {l : Loop ι}
    (ht : Tracks R G l.heap l.session pend) (hacc : Accounts data n l r) :
    TurnTakes R G data n (pend ++ r) (loopBody R data l) := by
  unfold loopBody
  cases ht with
  | head flag short total holds =>
    rw [flag]
    exact headTurn_takes hR flag short total holds hacc
  | body flag held short =>
    rw [flag, if_pos rfl, bodyTurn, held.ptr]
    dsimp only
    rw [held.get]
    exact takeBody_takes hR held rfl hacc

end AsyncEchoServer
