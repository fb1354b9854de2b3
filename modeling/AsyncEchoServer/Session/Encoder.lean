import AsyncEchoServer.Session.Connection

/-!
# `Session/Encoder.lean` — `SendNode` against `HandleRead`

The encoder and the decoder are separate code with separate conversions. They meet in
`Lib.Encoder`: `make_buffer` says the constructor's three copies lay out exactly the frame the
reference format describes, and the library's two theorems about encoders then give both
directions of `sendNode_handleRead_inverse` — what was encoded is posted, and what was posted,
encoded again, is what was received up to the bytes still pending.

The pending bytes are read off the session's own fields (`Session.pendingBytes`). With the flag
set the header node's `_cur_len` says nothing, which is why all four header bytes are taken.
-/

set_option autoImplicit false

namespace AsyncEchoServer

/-! ## The constructor -/

namespace SendNode

/-- **The layout of a frame**, for any length the sum with the header does not overflow. -/
theorem make_buffer (msg : Bytes) {maxLen : Short} (msgId : Short) (h₀ : 0 ≤ maxLen.toInt)
    (hfit : maxLen.toInt ≤ 32763) (hsrc : maxLen.toInt ≤ msg.length) :
    ∃ n, SendNode.make msg maxLen msgId = .ok n ∧ n.totalLen.toInt = maxLen.toInt + 4 ∧
      n.buffer = networkBytes msgId ++ networkBytes maxLen ++ msg.take maxLen.toInt.toNat := by
  have htotal : (toShort (maxLen.toInt + headTotalLen)).toInt = maxLen.toInt + 4 :=
    toShort_toInt (by simp only [headTotalLen]; omega) (by simp only [headTotalLen]; omega)
  have hcopy : toSizeT maxLen.toInt = maxLen.toInt.toNat := toSizeT_short h₀
  obtain ⟨k, hk⟩ : ∃ k : Nat, maxLen.toInt = k := ⟨maxLen.toInt.toNat, by omega⟩
  -- one node a line, as the constructor writes it
  let n₀ := MsgNode.zeroed (toShort (maxLen.toInt + headTotalLen))
  let n₁ := n₀.write n₀.totalLen.toInt [0]
  let n₂ := n₁.write (0 : Nat) ((storeShort (hostToNetworkShort msgId)).take headIdLen)
  let n₃ := n₂.write headIdLen ((storeShort (hostToNetworkShort maxLen)).take headDataLen)
  let n₄ := n₃.write headTotalLen (msg.take (toSizeT maxLen.toInt))
  have ht₀ : n₀.totalLen.toInt = maxLen.toInt + 4 := htotal
  have hnew : MsgNode.new (toShort (maxLen.toInt + headTotalLen)) = .ok n₀ :=
    MsgNode.new_of_nonneg (by rw [htotal]; omega)
  have h₁ : n₀.terminate = .ok n₁ := MsgNode.terminate_ok (by omega)
  have h₂ : n₁.memcpy 0 (storeShort (hostToNetworkShort msgId)) headIdLen = .ok n₂ :=
    MsgNode.memcpy_ok (by show (2 : Int) ≤ n₀.totalLen.toInt + 1; omega) (Nat.le_refl 2)
  have h₃ : n₂.memcpy headIdLen (storeShort (hostToNetworkShort maxLen)) headDataLen = .ok n₃ :=
    MsgNode.memcpy_ok (by show (4 : Int) ≤ n₀.totalLen.toInt + 1; omega) (Nat.le_refl 2)
  have h₄ : n₃.memcpy headTotalLen msg (toSizeT maxLen.toInt) = .ok n₄ :=
    MsgNode.memcpy_ok
      (by show ((4 + toSizeT maxLen.toInt : Nat) : Int) ≤ n₀.totalLen.toInt + 1; omega) (by omega)
  have hmake : SendNode.make msg maxLen msgId = .ok { n₄ with msgId := msgId } := by
    simp only [SendNode.make, hnew, h₁, h₂, h₃, h₄, bind, Except.bind, pure, Except.pure]
  refine ⟨{ n₄ with msgId := msgId }, hmake, ht₀, ?_⟩
  have hsize : n₀.data.length = k + 5 := by rw [n₀.size]; omega
  have hd₁ : n₁.data.length = k + 5 := by rw [MsgNode.write_data, blit_length, hsize]
  have hd₂ : n₂.data.length = k + 5 := by rw [MsgNode.write_data, blit_length, hd₁]
  have hd₃ : n₃.data.length = k + 5 := by rw [MsgNode.write_data, blit_length, hd₂]
  have hid : n₂.data.take 2 = networkBytes msgId := by
    have h := blit_take n₁.data (networkBytes msgId) (k := 0)
      (by rw [hd₁, networkBytes_length]; omega)
    rw [networkBytes_length] at h
    show (blit n₁.data (0 : Nat) ((storeShort (hostToNetworkShort msgId)).take 2)).take 2 = _
    rw [store_hostToNetwork, List.take_of_length_le (Nat.le_of_eq (networkBytes_length _))]
    simpa using h
  have hhead : n₃.data.take 4 = networkBytes msgId ++ networkBytes maxLen := by
    have h := blit_take n₂.data (networkBytes maxLen) (k := 2)
      (by rw [hd₂, networkBytes_length]; omega)
    rw [networkBytes_length, hid] at h
    show (blit n₂.data (2 : Nat) ((storeShort (hostToNetworkShort maxLen)).take 2)).take 4 = _
    rw [store_hostToNetwork, List.take_of_length_le (Nat.le_of_eq (networkBytes_length _))]
    exact h
  have hbody : (msg.take k).length = k := List.length_take_of_le (by omega)
  have h := blit_take n₃.data (msg.take k) (k := 4) (by rw [hd₃, hbody]; omega)
  rw [hbody, hhead] at h
  show (blit n₃.data (4 : Nat) (msg.take (toSizeT maxLen.toInt))).take
    (toSizeT n₀.totalLen.toInt) = _
  rw [hcopy, hk, Int.toNat_natCast, ht₀, hk, toSizeT_of_nonneg (by omega) (by omega),
    show ((k : Int) + 4).toNat = 4 + k by omega]
  exact h

end SendNode

/-! ## The encoder of the version-3 format -/

namespace ServerV3

/-- The frames within the receive limits. -/
def encoder : Lib.Encoder ref where
  dom m := m.1.toInt ≤ 2048 ∧ m.2.length ≤ 2048
  head m := networkBytes m.1 ++ networkBytes (toShort m.2.length)
  head_length _ _ := rfl
  decode_head := by
    rintro ⟨id, payload⟩ ⟨hid, hlen⟩
    dsimp only at hid hlen ⊢
    have hid' := bigEndianShort_networkBytes id (networkBytes (toShort payload.length))
    have hlen' := bigEndianShort_networkBytes (toShort payload.length) []
    rw [List.append_nil] at hlen'
    have hn : (toShort (payload.length : Int)).toInt = payload.length :=
      toShort_toInt (by omega) (by omega)
    show (if 2048 < (bigEndianShort _ _).toInt ∨ 2048 < (bigEndianShort _ _).toInt then _
      else _) = _
    rw [hid', show bigEndianShort
      ((networkBytes id ++ networkBytes (toShort payload.length)).getD 2 0)
      ((networkBytes id ++ networkBytes (toShort payload.length)).getD 3 0) =
        toShort payload.length from hlen', hn, if_neg (by omega), if_neg (by omega)]
    rfl

/-- Every accepted header is the one the encoder writes. -/
theorem encoder_canonical {h p : Bytes} {id : Short} (hlen : h.length = ref.headLen)
    (hd : ref.decode h = .accept id p.length) :
    encoder.head (id, p) = h ∧ encoder.dom (id, p) := by
  match h, hlen with
  | [a, b, c, d], _ =>
    have hd' : (if 2048 < (bigEndianShort a b).toInt ∨ 2048 < (bigEndianShort c d).toInt then
        Lib.Verdict.reject
      else if (bigEndianShort c d).toInt < 0 then .broken
      else .accept (bigEndianShort a b) (bigEndianShort c d).toInt.toNat) = .accept id p.length := hd
    by_cases hbad : 2048 < (bigEndianShort a b).toInt ∨ 2048 < (bigEndianShort c d).toInt
    · rw [if_pos hbad] at hd'
      cases hd'
    · rw [if_neg hbad] at hd'
      by_cases hneg : (bigEndianShort c d).toInt < 0
      · rw [if_pos hneg] at hd'
        cases hd'
      · rw [if_neg hneg] at hd'
        injection hd' with hid hp
        have hback : toShort (p.length : Int) = bigEndianShort c d := by
          rw [← hp, Int.toNat_of_nonneg (by omega)]
          exact Int16.ofInt_toInt _
        subst hid
        refine ⟨?_, ?_⟩
        · show networkBytes (bigEndianShort a b) ++ networkBytes (toShort p.length) = _
          rw [hback, networkBytes_bigEndianShort, networkBytes_bigEndianShort]
          rfl
        · show (bigEndianShort a b).toInt ≤ 2048 ∧ p.length ≤ 2048
          omega

/-- Everything the format emits is within the limits. -/
theorem parse_dom {b : Bytes} : ∀ m ∈ (ref.parse b).msgs, encoder.dom m := by
  intro m hm
  obtain ⟨h, hlen, hd⟩ := Lib.Format.parse_msgs_accept hm
  exact (encoder_canonical hlen hd).2

/-- The frames of a list of messages, as `Send` builds them. -/
def sendNodes (ms : List (Short × Bytes)) : Except Fault (List SendNode) :=
  ms.mapM fun m => SendNode.make m.2 (toShort m.2.length) m.1

def wire (nodes : List SendNode) : Bytes := nodes.flatMap SendNode.buffer

theorem sendNodes_wire {ms : List (Short × Bytes)} (h : ∀ m ∈ ms, encoder.dom m) :
    ∃ nodes, sendNodes ms = .ok nodes ∧ wire nodes = ms.flatMap encoder.encode := by
  induction ms with
  | nil => exact ⟨[], rfl, rfl⟩
  | cons m ms ih =>
    obtain ⟨nodes, hnodes, hwire⟩ := ih fun m' hm' => h m' (List.mem_cons_of_mem _ hm')
    obtain ⟨_, hlen⟩ := h m List.mem_cons_self
    have hn : (toShort (m.2.length : Int)).toInt = m.2.length :=
      toShort_toInt (by omega) (by omega)
    have h₀ : 0 ≤ (toShort (m.2.length : Int)).toInt := by omega
    obtain ⟨n, hmake, _, hbuf⟩ := SendNode.make_buffer m.2 m.1 h₀ (by omega) (by omega)
    rw [hn, Int.toNat_natCast, List.take_length] at hbuf
    refine ⟨n :: nodes, ?_, ?_⟩
    · unfold sendNodes at hnodes ⊢
      rw [List.mapM_cons, hmake, hnodes]
      rfl
    · rw [wire, List.flatMap_cons, hbuf, List.flatMap_cons, ← hwire]
      rfl

end ServerV3

/-! ## The pending bytes -/

variable {ι : Type} {R : Receiver ι} {F : Lib.Format UInt8 ι}

/-- What the session's own fields say has arrived and is not handed over. -/
def Session.pendingBytes (R : Receiver ι) (heap : Heap ι) (s : Session) : Bytes :=
  if s.bHeadParse then
    s.recvHeadNode.data.take R.headLen ++
      match s.recvMsgNode.bind (heap[·]?) with
      | some node => node.data.take (toSizeT node.curLen.toInt)
      | none => []
  else s.recvHeadNode.data.take (toSizeT s.recvHeadNode.curLen.toInt)

theorem Coupled.pendingBytes {heap : Heap ι} {s : Session} {pend : Bytes}
    (hR : R.Reads F) (h : Coupled R F heap s pend) : s.pendingBytes R heap = pend := by
  have h4 := hR.headLen_le
  unfold Session.pendingBytes
  cases h with
  | head flag short total holds =>
    rw [flag, if_neg Bool.false_ne_true, holds.1, toSizeT_natCast (by omega), holds.2]
  | @body p node hd body flag held short =>
    have hlimit := held.limit
    rw [flag, if_pos rfl, held.header, held.ptr]
    show hd ++ (match heap[p]? with | some node => _ | none => _) = hd ++ body
    rw [held.get]
    show hd ++ node.data.take (toSizeT node.curLen.toInt) = hd ++ body
    rw [held.holds.1, toSizeT_natCast (by omega), held.holds.2]

/-- With nothing pending the parser is where it started. -/
theorem Coupled.initial {heap : Heap ι} {s : Session} (hR : R.Reads F)
    (h : Coupled R F heap s []) : s.bHeadParse = false ∧ s.recvHeadNode.curLen.toInt = 0 := by
  generalize hpend : ([] : Bytes) = pend at h
  cases h with
  | head flag short total holds =>
    subst hpend
    exact ⟨flag, holds.1⟩
  | @body p node hd body flag held short =>
    have hlen := held.header_length
    have hpos := F.headLen_pos
    rw [hR.headLen, ← hlen, (List.append_eq_nil_iff.mp hpend.symm).1] at hpos
    exact absurd hpos (Nat.lt_irrefl 0)

/-- **`SendNode` and `HandleRead` are mutually inverse** over whole streams, under any
segmentation. -/
theorem sendNode_handleRead_inverse {R : Receiver Short}
    (hR : R = ServerV3.receiver ∨ R = ServerV3Mt.receiver) :
    (∀ ms : List (Short × Bytes), (∀ m ∈ ms, m.1.toInt ≤ 2048 ∧ m.2.length ≤ 2048) →
      ∃ nodes, ServerV3.sendNodes ms = .ok nodes ∧
        ∀ chunks, (∀ c ∈ chunks, ValidChunk c) → chunks.flatten = ServerV3.wire nodes →
          ∃ c, Connection.run R chunks = some c ∧ c.posted = ms.map some ∧
            c.session.bHeadParse = false ∧ c.session.recvHeadNode.curLen.toInt = 0) ∧
    ∀ chunks, (∀ c ∈ chunks, ValidChunk c) →
      (∃ r, (ServerV3.ref.parse chunks.flatten).tail = .pending r) →
      ∀ pre, pre <+: chunks → ∃ c ms nodes, Connection.run R pre = some c ∧
        c.posted = ms.map some ∧ ServerV3.sendNodes ms = .ok nodes ∧
        ServerV3.wire nodes ++ c.session.pendingBytes R c.heap = pre.flatten := by
  have hreads : R.Reads ServerV3.ref := by
    rcases hR with rfl | rfl
    · exact ServerV3.receiver_reads
    · exact ServerV3Mt.receiver_reads
  constructor
  · intro ms hms
    obtain ⟨nodes, hnodes, hwire⟩ := ServerV3.sendNodes_wire hms
    refine ⟨nodes, hnodes, ?_⟩
    intro chunks hchunks hflat
    have hparse : ServerV3.ref.parse chunks.flatten = ⟨ms, .pending []⟩ := by
      have h := Lib.Encoder.parse_encode (E := ServerV3.encoder) hms []
      rwa [List.append_nil, Lib.Format.parse_nil, List.append_nil, ← hwire, ← hflat] at h
    obtain ⟨c, hrun, hspec⟩ := Connection.run_spec hreads hchunks (by rw [hparse]; nofun)
    refine ⟨c, hrun, ?_⟩
    cases hspec with
    | rejected tail _ _ _ _ =>
      rw [hparse] at tail
      cases tail
    | waiting tail ledger _ _ _ _ coupled =>
      rw [hparse] at tail ledger
      cases tail
      exact ⟨ledger.read, coupled.initial hreads⟩
  · rintro chunks hchunks ⟨r, hr⟩ pre ⟨rest, rfl⟩
    rw [List.flatten_append] at hr
    -- what is pending at the end was pending all along
    obtain ⟨r', hr'⟩ : ∃ r', (ServerV3.ref.parse pre.flatten).tail = .pending r' := by
      by_contra hnone
      rw [Lib.Format.tail_append_of_ne_pending fun r' hr' => hnone ⟨r', hr'⟩] at hr
      exact hnone ⟨r, hr⟩
    obtain ⟨c, hrun, hspec⟩ := Connection.run_spec hreads
      (fun x hx => hchunks x (List.mem_append_left _ hx)) (by rw [hr']; nofun)
    obtain ⟨nodes, hnodes, hwire⟩ := ServerV3.sendNodes_wire
      (ServerV3.parse_dom (b := pre.flatten))
    cases hspec with
    | rejected tail _ _ _ _ =>
      rw [hr'] at tail
      cases tail
    | waiting tail ledger _ _ _ _ coupled =>
      rw [hr'] at tail
      cases tail
      refine ⟨c, _, nodes, hrun, ledger.read, hnodes, ?_⟩
      rw [coupled.pendingBytes hreads, hwire]
      exact Lib.Encoder.encode_parse (E := ServerV3.encoder)
        (fun h p t hlen hd => (ServerV3.encoder_canonical hlen hd).1) _ hr'

/-- Two frames, one of them empty, cut in the middle of everything. -/
theorem sendNode_handleRead_inverse_frames :
    ∃ nodes, ServerV3.sendNodes [(1001, [0x68, 0x69]), (7, [])] = .ok nodes ∧
      ∃ c, Connection.run ServerV3.receiver
        [[3], [0xe9, 0, 2, 0x68], [0x69, 0, 7, 0], [0]] = some c ∧
        c.posted = [some (1001, [0x68, 0x69]), some (7, [])] := by
  obtain ⟨nodes, hnodes, hpost⟩ := (sendNode_handleRead_inverse (Or.inl rfl)).1
    [(1001, [0x68, 0x69]), (7, [])] (by decide)
  have hwire : ServerV3.wire nodes = [3, 0xe9, 0, 2, 0x68, 0x69, 0, 7, 0, 0] := by
    have hok : (ServerV3.sendNodes [(1001, [0x68, 0x69]), (7, [])]).map ServerV3.wire =
        .ok [3, 0xe9, 0, 2, 0x68, 0x69, 0, 7, 0, 0] := by rfl
    rw [hnodes] at hok
    injection hok
  refine ⟨nodes, hnodes, ?_⟩
  obtain ⟨c, hrun, hposted, _⟩ := hpost [[3], [0xe9, 0, 2, 0x68], [0x69, 0, 7, 0], [0]]
    (by unfold ValidChunk; decide) (by rw [hwire]; rfl)
  exact ⟨c, hrun, hposted⟩

end AsyncEchoServer
