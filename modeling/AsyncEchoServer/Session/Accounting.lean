import AsyncEchoServer.Session.HostileRuns

/-!
# `Session/Accounting.lean` — the loop and the bytes of its chunk

`HandleRead` counts its chunk down in `bytes_transferred`, a `size_t`, and up in `copy_len`, an
`int`; the loop test looks at the first alone. A pass need not take a byte of payload, and the
amounts subtracted are `int`s, built from lengths a peer chooses and from a fill mark that wraps.

`subtrahends` are the amounts a pass subtracts, in order, and `loopBody_moves` says that they are
all that happens to the two counters, from any state. `NoWrap` is what the subtractions need. For
the payload it is what the code tests before it subtracts, since the test is in `size_t` as well;
for the header nothing is tested, and it rests on `_cur_len` being inside the header whenever
`_b_head_parse` is not set. That is part of `Tracks`, and every way out of a pass keeps it
(`loopBody_tracks`): after a rejection and after an exception too, where the mark is stale.
-/

set_option autoImplicit false

namespace AsyncEchoServer

variable {ι : Type} {R : Receiver ι} {G : Lib.Format UInt8 ι} {data : Bytes} {l : Loop ι}

/-! ## What a pass subtracts -/

/-- The payload copy subtracts what is missing, if the chunk has it. -/
def bodySubtrahends (need : Int) (bytesTransferred : Nat) : List Int :=
  if bytesTransferred < toSizeT need then [] else [need]

/-- Behind a complete header: nothing, when it is rejected or its node cannot be built. -/
def payloadSubtrahends (R : Receiver ι) (head : Bytes) (bytesTransferred : Nat) : List Int :=
  match R.decodeHead head with
  | none => []
  | some (_, msgLen) =>
    match MsgNode.new msgLen with
    | .error _ => []
    | .ok _ => bodySubtrahends msgLen.toInt bytesTransferred

/-- What a pass subtracts from `bytes_transferred`, in order: `head_remain` and `msg_len`, or
`remain_msg`. -/
def subtrahends (R : Receiver ι) (data : Bytes) (l : Loop ι) : List Int :=
  if l.session.bHeadParse then
    match l.session.recvMsgNode.bind (l.heap[·]?) with
    | none => []
    | some node => bodySubtrahends (node.totalLen.toInt - node.curLen.toInt) l.bytesTransferred
  else
    let head := l.session.recvHeadNode
    if toSizeT (l.bytesTransferred + head.curLen.toInt) < R.headLen then []
    else
      let headRemain : Int := R.headLen - head.curLen.toInt
      headRemain :: payloadSubtrahends R (headNodeAfter R data l).data
        (toSizeT (l.bytesTransferred - headRemain))

/-- From `l`, a pass has moved `bytes_transferred` down and `copy_len` on by `ss`. -/
structure Moves (l : Loop ι) (ss : List Int) (t : Turn ι) : Prop where
  bytes : (Turn.after t).bytesTransferred =
    ss.foldl (fun n s => toSizeT (n - s)) l.bytesTransferred
  copyLen : (Turn.after t).copyLen = ss.foldl (fun n s => n + s) l.copyLen

theorem takeBody_moves (data : Bytes) (p : Nat) (node : ReciveNode ι) (need : Int) (l : Loop ι) :
    Moves l (bodySubtrahends need l.bytesTransferred) (takeBody data p node need l) := by
  unfold takeBody bodySubtrahends
  by_cases hlt : l.bytesTransferred < toSizeT need
  · rw [if_pos hlt, if_pos hlt]
    exact ⟨rfl, rfl⟩
  · rw [if_neg hlt, if_neg hlt]
    unfold finishMsg
    dsimp only
    split <;> exact ⟨rfl, rfl⟩

/-- **The two counters.** In any state, what a pass does to them is what it subtracts. -/
theorem loopBody_moves (R : Receiver ι) (data : Bytes) (l : Loop ι) :
    Moves l (subtrahends R data l) (loopBody R data l) := by
  have hcases := loopBody_cases R data l
  unfold subtrahends
  generalize loopBody R data l = turn at hcases ⊢
  cases hcases with
  | lost flag hnone =>
    rw [if_pos flag, hnone]
    exact ⟨rfl, rfl⟩
  | @rest p node flag ptr get =>
    rw [if_pos flag, ptr, Option.bind_some, get]
    exact takeBody_moves data p node _ l
  | short flag few =>
    rw [if_neg (Bool.eq_false_iff.mp flag)]
    dsimp only
    rw [if_pos few]
    exact ⟨rfl, rfl⟩
  | rejected head dec =>
    rw [if_neg (Bool.eq_false_iff.mp head.1)]
    dsimp only
    rw [if_neg (Nat.not_lt.mpr head.2), payloadSubtrahends, dec]
    exact ⟨rfl, rfl⟩
  | threw head dec neg =>
    rw [if_neg (Bool.eq_false_iff.mp head.1)]
    dsimp only
    rw [if_neg (Nat.not_lt.mpr head.2), payloadSubtrahends, dec]
    dsimp only
    rw [MsgNode.new, if_pos neg]
    exact ⟨rfl, rfl⟩
  | @fresh msgId msgLen head dec nonneg =>
    rw [if_neg (Bool.eq_false_iff.mp head.1)]
    dsimp only
    rw [if_neg (Nat.not_lt.mpr head.2), payloadSubtrahends, dec]
    dsimp only
    rw [MsgNode.new, if_neg nonneg]
    have hbody := takeBody_moves data l.heap.length (freshNode msgId msgLen) msgLen.toInt
      (nodeLoop R data l msgId msgLen)
    exact ⟨hbody.bytes, hbody.copyLen⟩

/-! ## No subtraction wraps -/

/-- Subtracted one after the other from `n`, none of `ss`, as a `size_t`, is more than is left. -/
def NoWrap : Nat → List Int → Prop
  | _, [] => True
  | n, s :: ss => toSizeT s ≤ n ∧ NoWrap (toSizeT (n - s)) ss

/-- The code compares before it subtracts, in the same type. -/
theorem bodySubtrahends_noWrap (need : Int) (n : Nat) : NoWrap n (bodySubtrahends need n) := by
  unfold bodySubtrahends
  split
  · trivial
  · rename_i hle
    exact ⟨Nat.not_lt.mp hle, trivial⟩

theorem payloadSubtrahends_noWrap (R : Receiver ι) (head : Bytes) (n : Nat) :
    NoWrap n (payloadSubtrahends R head n) := by
  unfold payloadSubtrahends
  split
  · trivial
  · split
    · trivial
    · exact bodySubtrahends_noWrap _ _

/-- **The header's subtraction** is not tested for; the mark is inside the header. -/
theorem subtrahends_noWrap
    (hmark : l.session.bHeadParse = false → 0 ≤ l.session.recvHeadNode.curLen.toInt ∧
      l.session.recvHeadNode.curLen.toInt ≤ R.headLen)
    (hbytes : l.bytesTransferred ≤ 2048) : NoWrap l.bytesTransferred (subtrahends R data l) := by
  unfold subtrahends
  by_cases hflag : l.session.bHeadParse = true
  · rw [if_pos hflag]
    split
    · trivial
    · exact bodySubtrahends_noWrap _ _
  · rw [if_neg hflag]
    obtain ⟨hlo, hhi⟩ := hmark (Bool.eq_false_iff.mpr hflag)
    have hcur := short_lt l.session.recvHeadNode.curLen
    dsimp only
    split
    · trivial
    · rename_i hlong
      rw [toSizeT_of_nonneg (by omega) (by omega)] at hlong
      refine ⟨?_, payloadSubtrahends_noWrap _ _ _⟩
      rw [toSizeT_of_nonneg (by omega) (by omega)]
      omega

/-! ## Every way out of a pass -/

/-- A pass that is out of the loop at the payload has armed a read. -/
theorem takeBody_leave {p : Nat} {node : ReciveNode ι} {need : Int} {out : Loop ι × Exit}
    (h : (takeBody data p node need l).2 = .leave out) :
    armed (takeBody data p node need l).1 = 1 := by
  unfold takeBody at h ⊢
  split
  · rfl
  · rename_i hlt
    rw [if_neg hlt] at h
    unfold finishMsg at h ⊢
    dsimp only at h ⊢
    split
    · rfl
    · rename_i hz
      rw [if_neg hz] at h
      cases h

/-- A pass that leaves the loop and arms nothing — it rejects the header, throws, or misses its
message node — has changed the content of the header node at most. -/
theorem loopBody_stops {out : Loop ι × Exit} (h : (loopBody R data l).2 = .leave out)
    (harm : armed (loopBody R data l).1 = 0) :
    out.1.heap = l.heap ∧ (out.1.session = l.session ∨
      (l.session.bHeadParse = false ∧
        out.1.session = { l.session with recvHeadNode := headNodeAfter R data l })) := by
  have hcases := loopBody_cases R data l
  generalize loopBody R data l = turn at hcases h harm
  cases hcases with
  | lost flag hnone =>
    cases h
    exact ⟨rfl, Or.inl rfl⟩
  | rest flag ptr get =>
    rw [takeBody_leave h] at harm
    cases harm
  | short => cases harm
  | rejected head dec =>
    cases h
    exact ⟨rfl, Or.inr ⟨head.1, rfl⟩⟩
  | threw head dec neg =>
    cases h
    exact ⟨rfl, Or.inr ⟨head.1, rfl⟩⟩
  | fresh head dec nonneg =>
    unfold nodeTurn at h harm
    rw [armed_append, takeBody_leave h] at harm
    cases harm

/-- What a stopped session tracks is what it tracked: the bytes copied into the header node are
behind the mark. -/
theorem Tracks.stopped {heap : Heap ι} {s : Session} {pend : Bytes} (h : Tracks R G heap s pend)
    (hflag : s.bHeadParse = false) (src : Bytes) :
    Tracks R G heap
      { s with recvHeadNode := s.recvHeadNode.write s.recvHeadNode.curLen.toInt src } pend := by
  cases h with
  | head flag short total holds =>
    exact .head flag short total (holds.write_behind src (Int.le_of_eq holds.1.symm))
  | body flag _ _ =>
    rw [hflag] at flag
    cases flag

/-- **A session keeps track of its stream**, whatever a pass does. -/
theorem loopBody_tracks (hR : R.Takes G) {n : Nat} {pend r : Bytes}
    (ht : Tracks R G l.heap l.session pend) (hacc : Accounts data n l r) :
    ∃ pend', Tracks R G (Turn.after (loopBody R data l)).heap
      (Turn.after (loopBody R data l)).session pend' := by
  have hspec := loopBody_takes hR ht hacc
  have hkept : ∀ {es : List Effect} {l' : Loop ι} {x : Exit},
      loopBody R data l = (es, .leave (l', x)) → armed es = 0 →
        ∃ pend', Tracks R G l'.heap l'.session pend' := by
    intro es l' x hturn harm
    have hleave : (loopBody R data l).2 = .leave (l', x) := by rw [hturn]
    obtain ⟨hheap, hsame⟩ := loopBody_stops hleave (by rw [hturn]; exact harm)
    refine ⟨pend, ?_⟩
    rw [show l'.heap = l.heap from hheap]
    rcases hsame with hsame | ⟨hflag, hsame⟩
    · rw [show l'.session = l.session from hsame]
      exact ht
    · rw [show l'.session = _ from hsame]
      exact ht.stopped hflag _
  generalize loopBody R data l = turn at hspec hkept ⊢
  cases hspec with
  | wait _ _ _ _ _ tracks => exact ⟨_, tracks⟩
  | reject _ _ arm _ _ => exact hkept rfl arm
  | threw _ _ arm _ _ => exact hkept rfl arm
  | last _ _ _ _ _ _ tracks => exact ⟨[], tracks⟩
  | more _ _ _ _ _ _ _ tracks _ => exact ⟨[], tracks⟩

/-! ## The head of the loop -/

/-- The loop variables of a callback on `chunk`. -/
def Loop.enter (heap : Heap ι) (s : Session) (chunk : Bytes) : Loop ι where
  heap := heap
  session := s
  copyLen := 0
  bytesTransferred := chunk.length

/-- In a callback on `chunk`, the loop is at its head with `l`, `k` passes behind it. -/
def LoopHead (R : Receiver ι) (heap : Heap ι) (s : Session) (chunk : Bytes) (k : Nat)
    (l : Loop ι) : Prop :=
  Lib.Visits (fun l => decide (0 < l.bytesTransferred)) (loopBody R (readBuffer chunk))
    (.enter heap s chunk) k l

/-- The loop is at its head, with something left of a chunk of `n` bytes. -/
def HeadTracks (R : Receiver ι) (G : Lib.Format UInt8 ι) (data : Bytes) (n : Nat) (l : Loop ι) :
    Prop :=
  ∃ pend r, Tracks R G l.heap l.session pend ∧ Accounts data n l r ∧ r ≠ []

/-- At the head of the loop the two counters make up the chunk, the next pass moves them by its
subtrahends, and none of its subtractions wraps. -/
structure CountsChunk (R : Receiver ι) (data : Bytes) (n : Nat) (l : Loop ι) : Prop where
  sum : l.copyLen + l.bytesTransferred = n
  moves : Moves l (subtrahends R data l) (loopBody R data l)
  noWrap : NoWrap l.bytesTransferred (subtrahends R data l)

theorem HeadTracks.enter {heap : Heap ι} {s : Session} {pend chunk : Bytes}
    (ht : Tracks R G heap s pend) (hchunk : ValidChunk chunk) :
    HeadTracks R G (readBuffer chunk) chunk.length (.enter heap s chunk) :=
  ⟨pend, chunk, ht, ⟨readBuffer_remains hchunk.2, Int.zero_add _⟩, hchunk.1⟩

theorem Tracks.mark {heap : Heap ι} {s : Session} {pend : Bytes} (h : Tracks R G heap s pend)
    (hflag : s.bHeadParse = false) :
    0 ≤ s.recvHeadNode.curLen.toInt ∧ s.recvHeadNode.curLen.toInt ≤ R.headLen := by
  cases h with
  | head _ short _ holds =>
    rw [holds.1]
    omega
  | body flag _ _ =>
    rw [hflag] at flag
    cases flag

theorem HeadTracks.countsChunk {n : Nat} (h : HeadTracks R G data n l) : CountsChunk R data n l := by
  obtain ⟨pend, r, ht, hacc, _⟩ := h
  have hbytes := hacc.bytes
  have hbound := hacc.bound
  refine ⟨?_, loopBody_moves R data l, subtrahends_noWrap ht.mark (by omega)⟩
  rw [hbytes]
  exact hacc.sum

theorem HeadTracks.again (hR : R.Takes G) {n : Nat} (h : HeadTracks R G data n l) {es : List Effect}
    {l' : Loop ι} (hb : loopBody R data l = (es, .again l')) :
    HeadTracks R G data n l' ∧ l'.bytesTransferred < l.bytesTransferred := by
  obtain ⟨pend, r, ht, hacc, _⟩ := h
  have hspec := loopBody_takes hR ht hacc
  rw [hb] at hspec
  cases hspec with
  | more next ne _ _ _ _ _ tracks acc =>
    refine ⟨⟨[], _, tracks, acc, ne⟩, ?_⟩
    -- a frame ends behind the bytes that were pending
    rw [acc.bytes, hacc.bytes]
    exact Lib.Format.next_frame_rest_lt (ht.incomplete hR) next

/-! ## Callbacks and runs -/

theorem LoopHead.tracks (hR : R.Takes G) {heap : Heap ι} {s : Session} {pend chunk : Bytes}
    (ht : Tracks R G heap s pend) (hchunk : ValidChunk chunk) {k : Nat}
    (h : LoopHead R heap s chunk k l) : HeadTracks R G (readBuffer chunk) chunk.length l :=
  h.invariant (fun _ _ _ hl _ hb => (HeadTracks.again hR hl hb).1) (.enter ht hchunk)

/-- **Every head of the loop** in a callback, for a session that keeps track. -/
theorem LoopHead.counts (hR : R.Takes G) {heap : Heap ι} {s : Session} {pend chunk : Bytes}
    (ht : Tracks R G heap s pend) (hchunk : ValidChunk chunk) {k : Nat}
    (h : LoopHead R heap s chunk k l) :
    k < chunk.length ∧ CountsChunk R (readBuffer chunk) chunk.length l := by
  have henter : HeadTracks R G (readBuffer chunk) chunk.length (.enter heap s chunk) :=
    .enter ht hchunk
  have hpaid : k + l.bytesTransferred ≤ chunk.length :=
    h.measure_le (fun l => l.bytesTransferred) (fun _ _ _ hl _ hb => hl.again hR hb) henter
  have hhead := h.tracks hR ht hchunk
  refine ⟨?_, hhead.countsChunk⟩
  obtain ⟨_, r, _, hacc, hne⟩ := hhead
  have hbytes := hacc.bytes
  have hpos := List.length_pos_iff.mpr hne
  omega

theorem ReadTakes.reads {n : Nat} {log es : List Effect} {msgs : List (ι × Bytes)} {b : Bytes}
    {out : Loop ι × Exit} (h : ReadTakes R G n log msgs b es out) : ∀ e ∈ es, e.ReadsChunk n := by
  cases h with
  | waiting _ _ _ _ src _ | rejected _ _ _ _ src | threw _ _ _ _ src => exact src

/-- The payload a session is in has a node. -/
theorem ReadTakes.defined {n : Nat} {log es : List Effect} {msgs : List (ι × Bytes)} {b : Bytes}
    {out : Loop ι × Exit} (h : ReadTakes R G n log msgs b es out) : out.2 ≠ .undefined := by
  cases h with
  | waiting | rejected | threw => exact nofun

/-- **One callback, on any bytes**, and what the session tracks then. -/
theorem handleRead_tracks (hR : R.Takes G) {heap : Heap ι} {s : Session} {pend chunk : Bytes}
    (ht : Tracks R G heap s pend) (hchunk : ValidChunk chunk) :
    ∃ es out, handleRead R heap s (.ok chunk) = some (es, out) ∧ out.2 ≠ .undefined ∧
      (∀ e ∈ es, e.ReadsChunk chunk.length) ∧
      ∃ pend', Tracks R G out.1.heap out.1.session pend' := by
  obtain ⟨es, out, hrun, hspec⟩ := handleRead_takes hR ht Posts.nil hchunk.1 hchunk.2
  refine ⟨es, out, hrun, hspec.defined, hspec.reads, ?_⟩
  -- the callback ends with a pass from one of its heads
  obtain ⟨k, l, hhead, hexit⟩ : ∃ k l, LoopHead R heap s chunk k l ∧
      ((decide (0 < l.bytesTransferred) = true ∧
        ∃ e, loopBody R (readBuffer chunk) l = (e, .leave out)) ∨
        (decide (0 < l.bytesTransferred) = false ∧ out = (l, .returned))) :=
    Lib.Visits.exit .entry hrun
  obtain ⟨pend', r, ht', hacc, hne⟩ := hhead.tracks hR ht hchunk
  rcases hexit with ⟨_, e, hb⟩ | ⟨hz, _⟩
  · have htracks := loopBody_tracks hR ht' hacc
    rw [hb] at htracks
    exact htracks
  · have hbytes := hacc.bytes
    have hpos := List.length_pos_iff.mpr hne
    have hnone := of_decide_eq_false hz
    omega

/-- **Any number of chunks, of any bytes**, and wherever they have left the session. -/
theorem Connection.run_tracks (hR : R.Takes G) {chunks : List Bytes}
    (hchunks : ∀ c ∈ chunks, ValidChunk c) :
    ∃ c, Connection.run R chunks = some c ∧ ∃ pend, Tracks R G c.heap c.session pend := by
  induction chunks using List.reverseRecOn with
  | nil => exact ⟨_, rfl, [], Session.fresh_tracks hR []⟩
  | append_singleton cs chunk ih =>
    obtain ⟨c, hrun, pend, ht⟩ := ih fun x hx => hchunks x (List.mem_append_left _ hx)
    rw [Connection.run_snoc, hrun, Option.bind_some]
    by_cases hreads : c.reads = 0
    · exact ⟨c, by rw [Connection.receive, if_pos hreads], pend, ht⟩
    · obtain ⟨es, out, hcall, _, _, pend', ht'⟩ :=
        handleRead_tracks hR ht (hchunks chunk (by simp))
      exact ⟨c.after es out.1, by rw [Connection.receive, if_neg hreads, hcall]; rfl, pend', ht'⟩

/-- **The loop ends and accounts for its chunk**, on every stream. Whatever chunks a session has
received, and whatever became of it, a callback on `n` bytes comes back; it reads no byte of
`_data` behind them; it takes at most `n` passes, and at the head of each `copy_len` and
`bytes_transferred` make up `n` and none of the subtractions ahead wraps. -/
theorem ServerV3.handleRead_counts {chunks : List Bytes} (hchunks : ∀ b ∈ chunks, ValidChunk b) :
    ∃ c, Connection.run receiver chunks = some c ∧ ∀ chunk, ValidChunk chunk →
      (∃ es l x, AsyncEchoServer.handleRead receiver c.heap c.session (.ok chunk) =
          some (es, (l, x)) ∧ x ≠ .undefined ∧ ∀ e ∈ es, e.ReadsChunk chunk.length) ∧
      ∀ k l, LoopHead receiver c.heap c.session chunk k l →
        k < chunk.length ∧ CountsChunk receiver (readBuffer chunk) chunk.length l := by
  obtain ⟨c, hrun, pend, ht⟩ := Connection.run_tracks receiver_takes hchunks
  refine ⟨c, hrun, fun chunk hchunk => ⟨?_, fun k l h => h.counts receiver_takes ht hchunk⟩⟩
  obtain ⟨es, ⟨l, x⟩, hcall, hdef, hreads, _⟩ := handleRead_tracks receiver_takes ht hchunk
  exact ⟨es, l, x, hcall, hdef, hreads⟩

/-- The rest of a header with an empty payload, then length −1 and two bytes: the first pass takes
one byte, and no payload, and the loop is at its head again with six left. -/
theorem ServerV3.handleRead_counts_empty :
    ∃ c l, Connection.run receiver [[3, 0xe9, 0]] = some c ∧
      LoopHead receiver c.heap c.session [0, 0, 0, 0xff, 0xff, 1, 2] 1 l ∧
      l.bytesTransferred = 6 ∧ CountsChunk receiver (readBuffer [0, 0, 0, 0xff, 0xff, 1, 2]) 7 l := by
  have hvalid : ∀ b ∈ ([[3, 0xe9, 0]] : List Bytes), ValidChunk b := by
    unfold ValidChunk
    decide
  have hchunk : ValidChunk [0, 0, 0, 0xff, 0xff, 1, 2] := by
    unfold ValidChunk
    decide
  obtain ⟨c, hrun, hcalls⟩ := handleRead_counts hvalid
  obtain ⟨l, hhead, hleft⟩ : ∃ l,
      LoopHead receiver c.heap c.session [0, 0, 0, 0xff, 0xff, 1, 2] 1 l ∧
        l.bytesTransferred = 6 := by
    cases hrun
    exact ⟨_, .again .entry rfl rfl, rfl⟩
  exact ⟨c, l, hrun, hhead, hleft, ((hcalls _ hchunk).2 1 l hhead).2⟩

end AsyncEchoServer
