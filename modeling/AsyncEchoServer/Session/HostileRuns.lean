import Mathlib.Data.List.Forall2
import AsyncEchoServer.Session.Hostile

/-!
# `Session/HostileRuns.lean` — callbacks and connections on any bytes

The pass of `Session/Hostile.lean` lifted to the callback and to the connection, the way
`Callback.lean` and `Connection.lean` lift theirs, without a promise about the stream. A callback
always comes back. It leaves the session listening, or cleared, or — when the constructor of the
message node throws — neither (`ReadTakes.threw`): the `catch` around the loop swallows the
exception and arms nothing.
-/

set_option autoImplicit false

namespace AsyncEchoServer

variable {ι : Type} {R : Receiver ι} {G : Lib.Format UInt8 ι}

/-! ## What has been handed over -/

/-- The nodes handed over in a log, in order, are those of `msgs`, and hold them unless their
buffers were overrun. -/
structure Posts (heap : Heap ι) (s : Session) (log : List Effect) (msgs : List (ι × Bytes)) :
    Prop where
  read : List.Forall₂ (fun p m => m.2.length ≤ 2048 → messageAt heap p = some m) (delivered log)
    msgs
  settled : ∀ p ∈ delivered log, ¬ Writable heap s p

theorem Posts.nil {heap : Heap ι} {s : Session} : Posts heap s [] [] :=
  ⟨.nil, fun _ hp => absurd hp List.not_mem_nil⟩

theorem Posts.extend {heap heap' : Heap ι} {s s' : Session} {log es : List Effect}
    {msgs new : List (ι × Bytes)} (h : Posts heap s log msgs) (hf : Frame heap s es heap' s')
    (hnew : List.Forall₂ (fun p m => m.2.length ≤ 2048 → messageAt heap' p = some m)
      (delivered es) new) : Posts heap' s' (log ++ es) (msgs ++ new) where
  read := by
    have hkept : List.Forall₂ (fun p m => m.2.length ≤ 2048 → messageAt heap' p = some m)
        (delivered log) msgs := by
      refine (List.forall₂_and_left (p := fun p => ¬ Writable heap s p) _ _).mpr
        ⟨h.settled, h.read⟩ |>.imp ?_
      rintro p m ⟨hout, hread⟩ hlen
      rw [messageAt, hf.kept p hout]
      exact hread hlen
    rw [delivered_append]
    exact List.rel_append hkept hnew
  settled := by
    intro p hp
    rw [delivered_append] at hp
    rcases List.mem_append.mp hp with hp | hp
    · exact fun hw => h.settled p hp (hf.shrinks p hw)
    · exact (hf.handed p hp).2

theorem Posts.length_eq {heap : Heap ι} {s : Session} {log : List Effect}
    {msgs : List (ι × Bytes)} (h : Posts heap s log msgs) : (delivered log).length = msgs.length :=
  h.read.length_eq

/-- Posts that are all of legal length read back. -/
theorem Posts.map_messageAt {heap : Heap ι} {s : Session} {log : List Effect}
    {msgs : List (ι × Bytes)} (h : Posts heap s log msgs) (hsmall : ∀ m ∈ msgs, m.2.length ≤ 2048) :
    (delivered log).map (messageAt heap) = msgs.map some := by
  have hread := h.read
  clear h
  generalize delivered log = ps at hread
  induction hread with
  | nil => rfl
  | @cons p m ps ms hp _ ih =>
    rw [List.map_cons, List.map_cons, hp (hsmall m List.mem_cons_self),
      ih fun m hm => hsmall m (List.mem_cons_of_mem _ hm)]

/-! ## One callback -/

/-- What a callback does about `b` on a chunk of `n` bytes. -/
inductive ReadTakes (R : Receiver ι) (G : Lib.Format UInt8 ι) (n : Nat) (log : List Effect)
    (msgs : List (ι × Bytes)) (b : Bytes) (es : List Effect) : Loop ι × Exit → Prop where
  | waiting {l : Loop ι} {r : Bytes} (tail : (G.parse b).tail = .pending r)
      (posts : Posts l.heap l.session (log ++ es) (msgs ++ (G.parse b).msgs)) (arm : armed es = 1)
      (clr : cleared es = 0) (src : ∀ e ∈ es, e.ReadsChunk n)
      (tracks : Tracks R G l.heap l.session r) : ReadTakes R G n log msgs b es (l, .returned)
  | rejected {l : Loop ι} (tail : (G.parse b).tail = .rejected)
      (posts : Posts l.heap l.session (log ++ es) (msgs ++ (G.parse b).msgs)) (arm : armed es = 0)
      (clr : cleared es = 1) (src : ∀ e ∈ es, e.ReadsChunk n) :
      ReadTakes R G n log msgs b es (l, .returned)
  | threw {l : Loop ι} (tail : (G.parse b).tail = .broken)
      (posts : Posts l.heap l.session (log ++ es) (msgs ++ (G.parse b).msgs)) (arm : armed es = 0)
      (clr : cleared es = 0) (src : ∀ e ∈ es, e.ReadsChunk n) :
      ReadTakes R G n log msgs b es (l, .threw)

/-- The loop is at its head, `es` behind it and `r` of the chunk before it. -/
structure AtHeadTakes (R : Receiver ι) (G : Lib.Format UInt8 ι) (n : Nat) (log : List Effect)
    (msgs : List (ι × Bytes)) (b data : Bytes) (l : Loop ι) (es : List Effect)
    (done : List (ι × Bytes)) (pend r : Bytes) : Prop where
  parse : G.parse b = ⟨done ++ (G.parse (pend ++ r)).msgs, (G.parse (pend ++ r)).tail⟩
  tracks : Tracks R G l.heap l.session pend
  acc : Accounts data n l r
  more : r ≠ []
  posts : Posts l.heap l.session (log ++ es) (msgs ++ done)
  arm : armed es = 0
  clr : cleared es = 0
  src : ∀ e ∈ es, e.ReadsChunk n

variable {n : Nat} {log : List Effect} {msgs done : List (ι × Bytes)} {b data pend r : Bytes}
  {l : Loop ι} {es : List Effect}

theorem AtHeadTakes.src_append (h : AtHeadTakes R G n log msgs b data l es done pend r)
    {es' : List Effect} (hsrc : ∀ e ∈ es', e.ReadsChunk n) : ∀ e ∈ es ++ es', e.ReadsChunk n := by
  intro e he
  rcases List.mem_append.mp he with he | he
  · exact h.src e he
  · exact hsrc e he

theorem AtHeadTakes.book (h : AtHeadTakes R G n log msgs b data l es done pend r)
    {es' : List Effect} {l' : Loop ι} {new : List (ι × Bytes)}
    (hf : Frame l.heap l.session es' l'.heap l'.session)
    (hnew : List.Forall₂ (fun p m => m.2.length ≤ 2048 → messageAt l'.heap p = some m)
      (delivered es') new) :
    Posts l'.heap l'.session (log ++ (es ++ es')) (msgs ++ (done ++ new)) := by
  rw [← List.append_assoc, ← List.append_assoc]
  exact h.posts.extend hf hnew

/-- A pass that leaves the loop settles the callback. -/
theorem AtHeadTakes.leave (hR : R.Takes G) (h : AtHeadTakes R G n log msgs b data l es done pend r)
    {es' : List Effect} {out : Loop ι × Exit} (hb : loopBody R data l = (es', .leave out)) :
    ReadTakes R G n log msgs b (es ++ es') out := by
  have hspec := loopBody_takes hR h.tracks h.acc
  have hframe := loopBody_frame R data l
  have hparse := h.parse
  rw [hb] at hspec hframe
  cases hspec with
  | wait next del arm clr src tracks =>
    rw [Lib.Format.parse_incomplete next] at hparse
    refine .waiting (r := pend ++ r) (by rw [hparse]) ?_ (by rw [armed_append, h.arm, arm])
      (by rw [cleared_append, h.clr, clr]) (h.src_append src) tracks
    rw [hparse]
    exact h.book hframe (by rw [del]; exact .nil)
  | reject next del arm clr src =>
    rw [Lib.Format.parse_rejected next] at hparse
    refine .rejected (by rw [hparse]) ?_ (by rw [armed_append, h.arm, arm])
      (by rw [cleared_append, h.clr, clr]) (h.src_append src)
    rw [hparse]
    exact h.book hframe (by rw [del]; exact .nil)
  | threw next del arm clr src =>
    rw [Lib.Format.parse_broken next] at hparse
    refine .threw (by rw [hparse]) ?_ (by rw [armed_append, h.arm, arm])
      (by rw [cleared_append, h.clr, clr]) (h.src_append src)
    rw [hparse]
    exact h.book hframe (by rw [del]; exact .nil)
  | last next del msg arm clr src tracks =>
    rw [Lib.Format.parse_frame next, Lib.Format.parse_nil] at hparse
    refine .waiting (r := []) (by rw [hparse]) ?_ (by rw [armed_append, h.arm, arm])
      (by rw [cleared_append, h.clr, clr]) (h.src_append src) tracks
    rw [hparse]
    exact h.book hframe (by rw [del]; exact .cons msg .nil)

theorem AtHeadTakes.again (hR : R.Takes G) (h : AtHeadTakes R G n log msgs b data l es done pend r)
    {es' : List Effect} {l' : Loop ι} (hb : loopBody R data l = (es', .again l')) :
    (∃ done' r', AtHeadTakes R G n log msgs b data l' (es ++ es') done' [] r') ∧
      l'.bytesTransferred < l.bytesTransferred := by
  have hspec := loopBody_takes hR h.tracks h.acc
  have hframe := loopBody_frame R data l
  rw [hb] at hspec hframe
  cases hspec with
  | @more _ _ p tag payload rest next ne del msg arm clr src tracks acc =>
    refine ⟨⟨done ++ [(tag, payload)], rest, ?_, tracks, acc, ne, ?_,
      by rw [armed_append, h.arm, arm], by rw [cleared_append, h.clr, clr], h.src_append src⟩, ?_⟩
    · rw [h.parse, Lib.Format.parse_frame next, List.nil_append, List.append_assoc]
      rfl
    · exact h.book hframe (by rw [del]; exact .cons msg .nil)
    · rw [acc.bytes, h.acc.bytes]
      exact Lib.Format.next_frame_rest_lt (h.tracks.incomplete hR) next

/-- **One callback, on any bytes.** It comes back. -/
theorem handleRead_takes (hR : R.Takes G) {heap : Heap ι} {s : Session} {chunk : Bytes}
    (ht : Tracks R G heap s pend) (hp : Posts heap s log msgs) (hne : chunk ≠ [])
    (hlen : chunk.length ≤ maxLength) :
    ∃ es out, handleRead R heap s (.ok chunk) = some (es, out) ∧
      ReadTakes R G chunk.length log msgs (pend ++ chunk) es out := by
  have hstart : AtHeadTakes R G chunk.length log msgs (pend ++ chunk) (readBuffer chunk)
      { heap := heap, session := s, copyLen := 0, bytesTransferred := chunk.length } [] [] pend
      chunk :=
    ⟨rfl, ht, ⟨readBuffer_remains hlen, Int.zero_add _⟩, hne, by simpa using hp, rfl, rfl,
      fun _ he => absurd he List.not_mem_nil⟩
  have hpasses : chunk.length < passBound chunk.length := by
    unfold passBound
    omega
  show ∃ es out, handleReadLoop R (readBuffer chunk)
    { heap := heap, session := s, copyLen := 0, bytesTransferred := chunk.length } =
      some (es, out) ∧ ReadTakes R G chunk.length log msgs (pend ++ chunk) es out
  unfold handleReadLoop
  refine Lib.whileLog_spec
    (I := fun l es => ∃ done pend' r, AtHeadTakes R G chunk.length log msgs (pend ++ chunk)
      (readBuffer chunk) l es done pend' r)
    (Q := fun out es => ReadTakes R G chunk.length log msgs (pend ++ chunk) es out)
    (fun l => l.bytesTransferred) ?again ?leave ?done _ _ [] hpasses ⟨[], pend, chunk, hstart⟩
  case again =>
    rintro l es e l' ⟨done, pend', r, h⟩ _ hb
    obtain ⟨⟨done', r', h'⟩, hlt⟩ := h.again hR hb
    exact ⟨⟨done', [], r', h'⟩, hlt⟩
  case leave =>
    rintro l es e out ⟨done, pend', r, h⟩ _ hb
    exact h.leave hR hb
  case done =>
    rintro l es ⟨done, pend', r, h⟩ hg
    refine absurd ?_ h.more
    rw [← List.length_eq_zero_iff, ← h.acc.bytes]
    have hz := of_decide_eq_false hg
    omega

/-! ## A connection -/

/-- What a connection that has received `b` looks like. -/
inductive ConnTakes (R : Receiver ι) (G : Lib.Format UInt8 ι) (b : Bytes) (c : Connection ι) :
    Prop where
  | waiting {r : Bytes} (tail : (G.parse b).tail = .pending r)
      (posts : Posts c.heap c.session c.log (G.parse b).msgs) (reads : c.reads = 1)
      (clr : c.clears = 0) (tracks : Tracks R G c.heap c.session r)
  | rejected (tail : (G.parse b).tail = .rejected)
      (posts : Posts c.heap c.session c.log (G.parse b).msgs) (reads : c.reads = 0)
      (clr : c.clears = 1)
  | threw (tail : (G.parse b).tail = .broken)
      (posts : Posts c.heap c.session c.log (G.parse b).msgs) (reads : c.reads = 0)
      (clr : c.clears = 0)

theorem Session.fresh_tracks (hR : R.Takes G) (heap : Heap ι) :
    Tracks R G heap (Session.fresh R) [] := by
  have h4 := hR.headLen_le
  have hpos := G.headLen_pos
  rw [hR.headLen] at hpos
  exact .head rfl hpos (toShort_toInt (by omega) (by omega)) (MsgNode.zeroed_holds _)

theorem Connection.start_takes (hR : R.Takes G) : ConnTakes R G [] (Connection.start R) :=
  .waiting (r := []) (by rw [Lib.Format.parse_nil]) (by rw [Lib.Format.parse_nil]; exact .nil) rfl
    rfl (Session.fresh_tracks hR [])

theorem ConnTakes.posts {b : Bytes} {c : Connection ι} (h : ConnTakes R G b c) :
    Posts c.heap c.session c.log (G.parse b).msgs := by
  cases h with
  | waiting _ posts _ _ _ | rejected _ posts _ _ | threw _ posts _ _ => exact posts

/-- Somebody is listening only while the stream is neither rejected nor broken. -/
theorem ConnTakes.pending {b : Bytes} {c : Connection ι} (h : ConnTakes R G b c)
    (hreads : c.reads ≠ 0) : ∃ r, (G.parse b).tail = .pending r ∧ c.reads = 1 ∧ c.clears = 0 ∧
      Tracks R G c.heap c.session r := by
  cases h with
  | waiting tail _ reads clr tracks => exact ⟨_, tail, reads, clr, tracks⟩
  | rejected _ _ reads _ | threw _ _ reads _ => exact absurd reads hreads

/-- **One more callback.** -/
theorem ConnTakes.callback (hR : R.Takes G) {b chunk : Bytes} {c : Connection ι}
    (h : ConnTakes R G b c) (hlisten : c.reads ≠ 0) (hchunk : ValidChunk chunk) :
    ∃ es l x, handleRead R c.heap c.session (.ok chunk) = some (es, (l, x)) ∧
      ConnTakes R G (b ++ chunk) (c.after es l) ∧
      (armed es = 1 ∨ 0 < cleared es ↔ (G.parse (b ++ chunk)).tail ≠ .broken) := by
  obtain ⟨r, tail, reads, clr, tracks⟩ := h.pending hlisten
  have hfeed : G.parse (b ++ chunk) =
      ⟨(G.parse b).msgs ++ (G.parse (r ++ chunk)).msgs, (G.parse (r ++ chunk)).tail⟩ := by
    rw [Lib.Format.parse_append, Lib.Format.feed_pending tail]
  obtain ⟨es, ⟨l, x⟩, hrun, hspec⟩ := handleRead_takes hR tracks h.posts hchunk.1 hchunk.2
  refine ⟨es, l, x, hrun, ?_⟩
  have hlog := Connection.after_log c es l
  have hreads := Connection.after_reads reads es l
  have hclears : (c.after es l).clears = cleared es := by
    rw [Connection.clears, hlog, cleared_append]
    show c.clears + _ = _
    rw [clr, Nat.zero_add]
  have hposts : ∀ {new : List (ι × Bytes)}, Posts l.heap l.session (c.log ++ es) new →
      Posts (c.after es l).heap (c.after es l).session (c.after es l).log new := by
    intro new hp
    rw [hlog]
    exact hp
  rw [hfeed]
  cases hspec with
  | waiting tail' posts arm clr' src tracks' =>
    refine ⟨.waiting (by rw [hfeed, tail']) (by rw [hfeed]; exact hposts posts) (hreads.trans arm)
      (hclears.trans clr') tracks', ?_⟩
    rw [tail', arm]
    exact iff_of_true (Or.inl rfl) fun h => by cases h
  | rejected tail' posts arm clr' src =>
    refine ⟨.rejected (by rw [hfeed, tail']) (by rw [hfeed]; exact hposts posts)
      (hreads.trans arm) (hclears.trans clr'), ?_⟩
    rw [tail', clr']
    exact iff_of_true (Or.inr Nat.one_pos) fun h => by cases h
  | threw tail' posts arm clr' src =>
    refine ⟨.threw (by rw [hfeed, tail']) (by rw [hfeed]; exact hposts posts) (hreads.trans arm)
      (hclears.trans clr'), ?_⟩
    rw [tail', arm, clr']
    exact iff_of_false (by rintro (h | h) <;> cases h) fun h => h rfl

theorem ConnTakes.receive (hR : R.Takes G) {b chunk : Bytes} {c : Connection ι}
    (h : ConnTakes R G b c) (hchunk : ValidChunk chunk) :
    ∃ c', c.receive R chunk = some c' ∧ ConnTakes R G (b ++ chunk) c' := by
  by_cases hreads : c.reads = 0
  · -- nobody is listening, and the parser is past its end as well
    have hsame : G.parse (b ++ chunk) = G.parse b := by
      apply Lib.Format.tail_append_of_ne_pending
      cases h with
      | waiting _ _ reads _ _ => rw [reads] at hreads; cases hreads
      | rejected tail _ _ _ => rw [tail]; exact nofun
      | threw tail _ _ _ => rw [tail]; exact nofun
    refine ⟨c, by rw [Connection.receive, if_pos hreads], ?_⟩
    cases h with
    | waiting _ _ reads _ _ => rw [reads] at hreads; cases hreads
    | rejected tail posts reads clr =>
      exact .rejected (by rw [hsame, tail]) (by rw [hsame]; exact posts) reads clr
    | threw tail posts reads clr =>
      exact .threw (by rw [hsame, tail]) (by rw [hsame]; exact posts) reads clr
  · obtain ⟨es, l, x, hrun, hspec, _⟩ := h.callback hR hreads hchunk
    exact ⟨c.after es l, by rw [Connection.receive, if_neg hreads, hrun]; rfl, hspec⟩

/-- **Any number of chunks, of any bytes.** -/
theorem Connection.run_takes (hR : R.Takes G) {chunks : List Bytes}
    (hchunks : ∀ c ∈ chunks, ValidChunk c) :
    ∃ c, Connection.run R chunks = some c ∧ ConnTakes R G chunks.flatten c := by
  induction chunks using List.reverseRecOn with
  | nil => exact ⟨_, rfl, Connection.start_takes hR⟩
  | append_singleton cs chunk ih =>
    obtain ⟨c, hrun, hspec⟩ := ih fun x hx => hchunks x (List.mem_append_left _ hx)
    obtain ⟨c', hrecv, hc'⟩ := hspec.receive hR (hchunks chunk (by simp))
    refine ⟨c', by rw [Connection.run_snoc, hrun]; exact hrecv, ?_⟩
    rw [List.flatten_append, List.flatten_singleton]
    exact hc'

end AsyncEchoServer
