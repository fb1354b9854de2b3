import AsyncEchoServer.Session.Callback

/-!
# `Session/Connection.lean` — the chunks of one connection

A `Connection` is a session with the reads it has outstanding. A chunk that arrives while a read
is outstanding goes to the callback; behind a removed session nobody is listening, and the chunk
stays in the socket. `Connection.run` is a connection that receives a list of chunks.

Two results are about every list of chunks, in all servers:

* `handleRead_refines_ref` — as long as no declared length is negative, the connection is the
  reference parser on the bytes received so far: same messages, gone exactly when the parser
  has rejected, and listening once otherwise. How TCP cut the stream is not observable.
* `handleRead_inBounds_iff` — every allocation, copy and store of the receive path is in bounds
  **exactly** when no negative length is reached. The check is from above only, so the "only if"
  is a defect: four bytes from any client are enough.
-/

set_option autoImplicit false

namespace AsyncEchoServer

variable {ι : Type} {R : Receiver ι} {F : Lib.Format UInt8 ι}

structure Connection (ι : Type) where
  heap : Heap ι
  session : Session
  /-- `async_read_some` operations outstanding -/
  reads : Nat
  /-- what each callback did -/
  calls : List (List Effect)

namespace Connection

/-- `Start()`: the first read is armed. -/
def start (R : Receiver ι) : Connection ι where
  heap := []
  session := Session.fresh R
  reads := 1
  calls := []

/-- A callback has run. -/
def after (c : Connection ι) (es : List Effect) (l : Loop ι) : Connection ι where
  heap := l.heap
  session := l.session
  reads := c.reads - 1 + armed es
  calls := c.calls ++ [es]

/-- A chunk arrives. `none` only if the callback does not come back. -/
def receive (R : Receiver ι) (c : Connection ι) (chunk : Bytes) : Option (Connection ι) :=
  if c.reads = 0 then some c
  else
    (handleRead R c.heap c.session (.ok chunk)).map fun out => c.after out.1 out.2.1

def run (R : Receiver ι) (chunks : List Bytes) : Option (Connection ι) :=
  chunks.foldlM (receive R) (start R)

def log (c : Connection ι) : List Effect := c.calls.flatten

/-- The messages handed over, as the nodes read now. -/
def posted (c : Connection ι) : List (Option (ι × Bytes)) :=
  (delivered c.log).map (messageAt c.heap)

def clears (c : Connection ι) : Nat := cleared c.log

theorem run_snoc (R : Receiver ι) (chunks : List Bytes) (chunk : Bytes) :
    run R (chunks ++ [chunk]) = (run R chunks).bind (receive R · chunk) := by
  rw [run, List.foldlM_append]
  refine congrArg _ (funext fun c => ?_)
  rw [List.foldlM_cons]
  exact bind_pure _

theorem after_reads {c : Connection ι} (h : c.reads = 1) (es : List Effect) (l : Loop ι) :
    (c.after es l).reads = armed es := by
  rw [after, h, Nat.sub_self, Nat.zero_add]

theorem after_log (c : Connection ι) (es : List Effect) (l : Loop ι) :
    (c.after es l).log = c.log ++ es := by
  rw [log, after, List.flatten_append, List.flatten_singleton]
  rfl

end Connection

/-! ## The invariant of a connection -/

/-- What a connection that has received `b` looks like. -/
inductive ConnSpec (R : Receiver ι) (F : Lib.Format UInt8 ι) (b : Bytes) (c : Connection ι) :
    Prop where
  | waiting {r : Bytes} (tail : (F.parse b).tail = .pending r)
      (ledger : Ledger c.heap c.session c.log (F.parse b).msgs) (reads : c.reads = 1)
      (arm : ∀ es ∈ c.calls, armed es = 1) (clr : c.clears = 0) (ok : ∀ e ∈ c.log, e.InBounds)
      (coupled : Coupled R F c.heap c.session r)
  | rejected (tail : (F.parse b).tail = .rejected)
      (ledger : Ledger c.heap c.session c.log (F.parse b).msgs) (reads : c.reads = 0)
      (clr : c.clears = 1) (ok : ∀ e ∈ c.log, e.InBounds)

/-- The chunks `async_read_some` can complete with. -/
def ValidChunk (chunk : Bytes) : Prop := chunk ≠ [] ∧ chunk.length ≤ maxLength

theorem Session.fresh_coupled (hR : R.Reads F) (heap : Heap ι) :
    Coupled R F heap (Session.fresh R) [] := by
  have h4 := hR.headLen_le
  have hpos := F.headLen_pos
  rw [hR.headLen] at hpos
  exact .head rfl hpos (toShort_toInt (by omega) (by omega)) (MsgNode.zeroed_holds _)

theorem Connection.start_spec (hR : R.Reads F) : ConnSpec R F [] (Connection.start R) :=
  .waiting (r := []) (by rw [Lib.Format.parse_nil]) (by rw [Lib.Format.parse_nil]; exact .nil) rfl
    (fun _ he => by cases he) rfl (fun _ he => by cases he) (Session.fresh_coupled hR [])

/-- **One more callback.** On a stream that breaks here it has left its buffers. -/
theorem ConnSpec.callback (hR : R.Reads F) {b chunk : Bytes} {c : Connection ι}
    (h : ConnSpec R F b c) (hlisten : c.reads ≠ 0) (hchunk : ValidChunk chunk) :
    ∃ es l x, handleRead R c.heap c.session (.ok chunk) = some (es, (l, x)) ∧
      (ConnSpec R F (b ++ chunk) (c.after es l) ∨
        ((F.parse (b ++ chunk)).tail = .broken ∧ ∃ e ∈ es, ¬ e.InBounds)) := by
  cases h with
  | rejected tail ledger reads clr ok => exact absurd reads hlisten
  | @waiting r tail ledger reads arm clr ok coupled =>
    have hfeed : F.parse (b ++ chunk) =
        ⟨(F.parse b).msgs ++ (F.parse (r ++ chunk)).msgs, (F.parse (r ++ chunk)).tail⟩ := by
      rw [Lib.Format.parse_append, Lib.Format.feed_pending tail]
    obtain ⟨es, ⟨l, x⟩, hrun, hspec⟩ := handleRead_spec hR coupled ledger hchunk.1 hchunk.2
    refine ⟨es, l, x, hrun, ?_⟩
    have hlog := Connection.after_log c es l
    have hclears : (c.after es l).clears = c.clears + cleared es := by
      rw [Connection.clears, hlog, cleared_append]
      rfl
    have hall : (∀ e ∈ es, e.InBounds) → ∀ e ∈ (c.after es l).log, e.InBounds := by
      intro hes e he
      rw [hlog] at he
      rcases List.mem_append.mp he with he | he
      · exact ok e he
      · exact hes e he
    cases hspec with
    | @waiting _ r' tail' ledger' arm' clr' ok' coupled' =>
      refine Or.inl (.waiting (by rw [hfeed, tail']) ?_ ((Connection.after_reads reads es l).trans arm')
        ?_ (by rw [hclears, clr, clr']) (hall ok') coupled')
      · rw [hfeed, hlog]
        exact ledger'
      · intro es' he
        rcases List.mem_append.mp he with he | he
        · exact arm es' he
        · rw [List.mem_singleton.mp he]
          exact arm'
    | rejected tail' ledger' arm' clr' ok' =>
      refine Or.inl (.rejected (by rw [hfeed, tail']) ?_
        ((Connection.after_reads reads es l).trans arm') (by rw [hclears, clr, clr']) (hall ok'))
      rw [hfeed, hlog]
      exact ledger'
    | broken tail' bad => exact Or.inr ⟨by rw [hfeed, tail'], bad⟩

/-- **One more chunk**, whether or not anybody is listening. -/
theorem ConnSpec.receive (hR : R.Reads F) {b chunk : Bytes} {c : Connection ι}
    (h : ConnSpec R F b c) (hchunk : ValidChunk chunk) :
    ∃ c', c.receive R chunk = some c' ∧
      (ConnSpec R F (b ++ chunk) c' ∨
        ((F.parse (b ++ chunk)).tail = .broken ∧ ∃ e ∈ c'.log, ¬ e.InBounds)) := by
  by_cases hreads : c.reads = 0
  · cases h with
    | waiting _ _ reads _ _ _ _ =>
      rw [reads] at hreads
      exact absurd hreads Nat.one_ne_zero
    | rejected tail ledger reads clr ok =>
      have hsame : F.parse (b ++ chunk) = F.parse b :=
        Lib.Format.tail_append_of_ne_pending fun r hr => by rw [tail] at hr; cases hr
      refine ⟨c, by rw [Connection.receive, if_pos reads], Or.inl ?_⟩
      exact .rejected (by rw [hsame, tail]) (by rw [hsame]; exact ledger) reads clr ok
  · obtain ⟨es, l, x, hrun, hspec⟩ := h.callback hR hreads hchunk
    refine ⟨c.after es l, by rw [Connection.receive, if_neg hreads, hrun]; rfl, ?_⟩
    rcases hspec with hspec | ⟨htail, e, he, hbad⟩
    · exact Or.inl hspec
    · refine Or.inr ⟨htail, e, ?_, hbad⟩
      rw [Connection.after_log]
      exact List.mem_append_right _ he

/-- A stream that is not broken has no broken beginning. -/
theorem tail_ne_broken_of_append {b c : Bytes} (h : (F.parse (b ++ c)).tail ≠ .broken) :
    (F.parse b).tail ≠ .broken := by
  intro hb
  have hdone : ∀ r, (F.parse b).tail ≠ .pending r := by
    intro r hr
    rw [hb] at hr
    cases hr
  exact h (by rw [Lib.Format.tail_append_of_ne_pending hdone, hb])

/-- **Any number of chunks.** -/
theorem Connection.run_spec (hR : R.Reads F) {chunks : List Bytes}
    (hchunks : ∀ c ∈ chunks, ValidChunk c) (hb : (F.parse chunks.flatten).tail ≠ .broken) :
    ∃ c, Connection.run R chunks = some c ∧ ConnSpec R F chunks.flatten c := by
  induction chunks using List.reverseRecOn with
  | nil => exact ⟨_, rfl, Connection.start_spec hR⟩
  | append_singleton cs chunk ih =>
    rw [List.flatten_append, List.flatten_singleton] at hb ⊢
    obtain ⟨c, hrun, hspec⟩ := ih (fun x hx => hchunks x (List.mem_append_left _ hx))
      (tail_ne_broken_of_append hb)
    obtain ⟨c', hrecv, hc'⟩ := hspec.receive hR (hchunks chunk (by simp))
    refine ⟨c', by rw [Connection.run_snoc, hrun]; exact hrecv, ?_⟩
    rcases hc' with hc' | ⟨hbroken, _⟩
    · exact hc'
    · exact absurd hbroken hb

/-- A broken stream has a first callback that leaves its buffers. -/
theorem Connection.run_broken (hR : R.Reads F) {chunks : List Bytes}
    (hchunks : ∀ c ∈ chunks, ValidChunk c) (hb : (F.parse chunks.flatten).tail = .broken) :
    ∃ pre c, pre <+: chunks ∧ Connection.run R pre = some c ∧ ∃ e ∈ c.log, ¬ e.InBounds := by
  induction chunks using List.reverseRecOn with
  | nil =>
    rw [List.flatten_nil, Lib.Format.parse_nil] at hb
    cases hb
  | append_singleton cs chunk ih =>
    have hcs : ∀ x ∈ cs, ValidChunk x := fun x hx => hchunks x (List.mem_append_left _ hx)
    by_cases hbefore : (F.parse cs.flatten).tail = .broken
    · obtain ⟨pre, c, hpre, hrun, hbad⟩ := ih hcs hbefore
      exact ⟨pre, c, hpre.trans (List.prefix_append _ _), hrun, hbad⟩
    · obtain ⟨c, hrun, hspec⟩ := Connection.run_spec hR hcs hbefore
      obtain ⟨c', hrecv, hc'⟩ := hspec.receive hR (hchunks chunk (by simp))
      refine ⟨cs ++ [chunk], c', List.prefix_refl _, ?_, ?_⟩
      · rw [Connection.run_snoc, hrun]
        exact hrecv
      · rw [List.flatten_append, List.flatten_singleton] at hb
        rcases hc' with hc' | ⟨_, hbad⟩
        · cases hc' with
          | waiting tail _ _ _ _ _ _ => rw [hb] at tail; cases tail
          | rejected tail _ _ _ _ => rw [hb] at tail; cases tail
        · exact hbad

/-! ## The reference parser, and the bounds -/

/-- **Frame reassembly refines the reference parser**, however the stream is cut: after every
callback the posted messages are the ones `ref` emits, the session is gone exactly when `ref` has
rejected, and otherwise every callback has armed exactly one read. -/
theorem handleRead_refines_ref {R : Receiver Short}
    (hR : R = ServerV3.receiver ∨ R = ServerV3Mt.receiver) {chunks : List Bytes}
    (hchunks : ∀ c ∈ chunks, ValidChunk c)
    (hneg : (ServerV3.ref.parse chunks.flatten).tail ≠ .broken) :
    (∀ pre, pre <+: chunks → ∃ c, Connection.run R pre = some c ∧
      c.posted = (ServerV3.ref.parse pre.flatten).msgs.map some ∧
      (c.clears = 1 ∧ c.reads = 0 ↔ (ServerV3.ref.parse pre.flatten).tail = .rejected) ∧
      ((ServerV3.ref.parse pre.flatten).tail ≠ .rejected →
        c.clears = 0 ∧ c.reads = 1 ∧ ∀ es ∈ c.calls, armed es = 1)) ∧
    ∀ chunks', (∀ c ∈ chunks', ValidChunk c) → chunks'.flatten = chunks.flatten →
      ∃ c c', Connection.run R chunks = some c ∧ Connection.run R chunks' = some c' ∧
        c'.posted = c.posted ∧ c'.clears = c.clears ∧ c'.reads = c.reads := by
  have hreads : R.Reads ServerV3.ref := by
    rcases hR with rfl | rfl
    · exact ServerV3.receiver_reads
    · exact ServerV3Mt.receiver_reads
  constructor
  · intro pre hpre
    obtain ⟨rest, hrest⟩ := hpre
    have hb : (ServerV3.ref.parse pre.flatten).tail ≠ .broken := by
      rw [← hrest, List.flatten_append] at hneg
      exact tail_ne_broken_of_append hneg
    obtain ⟨c, hrun, hspec⟩ := Connection.run_spec hreads
      (fun x hx => hchunks x (by rw [← hrest]; exact List.mem_append_left _ hx)) hb
    refine ⟨c, hrun, ?_⟩
    cases hspec with
    | waiting tail ledger reads arm clr _ _ =>
      refine ⟨ledger.read, ?_, fun _ => ⟨clr, reads, arm⟩⟩
      rw [tail, clr]
      exact ⟨fun h => absurd h.1 Nat.zero_ne_one, fun h => by cases h⟩
    | rejected tail ledger reads clr _ =>
      exact ⟨ledger.read, ⟨fun _ => tail, fun _ => ⟨clr, reads⟩⟩, fun h => absurd tail h⟩
  · intro chunks' hchunks' hsame
    obtain ⟨c, hrun, hspec⟩ := Connection.run_spec hreads hchunks hneg
    obtain ⟨c', hrun', hspec'⟩ := Connection.run_spec hreads hchunks' (by rw [hsame]; exact hneg)
    rw [hsame] at hspec'
    refine ⟨c, c', hrun, hrun', ?_⟩
    cases hspec with
    | waiting tail ledger reads _ clr _ _ =>
      cases hspec' with
      | waiting _ ledger' reads' _ clr' _ _ =>
        exact ⟨ledger'.read.trans ledger.read.symm, by rw [clr, clr'], by rw [reads, reads']⟩
      | rejected tail' _ _ _ _ => rw [tail] at tail'; cases tail'
    | rejected tail ledger reads clr _ =>
      cases hspec' with
      | waiting tail' _ _ _ _ _ _ => rw [tail] at tail'; cases tail'
      | rejected _ ledger' reads' clr' _ =>
        exact ⟨ledger'.read.trans ledger.read.symm, by rw [clr, clr'], by rw [reads, reads']⟩

/-- A frame with two payload bytes and a rejected header, cut inside the first header and inside
its payload. -/
theorem handleRead_refines_ref_cut :
    ∃ c, Connection.run ServerV3.receiver
        [[3, 0xe9, 0], [2, 0x68], [0x69, 0x7f, 0xff, 0], [0, 1]] = some c ∧
      c.posted = [some (1001, [0x68, 0x69])] ∧ (c.clears = 1 ∧ c.reads = 0) := by
  have hparse : ServerV3.ref.parse
      [[3, 0xe9, 0], [2, 0x68], [0x69, 0x7f, 0xff, 0], [0, 1]].flatten =
        ⟨[(1001, [0x68, 0x69])], .rejected⟩ := by decide
  have hvalid : ∀ c ∈ ([[3, 0xe9, 0], [2, 0x68], [0x69, 0x7f, 0xff, 0], [0, 1]] : List Bytes),
      ValidChunk c := by unfold ValidChunk; decide
  obtain ⟨c, hrun, hposted, hgone, _⟩ := (handleRead_refines_ref (Or.inl rfl) hvalid
    (by rw [hparse]; decide)).1 _ (List.prefix_refl _)
  rw [hparse] at hposted hgone
  exact ⟨c, hrun, hposted, hgone.mpr rfl⟩

/-- The receive path of a server stays in bounds on a list of chunks: in every callback. -/
def StaysInBounds (R : Receiver ι) (chunks : List Bytes) : Prop :=
  ∀ pre c, pre <+: chunks → Connection.run R pre = some c → ∀ e ∈ c.log, e.InBounds

theorem staysInBounds_iff (hR : R.Reads F) {chunks : List Bytes}
    (hchunks : ∀ c ∈ chunks, ValidChunk c) :
    StaysInBounds R chunks ↔ (F.parse chunks.flatten).tail ≠ .broken := by
  constructor
  · intro h hb
    obtain ⟨pre, c, hpre, hrun, e, he, hbad⟩ := Connection.run_broken hR hchunks hb
    exact hbad (h pre c hpre hrun e he)
  · intro hb pre c hpre hrun
    obtain ⟨rest, hrest⟩ := hpre
    rw [← hrest, List.flatten_append] at hb
    obtain ⟨c', hrun', hspec⟩ := Connection.run_spec hR
      (fun x hx => hchunks x (by rw [← hrest]; exact List.mem_append_left _ hx))
      (tail_ne_broken_of_append hb)
    rw [hrun] at hrun'
    cases hrun'
    cases hspec with
    | waiting _ _ _ _ _ ok _ => exact ok
    | rejected _ _ _ _ ok => exact ok

/-- **The receive path is in bounds exactly when no negative length is reached**, in all three
servers. -/
theorem handleRead_inBounds_iff {chunks : List Bytes} (hchunks : ∀ c ∈ chunks, ValidChunk c) :
    (StaysInBounds ServerV3.receiver chunks ↔
      (ServerV3.ref.parse chunks.flatten).tail ≠ .broken) ∧
    (StaysInBounds ServerV3Mt.receiver chunks ↔
      (ServerV3.ref.parse chunks.flatten).tail ≠ .broken) ∧
    (StaysInBounds Server.receiver chunks ↔
      (Server.ref.parse chunks.flatten).tail ≠ .broken) :=
  ⟨staysInBounds_iff ServerV3.receiver_reads hchunks,
    staysInBounds_iff ServerV3Mt.receiver_reads hchunks,
    staysInBounds_iff Server.receiver_reads hchunks⟩

/-- A frame of length 2 in two chunks is fine for all three; to version 2.1 it is an empty
payload behind which a frame of two bytes is pending. -/
theorem handleRead_inBounds_iff_frame :
    StaysInBounds ServerV3.receiver [[0, 0, 0], [2, 7, 8]] ∧
      StaysInBounds ServerV3Mt.receiver [[0, 0, 0], [2, 7, 8]] ∧
      StaysInBounds Server.receiver [[0, 0, 0], [2, 7, 8]] := by
  have hvalid : ∀ c ∈ ([[0, 0, 0], [2, 7, 8]] : List Bytes), ValidChunk c := by
    unfold ValidChunk
    decide
  have h := handleRead_inBounds_iff hvalid
  exact ⟨h.1.mpr (by decide), h.2.1.mpr (by decide), h.2.2.mpr (by decide)⟩

/-- Length −1: `new char[0]`, then the terminator is stored at index −1. -/
theorem handleRead_negative_length :
    ¬ ∀ chunks, (∀ c ∈ chunks, ValidChunk c) → StaysInBounds ServerV3.receiver chunks := by
  intro h
  have hcall : ∃ c, Connection.run ServerV3.receiver [[0, 0, 0xff, 0xff]] = some c ∧
      Effect.store 0 (-1) ∈ c.log := ⟨_, rfl, by decide⟩
  obtain ⟨c, hrun, hmem⟩ := hcall
  have hin := h [[0, 0, 0xff, 0xff]] (by unfold ValidChunk; decide) _ c (List.prefix_refl _) hrun
    _ hmem
  exact absurd hin.1 (by decide)

end AsyncEchoServer
