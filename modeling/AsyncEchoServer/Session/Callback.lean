import AsyncEchoServer.Session.Footprint

/-!
# `Session/Callback.lean` — one callback, one connection

`handleRead_spec` lifts the pass to the whole `while` loop: on `b`, the bytes pending before the
callback and the chunk, the callback does what `Lib.Format.parse` says. The induction over the
passes is `Lib.whileLog_spec`; the measure is `bytes_transferred` itself, since a frame that was
not there before uses some of the chunk.

A `Connection` is a session with the reads it has outstanding. A chunk that arrives while a read
is outstanding is handed to the callback; behind a removed session nobody is listening and it
stays in the socket. `Connection.run_spec` is the induction over the chunks.
-/

set_option autoImplicit false

namespace AsyncEchoServer

variable {ι : Type} {R : Receiver ι} {F : Lib.Format UInt8 ι}

/-! ## One callback -/

/-- What a callback does about `b`, after `log` was logged and `msgs` were handed over. -/
inductive ReadSpec (R : Receiver ι) (F : Lib.Format UInt8 ι) (log : List Effect)
    (msgs : List (ι × Bytes)) (b : Bytes) (es : List Effect) : Loop ι × Exit → Prop where
  | waiting {l : Loop ι} {r : Bytes} (tail : (F.parse b).tail = .pending r)
      (ledger : Ledger l.heap l.session (log ++ es) (msgs ++ (F.parse b).msgs))
      (arm : armed es = 1) (clr : cleared es = 0) (ok : ∀ e ∈ es, e.InBounds)
      (coupled : Coupled R F l.heap l.session r) : ReadSpec R F log msgs b es (l, .returned)
  | rejected {l : Loop ι} (tail : (F.parse b).tail = .rejected)
      (ledger : Ledger l.heap l.session (log ++ es) (msgs ++ (F.parse b).msgs))
      (arm : armed es = 0) (clr : cleared es = 1) (ok : ∀ e ∈ es, e.InBounds) :
      ReadSpec R F log msgs b es (l, .returned)
  | broken {l : Loop ι} {x : Exit} (tail : (F.parse b).tail = .broken)
      (bad : ∃ e ∈ es, ¬ e.InBounds) : ReadSpec R F log msgs b es (l, x)

/-- The loop is at its head: it has handed over `done` of what `b` parses to, and what it holds
and the rest of the chunk parse to the rest. -/
structure AtHead (R : Receiver ι) (F : Lib.Format UInt8 ι) (log : List Effect)
    (msgs : List (ι × Bytes)) (b data : Bytes) (l : Loop ι) (es : List Effect)
    (done : List (ι × Bytes)) (pend r : Bytes) : Prop where
  parse : F.parse b = ⟨done ++ (F.parse (pend ++ r)).msgs, (F.parse (pend ++ r)).tail⟩
  coupled : Coupled R F l.heap l.session pend
  remains : Remains data l r
  more : r ≠ []
  ledger : Ledger l.heap l.session (log ++ es) (msgs ++ done)
  arm : armed es = 0
  clr : cleared es = 0
  ok : ∀ e ∈ es, e.InBounds

variable {log : List Effect} {msgs done : List (ι × Bytes)} {b data pend r : Bytes} {l : Loop ι}
  {es : List Effect}

theorem AtHead.ok_append (h : AtHead R F log msgs b data l es done pend r) {es' : List Effect}
    (hok : ∀ e ∈ es', e.InBounds) : ∀ e ∈ es ++ es', e.InBounds := by
  intro e he
  rcases List.mem_append.mp he with he | he
  · exact h.ok e he
  · exact hok e he

/-- What a pass hands over is booked behind what was handed over before. -/
theorem AtHead.book (h : AtHead R F log msgs b data l es done pend r) {es' : List Effect}
    {l' : Loop ι} {new : List (ι × Bytes)} (hf : Frame l.heap l.session es' l'.heap l'.session)
    (hnew : (delivered es').map (messageAt l'.heap) = new.map some)
    (hfull : ∀ p ∈ delivered es', Filled l'.heap p) :
    Ledger l'.heap l'.session (log ++ (es ++ es')) (msgs ++ (done ++ new)) := by
  rw [← List.append_assoc, ← List.append_assoc]
  exact h.ledger.extend hf hnew hfull

/-- **The step of the induction**: a pass that leaves the loop settles the callback. -/
theorem AtHead.leave (hR : R.Reads F) (h : AtHead R F log msgs b data l es done pend r)
    {es' : List Effect} {out : Loop ι × Exit} (hb : loopBody R data l = (es', .leave out)) :
    ReadSpec R F log msgs b (es ++ es') out := by
  have hspec := loopBody_spec hR h.coupled h.remains
  have hframe := loopBody_frame R data l
  rw [hb] at hspec hframe
  cases hspec with
  | wait next del arm clr ok coupled =>
    have hparse := h.parse
    rw [Lib.Format.parse_incomplete next] at hparse
    refine .waiting (r := pend ++ r) (by rw [hparse]) ?_ (by rw [armed_append, h.arm, arm])
      (by rw [cleared_append, h.clr, clr]) (h.ok_append ok) coupled
    rw [hparse]
    exact h.book hframe (by rw [del]; rfl) (by rw [del]; exact fun _ hp => absurd hp List.not_mem_nil)
  | reject next del arm clr ok =>
    have hparse := h.parse
    rw [Lib.Format.parse_rejected next] at hparse
    refine .rejected (by rw [hparse]) ?_ (by rw [armed_append, h.arm, arm])
      (by rw [cleared_append, h.clr, clr]) (h.ok_append ok)
    rw [hparse]
    exact h.book hframe (by rw [del]; rfl) (by rw [del]; exact fun _ hp => absurd hp List.not_mem_nil)
  | broken next bad =>
    have hparse := h.parse
    rw [Lib.Format.parse_broken next] at hparse
    obtain ⟨e, he, hbad⟩ := bad
    exact .broken (by rw [hparse]) ⟨e, List.mem_append_right _ he, hbad⟩
  | @last _ _ p tag payload next del msg full arm clr ok coupled =>
    have hparse := h.parse
    rw [Lib.Format.parse_frame next, Lib.Format.parse_nil] at hparse
    refine .waiting (r := []) (by rw [hparse]) ?_ (by rw [armed_append, h.arm, arm])
      (by rw [cleared_append, h.clr, clr]) (h.ok_append ok) coupled
    rw [hparse]
    refine h.book hframe (by rw [del, List.map_singleton, List.map_singleton, ← msg]) ?_
    rw [del]
    exact fun q hq => by rw [List.mem_singleton.mp hq]; exact full

/-- A pass that goes round again is at the head again, with less of the chunk left. -/
theorem AtHead.again (hR : R.Reads F) (h : AtHead R F log msgs b data l es done pend r)
    {es' : List Effect} {l' : Loop ι} (hb : loopBody R data l = (es', .again l')) :
    (∃ done' r', AtHead R F log msgs b data l' (es ++ es') done' [] r') ∧
      l'.bytesTransferred < l.bytesTransferred := by
  have hspec := loopBody_spec hR h.coupled h.remains
  have hframe := loopBody_frame R data l
  rw [hb] at hspec hframe
  cases hspec with
  | @more _ _ p tag payload rest next ne del msg full arm clr ok coupled rem =>
    refine ⟨⟨done ++ [(tag, payload)], rest, ?_, coupled, rem, ne, ?_,
      by rw [armed_append, h.arm, arm], by rw [cleared_append, h.clr, clr], h.ok_append ok⟩, ?_⟩
    · rw [h.parse, Lib.Format.parse_frame next, List.nil_append, List.append_assoc]
      rfl
    · refine h.book hframe (by rw [del, List.map_singleton, List.map_singleton, ← msg]) ?_
      rw [del]
      exact fun q hq => by rw [List.mem_singleton.mp hq]; exact full
    · rw [rem.bytes, h.remains.bytes]
      exact Lib.Format.next_frame_rest_lt (h.coupled.incomplete hR) next

theorem readBuffer_remains {chunk : Bytes} (hlen : chunk.length ≤ maxLength) {heap : Heap ι}
    {s : Session} :
    Remains (readBuffer chunk)
      { heap := heap, session := s, copyLen := 0, bytesTransferred := chunk.length } chunk where
  copyLen := Int.le_refl 0
  bytes := rfl
  bound := hlen
  slice := List.take_left' rfl

/-- **One callback.** It comes back, and it has done what the reference parser says. -/
theorem handleRead_spec (hR : R.Reads F) {heap : Heap ι} {s : Session} {chunk : Bytes}
    (hc : Coupled R F heap s pend) (hl : Ledger heap s log msgs) (hne : chunk ≠ [])
    (hlen : chunk.length ≤ maxLength) :
    ∃ es out, handleRead R heap s (.ok chunk) = some (es, out) ∧
      ReadSpec R F log msgs (pend ++ chunk) es out := by
  have hstart : AtHead R F log msgs (pend ++ chunk) (readBuffer chunk)
      { heap := heap, session := s, copyLen := 0, bytesTransferred := chunk.length } [] [] pend
      chunk :=
    ⟨rfl, hc, readBuffer_remains hlen, hne, by simpa using hl, rfl, rfl,
      fun _ he => absurd he List.not_mem_nil⟩
  have hpasses : chunk.length < passBound chunk.length := by
    unfold passBound
    omega
  show ∃ es out, handleReadLoop R (readBuffer chunk)
    { heap := heap, session := s, copyLen := 0, bytesTransferred := chunk.length } =
      some (es, out) ∧ ReadSpec R F log msgs (pend ++ chunk) es out
  unfold handleReadLoop
  refine Lib.whileLog_spec
    (I := fun l es => ∃ done pend' r, AtHead R F log msgs (pend ++ chunk) (readBuffer chunk) l es
      done pend' r)
    (Q := fun out es => ReadSpec R F log msgs (pend ++ chunk) es out)
    (fun l => l.bytesTransferred) ?again ?leave ?done _ _ [] hpasses ⟨[], pend, chunk, hstart⟩
  case again =>
    rintro l es e l' ⟨done, pend', r, h⟩ _ hb
    obtain ⟨⟨done', r', h'⟩, hlt⟩ := h.again hR hb
    exact ⟨⟨done', [], r', h'⟩, hlt⟩
  case leave =>
    rintro l es e out ⟨done, pend', r, h⟩ _ hb
    exact h.leave hR hb
  case done =>
    -- the loop is left by a `return` only: at its head there are bytes left
    rintro l es ⟨done, pend', r, h⟩ hg
    refine absurd ?_ h.more
    rw [← List.length_eq_zero_iff, ← h.remains.bytes]
    have hz := of_decide_eq_false hg
    omega

end AsyncEchoServer
