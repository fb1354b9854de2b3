import Mathlib.Data.List.Basic
import Mathlib.Data.List.Induction

/-!
# `Lib/Framing.lean` — length-prefixed framing over a byte stream

A stream is a list of symbols, a frame is a fixed-size header followed by as many symbols as the
header announces. `Format` says how a complete header reads: it may be **rejected** by the
receiver's own limits, it may be **broken** (a length no payload can have), or it is accepted
with a tag and a length.

`parse` is the one-pass reference parser. The receiver in the field sees the stream in chunks,
so the two facts everything else rests on are about cutting:

* `next_append` — once one step of the parser is decided, more input does not change it;
* `parse_append` — parsing `b ++ c` is parsing `b`, then parsing what `b` left pending with `c`
  behind it.

`Encoder` is the other direction: an encoder whose frames the format reads back. Encoding and
parsing are then inverse on whole streams (`parse_encode`, `encode_parse`).
-/

set_option autoImplicit false

namespace AsyncEchoServer
namespace Lib

/-- How a complete header reads. -/
inductive Verdict (ι : Type*) where
  | reject
  | broken
  | accept (tag : ι) (len : Nat)
  deriving Repr, DecidableEq

structure Format (β ι : Type*) where
  headLen : Nat
  headLen_pos : 0 < headLen
  /-- read on exactly `headLen` symbols -/
  decode : List β → Verdict ι

/-- One step of the reference parser. -/
inductive Next (β ι : Type*) where
  | incomplete
  | rejected
  | broken
  | frame (tag : ι) (payload rest : List β)
  deriving Repr, DecidableEq

/-- Where the parser stands at the end of its input. -/
inductive Tail (β : Type*) where
  | pending (rest : List β)
  | rejected
  | broken
  deriving Repr, DecidableEq

structure Parsed (β ι : Type*) where
  msgs : List (ι × List β)
  tail : Tail β
  deriving Repr, DecidableEq

namespace Format

variable {β ι : Type*} (F : Format β ι)

def next (b : List β) : Next β ι :=
  if b.length < F.headLen then .incomplete
  else
    match F.decode (b.take F.headLen) with
    | .reject => .rejected
    | .broken => .broken
    | .accept tag len =>
      let body := b.drop F.headLen
      if body.length < len then .incomplete
      else .frame tag (body.take len) (body.drop len)

/-- The reference parser with a bound on the number of frames. -/
def parseN : Nat → List β → Parsed β ι
  | 0, b => ⟨[], .pending b⟩
  | n + 1, b =>
    match F.next b with
    | .incomplete => ⟨[], .pending b⟩
    | .rejected => ⟨[], .rejected⟩
    | .broken => ⟨[], .broken⟩
    | .frame tag payload rest =>
      let q := parseN n rest
      ⟨(tag, payload) :: q.msgs, q.tail⟩

/-- Read headers and payloads until one is rejected or the input ends. A frame has at least
one symbol, so the length of the input bounds the number of frames. -/
def parse (b : List β) : Parsed β ι := F.parseN b.length b

variable {F}

/-! ## One step -/

/-- Everything a step that yields a frame says about the input. -/
theorem next_frame_cases {b payload rest : List β} {tag : ι}
    (h : F.next b = .frame tag payload rest) :
    F.decode (b.take F.headLen) = .accept tag payload.length ∧
      b = b.take F.headLen ++ (payload ++ rest) ∧ F.headLen ≤ b.length := by
  unfold next at h
  split at h
  · cases h
  · rename_i hlen
    split at h <;> try cases h
    rename_i t len hd
    dsimp only at h
    split at h
    · cases h
    · rename_i hbody
      simp only [Next.frame.injEq] at h
      obtain ⟨rfl, rfl, rfl⟩ := h
      have hmin : min len (b.length - F.headLen) = len := by
        rw [List.length_drop] at hbody; omega
      refine ⟨by simpa [hmin] using hd, ?_, by omega⟩
      rw [List.take_append_drop, List.take_append_drop]

theorem next_frame_length {b payload rest : List β} {tag : ι}
    (h : F.next b = .frame tag payload rest) : rest.length < b.length := by
  obtain ⟨_, hb, hle⟩ := next_frame_cases h
  have hlen := congrArg List.length hb
  have := F.headLen_pos
  simp only [List.length_append, List.length_take] at hlen
  omega

theorem next_of_short {b : List β} (h : b.length < F.headLen) : F.next b = .incomplete := by
  simp [next, h]

/-- A complete header followed by a whole payload is a frame. -/
theorem next_of_accept {head payload rest : List β} {tag : ι} (hh : head.length = F.headLen)
    (hd : F.decode head = .accept tag payload.length) :
    F.next (head ++ (payload ++ rest)) = .frame tag payload rest := by
  simp only [next, ← hh, List.take_left', List.drop_left', hd, List.length_append]
  rw [if_neg (by omega), if_neg (by omega)]

/-- The same with the payload in two parts, the second of them at the front of what follows. -/
theorem next_of_parts {head body rest : List β} {tag : ι} {len k : Nat}
    (hh : head.length = F.headLen) (hd : F.decode head = .accept tag len)
    (hlen : (body ++ rest.take k).length = len) :
    F.next ((head ++ body) ++ rest) = .frame tag (body ++ rest.take k) (rest.drop k) := by
  have hsplit : (head ++ body) ++ rest = head ++ ((body ++ rest.take k) ++ rest.drop k) := by
    rw [List.append_assoc body, List.take_append_drop, List.append_assoc]
  rw [hsplit]
  exact next_of_accept hh (by rw [hlen]; exact hd)

/-- A complete header whose payload is still short is not. -/
theorem next_of_partial {head body : List β} {tag : ι} {len : Nat}
    (hh : head.length = F.headLen) (hd : F.decode head = .accept tag len)
    (hb : body.length < len) : F.next (head ++ body) = .incomplete := by
  simp [next, ← hh, hd, hb]

theorem next_of_reject {head body : List β} (hh : head.length = F.headLen)
    (hd : F.decode head = .reject) : F.next (head ++ body) = .rejected := by
  simp [next, ← hh, hd]

theorem next_of_broken {head body : List β} (hh : head.length = F.headLen)
    (hd : F.decode head = .broken) : F.next (head ++ body) = .broken := by
  simp [next, ← hh, hd]

/-- More input changes no decision already taken. -/
theorem next_append {b c : List β} :
    match F.next b with
    | .incomplete => True
    | .rejected => F.next (b ++ c) = .rejected
    | .broken => F.next (b ++ c) = .broken
    | .frame tag payload rest => F.next (b ++ c) = .frame tag payload (rest ++ c) := by
  by_cases hshort : b.length < F.headLen
  · simp [next_of_short hshort]
  · have hsplit : b = b.take F.headLen ++ b.drop F.headLen := (List.take_append_drop _ _).symm
    have hh : (b.take F.headLen).length = F.headLen := by simp; omega
    cases hn : F.next b with
    | incomplete => trivial
    | frame tag payload rest =>
      obtain ⟨hd, hb, _⟩ := next_frame_cases hn
      show F.next (b ++ c) = _
      rw [hb, List.append_assoc, List.append_assoc]
      exact next_of_accept hh hd
    | rejected =>
      cases hd : F.decode (b.take F.headLen) with
      | reject =>
        show F.next (b ++ c) = _
        rw [hsplit, List.append_assoc]
        exact next_of_reject hh hd
      | broken => rw [hsplit, next_of_broken hh hd] at hn; cases hn
      | accept tag len =>
        simp only [next, hshort, if_false, hd] at hn
        split at hn <;> cases hn
    | broken =>
      cases hd : F.decode (b.take F.headLen) with
      | broken =>
        show F.next (b ++ c) = _
        rw [hsplit, List.append_assoc]
        exact next_of_broken hh hd
      | reject => rw [hsplit, next_of_reject hh hd] at hn; cases hn
      | accept tag len =>
        simp only [next, hshort, if_false, hd] at hn
        split at hn <;> cases hn

/-- A frame that was not there before `r` arrived uses some of it. -/
theorem next_frame_rest_lt {b r payload rest : List β} {tag : ι} (hb : F.next b = .incomplete)
    (h : F.next (b ++ r) = .frame tag payload rest) : rest.length < r.length := by
  obtain ⟨hd, hsplit, hlong⟩ := next_frame_cases h
  by_contra hle
  have hrest : rest <:+ b ++ r := by
    rw [hsplit, ← List.append_assoc]
    exact List.suffix_append _ _
  obtain ⟨x, hx⟩ := List.suffix_of_suffix_length_le (List.suffix_append b r) hrest (by omega)
  rw [← hx, ← List.append_assoc payload, ← List.append_assoc] at hsplit
  have hb' := List.append_cancel_right hsplit
  have hframe : F.next ((b ++ r).take F.headLen ++ (payload ++ x)) = .frame tag payload x :=
    next_of_accept (List.length_take_of_le hlong) hd
  rw [← hb', hb] at hframe
  cases hframe

/-! ## The whole parse -/

theorem parseN_of_incomplete {b : List β} (h : F.next b = .incomplete) (n : Nat) :
    F.parseN n b = ⟨[], .pending b⟩ := by
  cases n with
  | zero => rfl
  | succ n => simp [parseN, h]

theorem parseN_of_frame {b payload rest : List β} {tag : ι} (n : Nat)
    (h : F.next b = .frame tag payload rest) :
    F.parseN (n + 1) b =
      ⟨(tag, payload) :: (F.parseN n rest).msgs, (F.parseN n rest).tail⟩ := by
  simp [parseN, h]

/-- Two bounds that are both enough give the same parse. -/
theorem parseN_congr : ∀ (n m : Nat) {b : List β}, b.length ≤ n → b.length ≤ m →
    F.parseN n b = F.parseN m b := by
  intro n
  induction n with
  | zero =>
    intro m b hn _
    have hinc : F.next b = .incomplete := next_of_short (by have := F.headLen_pos; omega)
    rw [parseN_of_incomplete hinc, parseN_of_incomplete hinc]
  | succ n ih =>
    intro m b hn hm
    cases m with
    | zero =>
      have hinc : F.next b = .incomplete := next_of_short (by have := F.headLen_pos; omega)
      rw [parseN_of_incomplete hinc, parseN_of_incomplete hinc]
    | succ m =>
      cases hnx : F.next b with
      | incomplete => rw [parseN_of_incomplete hnx, parseN_of_incomplete hnx]
      | rejected | broken => simp [parseN, hnx]
      | frame tag payload rest =>
        have := next_frame_length hnx
        rw [parseN_of_frame n hnx, parseN_of_frame m hnx, ih m (by omega) (by omega)]

theorem parse_incomplete {b : List β} (h : F.next b = .incomplete) :
    F.parse b = ⟨[], .pending b⟩ := parseN_of_incomplete h _

/-- A step that decides anything had a header to read. -/
theorem parse_of_next_ne {b : List β} (h : F.next b ≠ .incomplete) :
    F.parse b = F.parseN (b.length - 1 + 1) b := by
  have : ¬ b.length < F.headLen := fun hlt => h (next_of_short hlt)
  have := F.headLen_pos
  rw [parse, Nat.sub_add_cancel (by omega)]

theorem parse_rejected {b : List β} (h : F.next b = .rejected) :
    F.parse b = ⟨[], .rejected⟩ := by
  rw [parse_of_next_ne (by simp [h])]
  simp [parseN, h]

theorem parse_broken {b : List β} (h : F.next b = .broken) :
    F.parse b = ⟨[], .broken⟩ := by
  rw [parse_of_next_ne (by simp [h])]
  simp [parseN, h]

theorem parse_frame {b payload rest : List β} {tag : ι}
    (h : F.next b = .frame tag payload rest) :
    F.parse b = ⟨(tag, payload) :: (F.parse rest).msgs, (F.parse rest).tail⟩ := by
  have hlt := next_frame_length h
  rw [parse_of_next_ne (by simp [h]), parseN_of_frame _ h,
    parseN_congr (b.length - 1) rest.length (by omega) (Nat.le_refl _)]
  rfl

@[simp] theorem parse_nil : F.parse ([] : List β) = ⟨[], .pending []⟩ :=
  parse_incomplete (next_of_short F.headLen_pos)

/-- Induction along the parse: a property of streams holds if it holds of every stream whose
next step decides it, and of a stream with a frame in front whenever it holds of the rest. -/
theorem parse_induction {P : List β → Prop}
    (hstop : ∀ b, (∀ tag payload rest, F.next b ≠ .frame tag payload rest) → P b)
    (hframe : ∀ b tag payload rest, F.next b = .frame tag payload rest → P rest → P b) :
    ∀ b, P b := by
  intro b
  induction hn : b.length using Nat.strongRecOn generalizing b with
  | ind n ih =>
    cases hnx : F.next b with
    | incomplete | rejected | broken => exact hstop b (by simp [hnx])
    | frame tag payload rest =>
      exact hframe b tag payload rest hnx
        (ih rest.length (by rw [← hn]; exact next_frame_length hnx) rest rfl)

/-- Every message came with a header that was accepted. -/
theorem parse_msgs_accept : ∀ {b : List β} {m : ι × List β}, m ∈ (F.parse b).msgs →
    ∃ h, h.length = F.headLen ∧ F.decode h = .accept m.1 m.2.length := by
  intro b
  refine F.parse_induction (P := fun b => ∀ {m : ι × List β}, m ∈ (F.parse b).msgs →
    ∃ h, h.length = F.headLen ∧ F.decode h = .accept m.1 m.2.length) ?_ ?_ b
  · intro b hstop m hm
    cases hnx : F.next b with
    | incomplete => rw [parse_incomplete hnx] at hm; cases hm
    | rejected => rw [parse_rejected hnx] at hm; cases hm
    | broken => rw [parse_broken hnx] at hm; cases hm
    | frame tag payload rest => exact absurd hnx (hstop _ _ _)
  · intro b tag payload rest hnx ih m hm
    rw [parse_frame hnx] at hm
    rcases List.mem_cons.mp hm with rfl | hm
    · obtain ⟨hd, _, hlong⟩ := next_frame_cases hnx
      exact ⟨b.take F.headLen, List.length_take_of_le hlong, hd⟩
    · exact ih hm

/-- Continue a parse with more input. -/
def feed (F : Format β ι) (p : Parsed β ι) (c : List β) : Parsed β ι :=
  match p.tail with
  | .pending r => ⟨p.msgs ++ (F.parse (r ++ c)).msgs, (F.parse (r ++ c)).tail⟩
  | .rejected => p
  | .broken => p

theorem feed_pending {p : Parsed β ι} {r c : List β} (h : p.tail = .pending r) :
    F.feed p c = ⟨p.msgs ++ (F.parse (r ++ c)).msgs, (F.parse (r ++ c)).tail⟩ := by
  simp [feed, h]

/-- **Cutting a stream in two.** -/
theorem parse_append (b c : List β) : F.parse (b ++ c) = F.feed (F.parse b) c := by
  refine F.parse_induction (P := fun b => F.parse (b ++ c) = F.feed (F.parse b) c) ?_ ?_ b
  · intro b hstop
    have happ := F.next_append (b := b) (c := c)
    cases hnx : F.next b with
    | incomplete => simp [parse_incomplete hnx, feed]
    | rejected =>
      rw [hnx] at happ
      rw [parse_rejected hnx, parse_rejected happ]
      rfl
    | broken =>
      rw [hnx] at happ
      rw [parse_broken hnx, parse_broken happ]
      rfl
    | frame tag payload rest => exact absurd hnx (hstop _ _ _)
  · intro b tag payload rest hnx ih
    have happ := F.next_append (b := b) (c := c)
    rw [hnx] at happ
    rw [parse_frame happ, parse_frame hnx, ih]
    cases ht : (F.parse rest).tail <;> simp [feed, ht]

/-- What has been framed stays framed. -/
theorem mem_msgs_append {b c : List β} {m : ι × List β} (h : m ∈ (F.parse b).msgs) :
    m ∈ (F.parse (b ++ c)).msgs := by
  rw [parse_append]
  unfold feed
  split
  · exact List.mem_append_left _ h
  · exact h
  · exact h

/-- More input only adds messages behind the ones there are. -/
theorem msgs_append (b c : List β) :
    ∃ new, (F.parse (b ++ c)).msgs = (F.parse b).msgs ++ new := by
  rw [parse_append]
  unfold feed
  cases (F.parse b).tail with
  | pending r => exact ⟨_, rfl⟩
  | rejected | broken => exact ⟨[], (List.append_nil _).symm⟩

/-- **Cutting a stream behind a frame**: its first `k` messages are those of a part of it that
leaves nothing pending. -/
theorem exists_cut : ∀ {b : List β} {k : Nat}, k ≤ (F.parse b).msgs.length →
    ∃ pre post, b = pre ++ post ∧ F.parse pre = ⟨(F.parse b).msgs.take k, .pending []⟩ := by
  intro b
  refine F.parse_induction (P := fun b => ∀ {k : Nat}, k ≤ (F.parse b).msgs.length →
    ∃ pre post, b = pre ++ post ∧ F.parse pre = ⟨(F.parse b).msgs.take k, .pending []⟩) ?_ ?_ b
  · intro b hstop k hk
    have hnone : (F.parse b).msgs = [] := by
      cases hnx : F.next b with
      | incomplete => rw [parse_incomplete hnx]
      | rejected => rw [parse_rejected hnx]
      | broken => rw [parse_broken hnx]
      | frame tag payload rest => exact absurd hnx (hstop _ _ _)
    exact ⟨[], b, rfl, by rw [hnone, List.take_nil, parse_nil]⟩
  · intro b tag payload rest hnx ih k hk
    rw [parse_frame hnx] at hk ⊢
    cases k with
    | zero => exact ⟨[], b, rfl, by rw [List.take_zero, parse_nil]⟩
    | succ k =>
      obtain ⟨pre, post, hrest, hpre⟩ := ih (Nat.le_of_succ_le_succ hk)
      obtain ⟨hd, hb, hle⟩ := next_frame_cases hnx
      refine ⟨b.take F.headLen ++ (payload ++ pre), post, ?_, ?_⟩
      · rw [List.append_assoc, List.append_assoc, ← hrest]
        exact hb
      · rw [parse_frame (next_of_accept (List.length_take_of_le hle) hd), hpre]
        rfl

/-- The same behind a part that leaves nothing pending. -/
theorem exists_cut_from {b c : List β} {k : Nat} (hb : (F.parse b).tail = .pending [])
    (hlo : (F.parse b).msgs.length ≤ k) (hhi : k ≤ (F.parse (b ++ c)).msgs.length) :
    ∃ pre post, c = pre ++ post ∧
      F.parse (b ++ pre) = ⟨(F.parse (b ++ c)).msgs.take k, .pending []⟩ := by
  have happend : ∀ d, F.parse (b ++ d) =
      ⟨(F.parse b).msgs ++ (F.parse d).msgs, (F.parse d).tail⟩ := by
    intro d
    rw [parse_append, feed_pending hb, List.nil_append]
  rw [happend] at hhi
  obtain ⟨pre, post, hc, hpre⟩ := F.exists_cut (b := c) (k := k - (F.parse b).msgs.length)
    (by rw [List.length_append] at hhi; omega)
  refine ⟨pre, post, hc, ?_⟩
  rw [happend, happend, hpre, List.take_append, List.take_of_length_le hlo]

/-- A rejected or broken stream stays as it is, whatever follows. -/
theorem tail_append_of_ne_pending {b c : List β} (h : ∀ r, (F.parse b).tail ≠ .pending r) :
    F.parse (b ++ c) = F.parse b := by
  rw [parse_append]
  unfold feed
  cases ht : (F.parse b).tail with
  | pending r => exact absurd ht (h r)
  | rejected | broken => rfl

end Format

/-! ## Encoders -/

/-- An encoder for a format: every frame is a header of the right size and the payload, and the
header reads back as the tag and the payload's length. `dom` is where that is promised. -/
structure Encoder {β ι : Type*} (F : Format β ι) where
  dom : ι × List β → Prop
  head : ι × List β → List β
  head_length : ∀ m, dom m → (head m).length = F.headLen
  decode_head : ∀ m, dom m → F.decode (head m) = .accept m.1 m.2.length

namespace Encoder

variable {β ι : Type*} {F : Format β ι} (E : Encoder F)

/-- The frame of one message. -/
def encode (m : ι × List β) : List β := E.head m ++ m.2

variable {E}

theorem next_encode {m : ι × List β} (hm : E.dom m) (rest : List β) :
    F.next (E.encode m ++ rest) = .frame m.1 m.2 rest := by
  rw [encode, List.append_assoc]
  exact Format.next_of_accept (E.head_length m hm) (E.decode_head m hm)

/-- **Parsing what was encoded**, with anything behind it. -/
theorem parse_encode {ms : List (ι × List β)} (hms : ∀ m ∈ ms, E.dom m) (rest : List β) :
    F.parse (ms.flatMap E.encode ++ rest) =
      ⟨ms ++ (F.parse rest).msgs, (F.parse rest).tail⟩ := by
  induction ms with
  | nil => rfl
  | cons m ms ih =>
    rw [List.flatMap_cons, List.append_assoc,
      Format.parse_frame (next_encode (hms m List.mem_cons_self) _),
      ih fun m' hm' => hms m' (List.mem_cons_of_mem _ hm')]
    rfl

/-- **Encoding what was parsed** gives back every byte, when the encoder writes the very headers
the format accepts. -/
theorem encode_parse
    (hcanon : ∀ (h p : List β) (t : ι), h.length = F.headLen →
      F.decode h = .accept t p.length → E.head (t, p) = h)
    (b : List β) {r : List β} (hr : (F.parse b).tail = .pending r) :
    (F.parse b).msgs.flatMap E.encode ++ r = b := by
  revert hr
  refine F.parse_induction (P := fun b => (F.parse b).tail = .pending r →
    (F.parse b).msgs.flatMap E.encode ++ r = b) ?_ ?_ b
  · intro b hstop hr
    cases hnx : F.next b with
    | incomplete => rw [Format.parse_incomplete hnx] at hr ⊢; cases hr; rfl
    | rejected => rw [Format.parse_rejected hnx] at hr; cases hr
    | broken => rw [Format.parse_broken hnx] at hr; cases hr
    | frame tag payload rest => exact absurd hnx (hstop _ _ _)
  · intro b tag payload rest hnx ih hr
    obtain ⟨hd, hb, hle⟩ := Format.next_frame_cases hnx
    rw [Format.parse_frame hnx] at hr ⊢
    have hhead : E.head (tag, payload) = b.take F.headLen :=
      hcanon _ _ _ (by simp; omega) hd
    calc
      ((tag, payload) :: (F.parse rest).msgs).flatMap E.encode ++ r
          = E.head (tag, payload) ++ (payload ++
              ((F.parse rest).msgs.flatMap E.encode ++ r)) := by
            simp [encode]
      _ = b.take F.headLen ++ (payload ++ rest) := by rw [ih hr, hhead]
      _ = b := hb.symm

end Encoder
end Lib
end AsyncEchoServer
