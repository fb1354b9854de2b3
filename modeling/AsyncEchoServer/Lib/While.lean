import Mathlib.Data.List.Basic

/-!
# `Lib/While.lean` — a `while` loop that logs

A loop body is a function from the loop's variables to the effects of one pass and a verdict:
go round **again** with new variables, or **leave** the function with a result. `whileLog`
runs such a body under a guard, and a step bound stands in for the fact that a C-like loop
need not stop.

One rule is proved about it, and it is a *total* one. From an invariant `I` over the variables
and the effects so far, and a measure that every further pass decreases, `whileLog_spec`
concludes that any bound above the measure is enough, and that the way out satisfies the
postcondition on the whole log. Partial correctness alone would be satisfied by a loop that
never comes back.

`Visits` are the states in which the loop is at its head, with the number of passes before. What
has to hold there, rather than on the way out, is `Visits.invariant`; the same measure bounds the
passes (`Visits.measure_le`), and the way out is from the last of them (`Visits.exit`).
-/

set_option autoImplicit false

namespace AsyncEchoServer
namespace Lib

/-- What one pass through a loop body decides. -/
inductive Pass (σ ρ : Type*) where
  /-- reach the end of the body, or `continue` -/
  | again (s : σ)
  /-- `return`, or an exception -/
  | leave (r : ρ)
  deriving Repr, DecidableEq

variable {σ ρ ε : Type*}

/-- `while (guard) body`, then `done`. `none` only when the bound runs out. -/
def whileLog (guard : σ → Bool) (body : σ → List ε × Pass σ ρ) (done : σ → ρ) :
    Nat → σ → Option (List ε × ρ)
  | 0, _ => none
  | n + 1, s =>
    if guard s then
      match body s with
      | (log, .leave r) => some (log, r)
      | (log, .again s') => (whileLog guard body done n s').map fun out => (log ++ out.1, out.2)
    else some ([], done s)

variable {guard : σ → Bool} {body : σ → List ε × Pass σ ρ} {done : σ → ρ}

theorem whileLog_exit {n : Nat} {s : σ} (hg : guard s = false) :
    whileLog guard body done (n + 1) s = some ([], done s) := by
  simp [whileLog, hg]

theorem whileLog_leave {n : Nat} {s : σ} {log : List ε} {r : ρ} (hg : guard s = true)
    (hb : body s = (log, .leave r)) :
    whileLog guard body done (n + 1) s = some (log, r) := by
  simp [whileLog, hg, hb]

theorem whileLog_again {n : Nat} {s s' : σ} {log : List ε} (hg : guard s = true)
    (hb : body s = (log, .again s')) :
    whileLog guard body done (n + 1) s =
      (whileLog guard body done n s').map fun out => (log ++ out.1, out.2) := by
  simp [whileLog, hg, hb]

/-- **The total rule.** One obligation per way a pass can end, and the loop comes back with the
postcondition on everything it logged. -/
theorem whileLog_spec {I : σ → List ε → Prop} {Q : ρ → List ε → Prop} (μ : σ → Nat)
    (hagain : ∀ s log e s', I s log → guard s = true → body s = (e, .again s') →
      I s' (log ++ e) ∧ μ s' < μ s)
    (hleave : ∀ s log e r, I s log → guard s = true → body s = (e, .leave r) → Q r (log ++ e))
    (hdone : ∀ s log, I s log → guard s = false → Q (done s) log) :
    ∀ n s log, μ s < n → I s log →
      ∃ e r, whileLog guard body done n s = some (e, r) ∧ Q r (log ++ e) := by
  intro n
  induction n with
  | zero => intro s log hμ _; omega
  | succ n ih =>
    intro s log hμ hI
    cases hg : guard s with
    | false =>
      exact ⟨[], done s, whileLog_exit hg, by simpa using hdone s log hI hg⟩
    | true =>
      rcases hb : body s with ⟨e, p⟩
      cases p with
      | leave r => exact ⟨e, r, whileLog_leave hg hb, hleave s log e r hI hg hb⟩
      | again s' =>
        obtain ⟨hI', hlt⟩ := hagain s log e s' hI hg hb
        obtain ⟨e', r, hrun, hQ⟩ := ih s' (log ++ e) (by omega) hI'
        refine ⟨e ++ e', r, ?_, by simpa [List.append_assoc] using hQ⟩
        rw [whileLog_again hg hb, hrun]
        rfl

/-- Started in `s`, the loop is at its head in the state given, that many passes later. -/
inductive Visits (guard : σ → Bool) (body : σ → List ε × Pass σ ρ) (s : σ) : Nat → σ → Prop where
  | entry : Visits guard body s 0 s
  | again {k : Nat} {t t' : σ} {log : List ε} (before : Visits guard body s k t)
      (hg : guard t = true) (hb : body t = (log, .again t')) : Visits guard body s (k + 1) t'

theorem Visits.invariant {I : σ → Prop} {s : σ}
    (hagain : ∀ s log s', I s → guard s = true → body s = (log, .again s') → I s') (h₀ : I s)
    {k : Nat} {t : σ} (h : Visits guard body s k t) : I t := by
  induction h with
  | entry => exact h₀
  | again _ hg hb ih => exact hagain _ _ _ ih hg hb

/-- The passes so far are paid for by the measure. -/
theorem Visits.measure_le {I : σ → Prop} (μ : σ → Nat) {s : σ}
    (hagain : ∀ s log s', I s → guard s = true → body s = (log, .again s') → I s' ∧ μ s' < μ s)
    (h₀ : I s) {k : Nat} {t : σ} (h : Visits guard body s k t) : k + μ t ≤ μ s := by
  induction h with
  | entry => exact Nat.le_of_eq (Nat.zero_add _)
  | again before hg hb ih =>
    have hI := before.invariant (fun s log s' hs hg hb => (hagain s log s' hs hg hb).1) h₀
    have hlt := (hagain _ _ _ hI hg hb).2
    omega

/-- A loop that comes back does so from one of its heads: by the pass that starts there, or by the
guard. -/
theorem Visits.exit {s : σ} {n k : Nat} {t : σ} {log : List ε} {r : ρ}
    (h : Visits guard body s k t) (hrun : whileLog guard body done n t = some (log, r)) :
    ∃ k' t', Visits guard body s k' t' ∧
      ((guard t' = true ∧ ∃ e, body t' = (e, .leave r)) ∨ (guard t' = false ∧ r = done t')) := by
  induction n generalizing k t log with
  | zero => cases hrun
  | succ n ih =>
    cases hg : guard t with
    | false =>
      rw [whileLog_exit hg] at hrun
      cases hrun
      exact ⟨k, t, h, Or.inr ⟨hg, rfl⟩⟩
    | true =>
      rcases hb : body t with ⟨e, p⟩
      cases p with
      | leave r' =>
        rw [whileLog_leave hg hb] at hrun
        cases hrun
        exact ⟨k, t, h, Or.inl ⟨hg, _, hb⟩⟩
      | again t' =>
        rw [whileLog_again hg hb] at hrun
        obtain ⟨⟨log', r'⟩, hrest, heq⟩ := Option.map_eq_some_iff.mp hrun
        cases heq
        exact ih (h.again hg hb) hrest

end Lib
end AsyncEchoServer
