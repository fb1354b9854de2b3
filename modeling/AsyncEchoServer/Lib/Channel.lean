import AsyncEchoServer.Lib.System

/-!
# `Lib/Channel.lean` — a first-in first-out channel that may close

What enters is remembered for good, a counter says how much of it has passed, and that the
counter stays inside is a field. So "in order, nothing lost, nothing twice" is not a property of
a channel, it is what a channel is: what has passed is a prefix of what entered, and what has
not passed is the rest.

A queue with a worker behind it is correct when it simulates `Channel.system`.
-/

set_option autoImplicit false

namespace AsyncEchoServer
namespace Lib

structure Channel (α : Type*) where
  entered : List α
  passed : Nat
  passed_le : passed ≤ entered.length
  closed : Bool

namespace Channel

variable {α : Type*}

/-- What has passed. -/
def out (c : Channel α) : List α := c.entered.take c.passed

/-- What has entered and not passed. -/
def waiting (c : Channel α) : List α := c.entered.drop c.passed

theorem out_append_waiting (c : Channel α) : c.out ++ c.waiting = c.entered :=
  List.take_append_drop _ _

def empty : Channel α where
  entered := []
  passed := 0
  passed_le := Nat.le_refl 0
  closed := false

def enter (c : Channel α) (a : α) : Channel α where
  entered := c.entered ++ [a]
  passed := c.passed
  passed_le := by
    rw [List.length_append]
    exact Nat.le_trans c.passed_le (Nat.le_add_right _ _)
  closed := c.closed

def close (c : Channel α) : Channel α := { c with closed := true }

/-- The next one passes, while the channel is open. -/
def pass (c : Channel α) : Option (Channel α) :=
  if h : c.closed = false ∧ c.passed < c.entered.length then
    some { c with passed := c.passed + 1, passed_le := h.2 }
  else none

inductive Act (α : Type*) where
  | enter (a : α)
  | pass
  | close

def system : System (Channel α) (Act α) where
  init := empty
  step c
    | .enter a => some (c.enter a)
    | .pass => c.pass
    | .close => some c.close

@[simp] theorem out_enter (c : Channel α) (a : α) : (c.enter a).out = c.out :=
  List.take_append_of_le_length c.passed_le

@[simp] theorem waiting_enter (c : Channel α) (a : α) :
    (c.enter a).waiting = c.waiting ++ [a] := List.drop_append_of_le_length c.passed_le

/-- The one that passes is the first one waiting. -/
theorem pass_of_waiting {c : Channel α} {a : α} {rest : List α} (hopen : c.closed = false)
    (hw : c.waiting = a :: rest) :
    ∃ c', c.pass = some c' ∧ c'.out = c.out ++ [a] ∧ c'.waiting = rest ∧
      c'.entered = c.entered ∧ c'.closed = c.closed := by
  have hlt : c.passed < c.entered.length := by
    by_contra hge
    rw [waiting, List.drop_of_length_le (Nat.not_lt.mp hge)] at hw
    cases hw
  have hdrop := List.drop_eq_getElem_cons hlt
  rw [← waiting, hw] at hdrop
  injection hdrop with ha hrest
  refine ⟨{ c with passed := c.passed + 1, passed_le := hlt }, by rw [pass, dif_pos ⟨hopen, hlt⟩],
    ?_, hrest.symm, rfl, rfl⟩
  rw [ha]
  exact (List.take_append_getElem hlt).symm

/-- One step only adds at the end of both lists. -/
theorem step_prefix {c c' : Channel α} {act : Act α} (h : system.step c act = some c') :
    c.entered <+: c'.entered ∧ c.out <+: c'.out := by
  cases act with
  | enter a =>
    cases h
    exact ⟨List.prefix_append _ _, ⟨[], by rw [out_enter, List.append_nil]⟩⟩
  | close =>
    cases h
    exact ⟨List.prefix_refl _, List.prefix_refl _⟩
  | pass =>
    have h' : c.pass = some c' := h
    unfold pass at h'
    split at h'
    · cases h'
      exact ⟨List.prefix_refl _, List.take_prefix_take_left (Nat.le_succ _)⟩
    · cases h'

theorem run_prefix {c c' : Channel α} {acts : List (Act α)} (h : system.run c acts = some c') :
    c.entered <+: c'.entered ∧ c.out <+: c'.out := by
  induction acts generalizing c with
  | nil =>
    cases h
    exact ⟨List.prefix_refl _, List.prefix_refl _⟩
  | cons act acts ih =>
    rw [System.run_cons] at h
    obtain ⟨c₁, h₁, hrest⟩ := Option.bind_eq_some_iff.mp h
    obtain ⟨he, ho⟩ := step_prefix h₁
    obtain ⟨he', ho'⟩ := ih hrest
    exact ⟨he.trans he', ho.trans ho'⟩

/-- Nothing passes a closed channel. -/
theorem run_closed {c c' : Channel α} {acts : List (Act α)} (hc : c.closed = true)
    (h : system.run c acts = some c') : c'.out = c.out ∧ c'.closed = true := by
  induction acts generalizing c with
  | nil =>
    cases h
    exact ⟨rfl, hc⟩
  | cons act acts ih =>
    rw [System.run_cons] at h
    obtain ⟨c₁, h₁, hrest⟩ := Option.bind_eq_some_iff.mp h
    cases act with
    | enter a =>
      cases h₁
      obtain ⟨ho, hc'⟩ := ih (c := c.enter a) hc hrest
      exact ⟨ho.trans (out_enter c a), hc'⟩
    | close =>
      cases h₁
      exact ih (c := c.close) rfl hrest
    | pass =>
      have h' : c.pass = some c₁ := h₁
      rw [pass, dif_neg (fun hcond => by rw [hc] at hcond; exact absurd hcond.1 (by decide))] at h'
      cases h'

end Channel
end Lib
end AsyncEchoServer
