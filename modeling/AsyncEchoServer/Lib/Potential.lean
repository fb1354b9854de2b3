import AsyncEchoServer.Lib.System

/-!
# `Lib/Potential.lean` — runs that use something up

A potential is a number kept with the states of a system. The actions of a system are its own
(`internal`), and what comes from outside. An internal action takes something out of the potential,
and the others put in at most their `credit`; so a run has as many internal actions as there was at
the start and has been put in on the way, and no more (`Potential.run`). By itself the system comes
to a state where no internal action is enabled, and there is one (`Potential.exists_quiet`).

A system need not pay everywhere. `good` says of a state that nothing has gone wrong on the way to
it, so a state before a good one is good.
-/

set_option autoImplicit false

namespace AsyncEchoServer
namespace Lib
namespace System

variable {σ α : Type*}

/-- What the actions of a run put in. -/
def granted (credit : α → Nat) : List α → Nat
  | [] => 0
  | a :: as => credit a + granted credit as

structure Potential (M : System σ α) where
  good : σ → Prop
  value : σ → Nat
  internal : α → Bool
  credit : α → Nat
  before : ∀ {s s' : σ} {a : α}, M.step s a = some s' → good s' → good s
  uncredited : ∀ {a : α}, internal a = true → credit a = 0
  pays : ∀ {s s' : σ} {a : α}, M.Reachable s → good s → M.step s a = some s' →
    (value s' + if internal a then 1 else 0) ≤ value s + credit a

namespace Potential

variable {M : System σ α} (P : Potential M)

/-- **The potential of a run**: what its internal actions took was there, or has been put in. -/
theorem run {s s' : σ} {as : List α} (hr : M.Reachable s) (h : M.run s as = some s')
    (hgood : P.good s') :
    P.value s' + as.countP P.internal ≤ P.value s + granted P.credit as := by
  induction as generalizing s with
  | nil =>
    cases h
    exact Nat.le_refl _
  | cons a as ih =>
    have hstart := run_before P.before h hgood
    rw [run_cons] at h
    obtain ⟨t, ht, hrest⟩ := Option.bind_eq_some_iff.mp h
    have hstep := P.pays hr hstart ht
    have hmore := ih (hr.step ht) hrest
    rw [List.countP_cons, granted]
    omega

/-- When nothing puts in more than `c`, what comes from outside counts `c` times at most. -/
theorem run_le {s s' : σ} {as : List α} {c : Nat} (hr : M.Reachable s) (h : M.run s as = some s')
    (hgood : P.good s') (hc : ∀ a ∈ as, P.credit a ≤ c) :
    P.value s' + as.countP P.internal ≤ P.value s + c * as.countP (!P.internal ·) := by
  have hrun := P.run hr h hgood
  have hcredit : granted P.credit as ≤ c * as.countP (!P.internal ·) := by
    clear hrun h
    induction as with
    | nil => exact Nat.zero_le _
    | cons a as ih =>
      have hmore := ih fun b hb => hc b (List.mem_cons_of_mem a hb)
      rw [granted, List.countP_cons]
      cases ha : P.internal a with
      | true =>
        rw [P.uncredited ha, Nat.zero_add]
        exact hmore
      | false =>
        have hone := hc a List.mem_cons_self
        rw [Bool.not_false, if_pos rfl, Nat.mul_succ, Nat.add_comm]
        exact Nat.add_le_add hmore hone
  exact Nat.le_trans hrun (Nat.add_le_add_left hcredit _)

/-- By itself a system takes no more steps than its potential has. -/
theorem run_length {s s' : σ} {as : List α} (hr : M.Reachable s) (h : M.run s as = some s')
    (hgood : P.good s') (has : ∀ a ∈ as, P.internal a = true) : as.length ≤ P.value s := by
  have hrun := P.run_le (c := 0) hr h hgood fun a ha => Nat.le_of_eq (P.uncredited (has a ha))
  rw [List.countP_eq_length.mpr has, Nat.zero_mul] at hrun
  exact Nat.le_trans (Nat.le_add_left ..) hrun

/-- And it comes to rest. -/
theorem exists_quiet
    (hgoes : ∀ {s s' : σ} {a : α}, P.internal a = true → P.good s → M.step s a = some s' → P.good s')
    {s : σ} (hr : M.Reachable s) (hgood : P.good s) :
    ∃ as s', (∀ a ∈ as, P.internal a = true) ∧ M.run s as = some s' ∧ P.good s' ∧
      ∀ a, P.internal a = true → M.step s' a = none := by
  -- on the potential, which every internal action lowers
  induction hn : P.value s using Nat.strongRecOn generalizing s with
  | ind n ih =>
    by_cases hquiet : ∀ a, P.internal a = true → M.step s a = none
    · exact ⟨[], s, fun _ ha => absurd ha List.not_mem_nil, rfl, hgood, hquiet⟩
    · simp only [not_forall] at hquiet
      obtain ⟨a, ha, hsome⟩ := hquiet
      obtain ⟨t, ht⟩ := Option.ne_none_iff_exists'.mp hsome
      have hpays := P.pays hr hgood ht
      have hlt : P.value t < n := by
        rw [P.uncredited ha, ha, if_pos rfl] at hpays
        omega
      obtain ⟨as, s', has, hrun, hrest⟩ := ih _ hlt (hr.step ht) (hgoes ha hgood ht) rfl
      refine ⟨a :: as, s', fun b hb => ?_, by rw [run_of_step ht, hrun], hrest⟩
      rcases List.mem_cons.mp hb with rfl | hb
      · exact ha
      · exact has b hb

end Potential
end System
end Lib
end AsyncEchoServer
