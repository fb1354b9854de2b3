import Mathlib.Data.List.Basic
import Mathlib.Data.List.Induction

/-!
# `Lib/System.lean` — labelled step systems

A system is a start state and a partial step function: `step s a = some s'` when action `a` is
enabled in `s`. Interleavings are lists of actions, so "in every reachable state" is "after
every list of actions that runs".

`Reachable.invariant` is the one induction every safety result uses. `run_prefix_iff` is for a law
that holds only while some bad step is avoided: it says of every run that the law holds all along
exactly when the step is; `run_steps_iff` is the same for a law about steps, and `run_history_iff`
for one that looks back at what has happened. `Simulation` carries results from an abstract system
down to a concrete one.
-/

set_option autoImplicit false

namespace AsyncEchoServer
namespace Lib

/-- A deterministic system once the action is named; the nondeterminism is in the choice of
actions. -/
structure System (σ α : Type*) where
  init : σ
  step : σ → α → Option σ

namespace System

variable {σ α τ β : Type*} (M : System σ α)

/-- Run a list of actions; `none` as soon as one of them is not enabled. -/
def run : σ → List α → Option σ
  | s, [] => some s
  | s, a :: as =>
    match M.step s a with
    | none => none
    | some s' => run s' as

inductive Reachable : σ → Prop where
  | init : Reachable M.init
  | step {s s' : σ} {a : α} : Reachable s → M.step s a = some s' → Reachable s'

variable {M}

@[simp] theorem run_nil (s : σ) : M.run s [] = some s := rfl

theorem run_cons {s : σ} {a : α} {as : List α} :
    M.run s (a :: as) = (M.step s a).bind (M.run · as) := by
  cases h : M.step s a <;> simp [run, h]

theorem run_of_step {s s' : σ} {a : α} {as : List α} (h : M.step s a = some s') :
    M.run s (a :: as) = M.run s' as := by
  rw [run_cons, h, Option.bind_some]

theorem run_one {s s' : σ} {a : α} (h : M.step s a = some s') : M.run s [a] = some s' := by
  rw [run_of_step h, run_nil]

theorem run_append {s : σ} {as bs : List α} :
    M.run s (as ++ bs) = (M.run s as).bind (M.run · bs) := by
  induction as generalizing s with
  | nil => rfl
  | cons a as ih =>
    rw [List.cons_append, run_cons, run_cons]
    cases M.step s a with
    | none => rfl
    | some s' => exact ih

theorem run_snoc {s : σ} {as : List α} {a : α} :
    M.run s (as ++ [a]) = (M.run s as).bind (M.step · a) := by
  rw [run_append]
  refine congrArg _ (funext fun t => ?_)
  rw [run_cons]
  exact Option.bind_fun_some _

theorem Reachable.run {s s' : σ} {as : List α} (hr : M.Reachable s)
    (h : M.run s as = some s') : M.Reachable s' := by
  induction as generalizing s with
  | nil => cases h; exact hr
  | cons a as ih =>
    rw [run_cons] at h
    obtain ⟨t, ht, hrest⟩ := Option.bind_eq_some_iff.mp h
    exact ih (hr.step ht) hrest

theorem Reachable.of_run {s : σ} {as : List α} (h : M.run M.init as = some s) :
    M.Reachable s := Reachable.init.run h

/-- Every reachable state is the end of a run from the start. -/
theorem Reachable.exists_run {s : σ} (h : M.Reachable s) :
    ∃ as, M.run M.init as = some s := by
  induction h with
  | init => exact ⟨[], rfl⟩
  | @step s s' a _ hs ih =>
    obtain ⟨as, has⟩ := ih
    exact ⟨as ++ [a], by rw [run_snoc, has]; exact hs⟩

/-- **The invariant rule.** -/
theorem Reachable.invariant {I : σ → Prop} (h₀ : I M.init)
    (hstep : ∀ {s s' : σ} {a : α}, I s → M.step s a = some s' → I s') {s : σ}
    (h : M.Reachable s) : I s := by
  induction h with
  | init => exact h₀
  | step _ hs ih => exact hstep ih hs

/-- What runs can be stopped anywhere. -/
theorem run_of_prefix {s s' : σ} {as pre : List α} (h : M.run s as = some s')
    (hpre : pre <+: as) : ∃ t, M.run s pre = some t := by
  obtain ⟨rest, rfl⟩ := hpre
  rw [run_append] at h
  obtain ⟨t, ht, _⟩ := Option.bind_eq_some_iff.mp h
  exact ⟨t, ht⟩

/-- What every one of its steps keeps, a run keeps. -/
theorem run_keeps {A : α → Prop} {G : σ → Prop}
    (hkeep : ∀ {s s' : σ} {a : α}, A a → G s → M.step s a = some s' → G s') {s s' : σ}
    {as : List α} (has : ∀ a ∈ as, A a) (h : M.run s as = some s') (hG : G s) : G s' := by
  induction as generalizing s with
  | nil =>
    cases h
    exact hG
  | cons a as ih =>
    rw [run_cons] at h
    obtain ⟨t, ht, hrest⟩ := Option.bind_eq_some_iff.mp h
    exact ih (fun b hb => has b (List.mem_cons_of_mem a hb)) hrest
      (hkeep (has a List.mem_cons_self) hG ht)

/-- What holds before a state where it holds, it holds at the start of a run that ends in one. -/
theorem run_before {G : σ → Prop}
    (hbefore : ∀ {s s' : σ} {a : α}, M.step s a = some s' → G s' → G s) {s s' : σ} {as : List α}
    (h : M.run s as = some s') (hG : G s') : G s := by
  induction as generalizing s with
  | nil =>
    cases h
    exact hG
  | cons a as ih =>
    rw [run_cons] at h
    obtain ⟨t, ht, hrest⟩ := Option.bind_eq_some_iff.mp h
    exact hbefore ht (ih hrest)

/-- … and everywhere on the way there. -/
theorem before_of_run {G : σ → Prop}
    (hbefore : ∀ {s s' : σ} {a : α}, M.step s a = some s' → G s' → G s) {s t u : σ}
    {as pre : List α} (h : M.run s as = some t) (hG : G t) (hpre : pre <+: as)
    (hu : M.run s pre = some u) : G u := by
  obtain ⟨rest, rfl⟩ := hpre
  rw [run_append, hu] at h
  exact run_before hbefore h hG

/-- When the steps that meet `C` keep `I` and the others break it, as long as the states have `G`, a
run that ends in `G` has `I` all along exactly when all its steps meet `C`. Both may look at the run
so far. -/
theorem run_history_iff {G : σ → Prop} {I : List α → σ → Prop} {C : List α → σ → α → Prop}
    (hbefore : ∀ {s s' : σ} {a : α}, M.step s a = some s' → G s' → G s) (h₀ : I [] M.init)
    (hgood : ∀ {pre : List α} {s s' : σ} {a : α}, M.run M.init pre = some s → G s' → I pre s →
      C pre s a → M.step s a = some s' → I (pre ++ [a]) s')
    (hbad : ∀ {pre : List α} {s s' : σ} {a : α}, M.run M.init pre = some s → ¬ C pre s a →
      M.step s a = some s' → ¬ I (pre ++ [a]) s') {as : List α} {t : σ}
    (h : M.run M.init as = some t) (hG : G t) :
    (∀ pre s, pre <+: as → M.run M.init pre = some s → I pre s) ↔
      ∀ pre a s, pre ++ [a] <+: as → M.run M.init pre = some s → C pre s a := by
  constructor
  · intro hI pre a s hpre hs
    by_contra hc
    obtain ⟨s', hs'⟩ := run_of_prefix h hpre
    have hstep := hs'
    rw [run_snoc, hs] at hstep
    exact hbad hs hc hstep (hI _ _ hpre hs')
  · intro hC pre s hpre hs
    induction pre using List.reverseRecOn generalizing s with
    | nil =>
      cases hs
      exact h₀
    | append_singleton pre a ih =>
      have hshort : pre <+: as := (List.prefix_append pre [a]).trans hpre
      have hGs : G s := before_of_run hbefore h hG hpre hs
      rw [run_snoc] at hs
      obtain ⟨s₁, hs₁, hstep⟩ := Option.bind_eq_some_iff.mp hs
      exact hgood hs₁ hGs (ih s₁ hshort hs₁) (hC pre a s₁ hpre hs₁) hstep

/-- … for a law about states. -/
theorem run_good_prefix_iff {G I : σ → Prop} {C : σ → α → Prop}
    (hbefore : ∀ {s s' : σ} {a : α}, M.step s a = some s' → G s' → G s) (h₀ : I M.init)
    (hgood : ∀ {s s' : σ} {a : α}, M.Reachable s → G s' → I s → C s a → M.step s a = some s' → I s')
    (hbad : ∀ {s s' : σ} {a : α}, ¬ C s a → M.step s a = some s' → ¬ I s') {as : List α} {t : σ}
    (h : M.run M.init as = some t) (hG : G t) :
    (∀ pre s, pre <+: as → M.run M.init pre = some s → I s) ↔
      ∀ pre a s, pre ++ [a] <+: as → M.run M.init pre = some s → C s a :=
  run_history_iff (I := fun _ => I) (C := fun _ => C) hbefore h₀ (fun hs => hgood (.of_run hs))
    (fun _ => hbad) h hG

/-- When the steps that meet `C` keep `I` and the others break it, a run has `I` all along
exactly when all its steps meet `C`. -/
theorem run_prefix_iff {I : σ → Prop} {C : σ → α → Prop} (h₀ : I M.init)
    (hgood : ∀ {s s' : σ} {a : α}, I s → C s a → M.step s a = some s' → I s')
    (hbad : ∀ {s s' : σ} {a : α}, ¬ C s a → M.step s a = some s' → ¬ I s') {as : List α} {t : σ}
    (h : M.run M.init as = some t) :
    (∀ pre s, pre <+: as → M.run M.init pre = some s → I s) ↔
      ∀ pre a s, pre ++ [a] <+: as → M.run M.init pre = some s → C s a :=
  run_good_prefix_iff (G := fun _ => True) (fun _ _ => trivial) h₀ (fun _ _ => hgood) hbad h trivial

/-- In the course of the run a step has been taken that meets `T`. -/
def Happened (M : System σ α) (T : σ → α → Prop) (as : List α) : Prop :=
  ∃ pre a s, pre ++ [a] <+: as ∧ M.run M.init pre = some s ∧ T s a

theorem not_happened_nil {T : σ → α → Prop} : ¬ M.Happened T [] := by
  rintro ⟨pre, a, _, hpre, _⟩
  exact List.append_ne_nil_of_right_ne_nil pre (List.cons_ne_nil a []) (List.prefix_nil.mp hpre)

theorem happened_snoc {T : σ → α → Prop} {as : List α} {a : α} {s : σ}
    (hs : M.run M.init as = some s) :
    M.Happened T (as ++ [a]) ↔ M.Happened T as ∨ T s a := by
  constructor
  · rintro ⟨pre, b, t, hpre, ht, hT⟩
    rcases List.prefix_concat_iff.mp hpre with heq | hpre
    · obtain ⟨rfl, rfl⟩ := List.append_singleton_inj.mp heq
      rw [hs] at ht
      cases ht
      exact Or.inr hT
    · exact Or.inl ⟨pre, b, t, hpre, ht, hT⟩
  · rintro (⟨pre, b, t, hpre, hrest⟩ | hT)
    · exact ⟨pre, b, t, hpre.trans (List.prefix_append as [a]), hrest⟩
    · exact ⟨as, a, s, List.prefix_rfl, hs, hT⟩

/-- What holds at the end of a run and not at the start has been brought about by one of its
steps. -/
theorem exists_cause {Q : σ → Prop} {T : σ → α → Prop} (h₀ : ¬ Q M.init)
    (hstep : ∀ {s s' : σ} {a : α}, M.Reachable s → Q s' → M.step s a = some s' → Q s ∨ T s a)
    {as : List α} {t : σ} (h : M.run M.init as = some t) (hQ : Q t) : M.Happened T as := by
  induction as using List.reverseRecOn generalizing t with
  | nil =>
    cases h
    exact absurd hQ h₀
  | append_singleton as a ih =>
    rw [run_snoc] at h
    obtain ⟨s, hs, hlast⟩ := Option.bind_eq_some_iff.mp h
    rw [happened_snoc hs]
    exact (hstep (.of_run hs) hQ hlast).imp_left (ih hs)

/-- What a step brings about, and no step undoes, holds at the end. -/
theorem of_cause {P : σ → Prop} {T : σ → α → Prop}
    (hcause : ∀ {s s' : σ} {a : α}, M.Reachable s → T s a → M.step s a = some s' → P s')
    (hkeep : ∀ {s s' : σ} {a : α}, P s → M.step s a = some s' → P s')
    {as : List α} {t : σ} (h : M.run M.init as = some t) (hT : M.Happened T as) : P t := by
  obtain ⟨pre, a, s, ⟨rest, rfl⟩, hs, hT⟩ := hT
  rw [run_append, run_snoc, hs] at h
  obtain ⟨s', hs', hrest⟩ := Option.bind_eq_some_iff.mp h
  exact run_keeps (A := fun _ => True) (fun _ hP hu => hkeep hP hu) (fun _ _ => trivial) hrest
    (hcause (.of_run hs) hT hs')

/-- When what `P` says of a step is what `C` says of its start, the steps of a run have `P`
exactly when they meet `C`. -/
theorem run_steps_iff {P : σ → σ → Prop} {C : σ → α → Prop}
    (hiff : ∀ {s s' : σ} {a : α}, M.Reachable s → M.step s a = some s' → (P s s' ↔ C s a))
    {as : List α} {t : σ} (h : M.run M.init as = some t) :
    (∀ pre a s s', pre ++ [a] <+: as → M.run M.init pre = some s → M.step s a = some s' →
      P s s') ↔ ∀ pre a s, pre ++ [a] <+: as → M.run M.init pre = some s → C s a := by
  constructor
  · intro hP pre a s hpre hs
    obtain ⟨s', hs'⟩ := run_of_prefix h hpre
    rw [run_snoc, hs] at hs'
    exact (hiff (.of_run hs) hs').mp (hP pre a s s' hpre hs hs')
  · intro hC pre a s s' hpre hs hstep
    exact (hiff (.of_run hs) hstep).mpr (hC pre a s hpre hs)

theorem mem_of_prefix_snoc {pre as : List α} {a : α} (h : pre ++ [a] <+: as) : a ∈ as :=
  h.subset (List.mem_append_right _ (List.mem_singleton_self a))

theorem prefix_snoc_iff {pre as : List α} {a : α} :
    pre ++ [a] <+: as ↔ ∃ k, as[k]? = some a ∧ pre = as.take k := by
  constructor
  · rintro ⟨rest, rfl⟩
    exact ⟨pre.length, by simp, by simp⟩
  · rintro ⟨k, hk, rfl⟩
    obtain ⟨hlt, rfl⟩ := List.getElem?_eq_some_iff.mp hk
    rw [List.take_append_getElem hlt]
    exact List.take_prefix (k + 1) as

theorem prefix_snoc_cons {pre as : List α} {a b : α} :
    pre ++ [b] <+: a :: as ↔ (pre = [] ∧ b = a) ∨ ∃ rest, pre = a :: rest ∧ rest ++ [b] <+: as := by
  cases pre with
  | nil => simp [List.cons_prefix_cons]
  | cons c rest =>
    rw [List.cons_append, List.cons_prefix_cons]
    constructor
    · rintro ⟨rfl, hpre⟩
      exact Or.inr ⟨rest, rfl, hpre⟩
    · rintro (⟨hnil, _⟩ | ⟨rest', heq, hpre⟩)
      · cases hnil
      · cases heq
        exact ⟨rfl, hpre⟩

/-- The steps of a run that starts with `a` are that step and the steps of the rest. -/
theorem forall_steps_cons {C : σ → α → Prop} {s s' : σ} {a : α} {as : List α}
    (h : M.step s a = some s') :
    (∀ pre b t, pre ++ [b] <+: a :: as → M.run s pre = some t → C t b) ↔
      C s a ∧ ∀ pre b t, pre ++ [b] <+: as → M.run s' pre = some t → C t b := by
  constructor
  · intro hall
    refine ⟨hall [] a s (prefix_snoc_cons.mpr (Or.inl ⟨rfl, rfl⟩)) rfl, ?_⟩
    intro pre b t hpre hrun
    refine hall (a :: pre) b t (prefix_snoc_cons.mpr (Or.inr ⟨pre, rfl, hpre⟩)) ?_
    rw [run_of_step h]
    exact hrun
  · rintro ⟨hhead, htail⟩ pre b t hpre hrun
    rcases prefix_snoc_cons.mp hpre with ⟨rfl, rfl⟩ | ⟨rest, rfl, hrest⟩
    · cases hrun
      exact hhead
    · rw [run_of_step h] at hrun
      exact htail rest b t hrest hrun

theorem forall_steps_nil {C : σ → α → Prop} {s : σ} :
    ∀ pre b t, pre ++ [b] <+: ([] : List α) → M.run s pre = some t → C t b := by
  intro pre b t hpre _
  have hnil := List.prefix_nil.mp hpre
  simp at hnil

/-- The steps of a run in two parts. -/
theorem forall_steps_append {C : σ → α → Prop} {s t : σ} {as bs : List α}
    (h : M.run s as = some t) :
    (∀ pre b u, pre ++ [b] <+: as ++ bs → M.run s pre = some u → C u b) ↔
      (∀ pre b u, pre ++ [b] <+: as → M.run s pre = some u → C u b) ∧
        ∀ pre b u, pre ++ [b] <+: bs → M.run t pre = some u → C u b := by
  induction as generalizing s with
  | nil =>
    cases h
    exact ⟨fun hall => ⟨forall_steps_nil, hall⟩, fun hall => hall.2⟩
  | cons a as ih =>
    rw [run_cons] at h
    obtain ⟨s₁, hs₁, hrest⟩ := Option.bind_eq_some_iff.mp h
    rw [List.cons_append, forall_steps_cons hs₁, forall_steps_cons hs₁, ih hrest, and_assoc]

/-- A simulation: the states that stand for each other, and for every step of `M` a run of `N`
that stays in step with it. -/
structure Simulation (M : System σ α) (N : System τ β) where
  rel : σ → τ → Prop
  init : rel M.init N.init
  step : ∀ {s s' : σ} {t : τ} {a : α}, M.Reachable s → N.Reachable t → rel s t →
    M.step s a = some s' → ∃ bs t', N.run t bs = some t' ∧ rel s' t'

/-- Every reachable state of `M` stands for a reachable state of `N`. -/
theorem Simulation.reachable {N : System τ β} (S : Simulation M N) {s : σ}
    (h : M.Reachable s) : ∃ t, N.Reachable t ∧ S.rel s t := by
  induction h with
  | init => exact ⟨N.init, .init, S.init⟩
  | step hr hs ih =>
    obtain ⟨t, ht, hrel⟩ := ih
    obtain ⟨_, t', hrun, hrel'⟩ := S.step hr ht hrel hs
    exact ⟨t', ht.run hrun, hrel'⟩

/-- … and every run of `M` for a run of `N`. -/
theorem Simulation.run {N : System τ β} (S : Simulation M N) {s s' : σ} {t : τ} {as : List α}
    (hs : M.Reachable s) (ht : N.Reachable t) (hrel : S.rel s t) (h : M.run s as = some s') :
    ∃ bs t', N.run t bs = some t' ∧ S.rel s' t' := by
  induction as generalizing s t with
  | nil =>
    cases h
    exact ⟨[], t, rfl, hrel⟩
  | cons a as ih =>
    rw [run_cons] at h
    obtain ⟨s₁, hs₁, hrest⟩ := Option.bind_eq_some_iff.mp h
    obtain ⟨bs₁, t₁, ht₁, hrel₁⟩ := S.step hs ht hrel hs₁
    obtain ⟨bs, t', hbs, hrel'⟩ := ih (hs.step hs₁) (ht.run ht₁) hrel₁ hrest
    refine ⟨bs₁ ++ bs, t', ?_, hrel'⟩
    rw [run_append, ht₁]
    exact hbs

end System
end Lib
end AsyncEchoServer
