import Mathlib.Data.Option.Basic

/-!
# `Lib/Mutex.lean` — who holds a mutex

A mutex is the thread that holds it, if any. `Excludes holder holds` says that a thread whose
position in the program is inside a critical section is the holder; mutual exclusion
(`Excludes.unique`) follows, and each kind of step keeps it: acquiring a free mutex, releasing
one's own, and moving without touching it. `Owned` is the converse, that the holder is inside: with
it, what a thread holds can be read off its position. `Counts` is both, and of one critical section.
-/

set_option autoImplicit false

namespace AsyncEchoServer
namespace Lib

variable {θ : Type*}

/-- Every thread inside a critical section holds the mutex. -/
def Excludes (holder : Option θ) (holds : θ → Prop) : Prop := ∀ t, holds t → holder = some t

variable {holder : Option θ} {holds holds' : θ → Prop}

theorem Excludes.unique (h : Excludes holder holds) {t t' : θ} (ht : holds t) (ht' : holds t') :
    t = t' := Option.some.inj ((h t ht).symm.trans (h t' ht'))

theorem Excludes.acquire {t : θ} (h : Excludes none holds)
    (hothers : ∀ t', t' ≠ t → holds' t' → holds t') : Excludes (some t) holds' := by
  intro t' ht'
  by_cases hne : t' = t
  · rw [hne]
  · have hfree := h t' (hothers t' hne ht')
    cases hfree

theorem Excludes.release {t : θ} (h : Excludes holder holds) (ht : holds t) (hout : ¬ holds' t)
    (hothers : ∀ t', t' ≠ t → holds' t' → holds t') : Excludes none holds' := by
  intro t' ht'
  by_cases hne : t' = t
  · rw [hne] at ht'
    exact absurd ht' hout
  · exact absurd (h.unique (hothers t' hne ht') ht) hne

theorem Excludes.mono (h : Excludes holder holds) (hsub : ∀ t, holds' t → holds t) :
    Excludes holder holds' := fun t ht => h t (hsub t ht)

/-- Whoever holds the mutex is inside a critical section. -/
def Owned (holder : Option θ) (holds : θ → Prop) : Prop := ∀ t, holder = some t → holds t

theorem Owned.free : Owned none holds := fun _ ht => nomatch ht

theorem Owned.acquire {t : θ} (ht : holds t) : Owned (some t) holds := by
  intro t' ht'
  cases ht'
  exact ht

/-- Thread `t` moves on without leaving. -/
theorem Owned.move (t : θ) (h : Owned holder holds) (hself : holds t → holds' t)
    (hothers : ∀ t', t' ≠ t → holds t' → holds' t') : Owned holder holds' := by
  intro t' ht'
  by_cases hne : t' = t
  · subst hne
    exact hself (h t' ht')
  · exact hothers t' hne (h t' ht')

/-! A thread may be in several critical sections at a time, when one call runs on top of another. -/

/-- The holder is in one critical section, and nobody else is in any. -/
def Counts [DecidableEq θ] (holder : Option θ) (sections : θ → Nat) : Prop :=
  ∀ t, sections t = if holder = some t then 1 else 0

section Counts

variable [DecidableEq θ] {sections sections' : θ → Nat}

theorem Counts.held {t : θ} (h : Counts holder sections) (ht : 0 < sections t) :
    holder = some t := by
  by_contra hother
  rw [h t, if_neg hother] at ht
  exact Nat.lt_irrefl 0 ht

theorem Counts.kept (h : Counts holder sections) (hkept : ∀ u, sections' u = sections u) :
    Counts holder sections' := fun u => (hkept u).trans (h u)

theorem Counts.acquire {t : θ} (h : Counts none sections) (hself : sections' t = sections t + 1)
    (hothers : ∀ u, u ≠ t → sections' u = sections u) : Counts (some t) sections' := by
  intro u
  by_cases hu : u = t
  · rw [hu, hself, h t, if_pos rfl]
    rfl
  · rw [hothers u hu, h u, if_neg nofun, if_neg fun heq => hu (Option.some.inj heq).symm]

theorem Counts.release {t : θ} (h : Counts holder sections) (hself : sections' t + 1 = sections t)
    (hothers : ∀ u, u ≠ t → sections' u = sections u) : Counts none sections' := by
  have hheld : holder = some t := h.held (by omega)
  intro u
  rw [if_neg nofun]
  by_cases hu : u = t
  · have hone := h t
    rw [if_pos hheld] at hone
    rw [hu]
    omega
  · rw [hothers u hu, h u, hheld, if_neg fun heq => hu (Option.some.inj heq).symm]

end Counts

end Lib
end AsyncEchoServer
