import Mathlib.Logic.Relation
import Mathlib.Order.WellFounded

/-!
# `Lib/LockOrder.lean` — mutexes taken in order

A state of the locks is what every thread asks for and who holds what. A thread is blocked when
what it asks for is held; following that from thread to thread gives the wait-for relation, and a
deadlock is a cycle of it.

`Ordered rank` says that whoever asks for a mutex holds only mutexes of a lower rank. The rank of
what is asked for then rises along the wait-for relation, so that it has no cycle, and where ranks
cannot rise for ever, everybody who is blocked waits in the end for somebody who is not.
-/

set_option autoImplicit false

namespace AsyncEchoServer
namespace Lib

/-- Threads `θ`, mutexes `μ`. -/
structure Locks (θ μ : Type*) where
  /-- the mutex a thread is at the lock of -/
  wants : θ → Option μ
  holder : μ → Option θ

namespace Locks

variable {θ μ ρ : Type*} [Preorder ρ] {L : Locks θ μ} {rank : μ → ρ}

/-- Thread `t` is blocked on a mutex that `t'` holds. -/
def WaitsFor (L : Locks θ μ) (t t' : θ) : Prop := ∃ m, L.wants t = some m ∧ L.holder m = some t'

/-- A thread asks only for mutexes above those it holds. -/
def Ordered (L : Locks θ μ) (rank : μ → ρ) : Prop :=
  ∀ t m m', L.holder m = some t → L.wants t = some m' → rank m < rank m'

/-- Along the wait-for relation the rank of what is asked for rises. -/
theorem Ordered.rank_lt (h : L.Ordered rank) {t t' : θ}
    (hchain : Relation.TransGen L.WaitsFor t t') {m m' : μ} (hm : L.wants t = some m)
    (hm' : L.wants t' = some m') : rank m < rank m' := by
  induction hchain generalizing m' with
  | single hwait =>
    obtain ⟨m₁, hm₁, hheld⟩ := hwait
    cases hm.symm.trans hm₁
    exact h _ _ _ hheld hm'
  | tail _ hwait ih =>
    obtain ⟨m₁, hm₁, hheld⟩ := hwait
    exact (ih hm₁).trans (h _ _ _ hheld hm')

/-- **No deadlock.** -/
theorem Ordered.no_cycle (h : L.Ordered rank) (t : θ) : ¬ Relation.TransGen L.WaitsFor t t := by
  intro hcycle
  obtain ⟨t', ⟨m, hm, _⟩, _⟩ := Relation.TransGen.head'_iff.mp hcycle
  exact lt_irrefl _ (h.rank_lt hcycle hm hm)

/-- Nobody asks for what it holds. -/
theorem Ordered.not_held (h : L.Ordered rank) {t : θ} {m : μ} (hm : L.wants t = some m) :
    L.holder m ≠ some t := fun hheld => lt_irrefl _ (h t m m hheld hm)

/-- Behind everybody who is blocked there is somebody who is not. -/
theorem Ordered.exists_unblocked [WellFoundedGT ρ] (h : L.Ordered rank) (t : θ) :
    ∃ t', Relation.ReflTransGen L.WaitsFor t t' ∧ ∀ t'', ¬ L.WaitsFor t' t'' := by
  -- by induction on the rank of what `t` asks for, from the top
  suffices hrank : ∀ r t m, rank m = r → L.wants t = some m →
      ∃ t', Relation.ReflTransGen L.WaitsFor t t' ∧ ∀ t'', ¬ L.WaitsFor t' t'' by
    cases hm : L.wants t with
    | none => exact ⟨t, .refl, fun t'' ⟨m, hm', _⟩ => nomatch hm.symm.trans hm'⟩
    | some m => exact hrank _ t m rfl hm
  intro r
  induction r using WellFoundedGT.induction with
  | ind r ih =>
    rintro t m rfl hm
    cases hheld : L.holder m with
    | none =>
      refine ⟨t, .refl, fun t'' ⟨m', hm', hheld'⟩ => ?_⟩
      cases hm.symm.trans hm'
      cases hheld.symm.trans hheld'
    | some t₁ =>
      have hwait : L.WaitsFor t t₁ := ⟨m, hm, hheld⟩
      cases hm₁ : L.wants t₁ with
      | none =>
        refine ⟨t₁, .single hwait, fun t'' ⟨m', hm', _⟩ => ?_⟩
        cases hm₁.symm.trans hm'
      | some m₁ =>
        obtain ⟨t', hchain, hfree⟩ := ih _ (h _ _ _ hheld hm₁) t₁ m₁ rfl hm₁
        exact ⟨t', .head hwait hchain, hfree⟩

end Locks
end Lib
end AsyncEchoServer
