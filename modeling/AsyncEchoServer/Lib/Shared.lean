import AsyncEchoServer.Lib.System

/-!
# `Lib/Shared.lean` — objects with shared owners

An object is there as long as somebody owns it. Who the owners are is up to the system: `owned` says
of a state that there is one. An owner can pass a reference on, and that is the only way to get one
(`passed`); and who works on an object owns it (`used`).

So an object that has lost its last owner is destroyed for good: nobody gets hold of it again and
nobody alters it (`destroyed_run`), and no run destroys it twice (`destroyed_once`).
-/

set_option autoImplicit false

namespace AsyncEchoServer
namespace Lib
namespace System

variable {σ α : Type*}

/-- The objects `ι` of a system, with what is in them. -/
structure Shared (M : System σ α) (ι β : Type*) where
  made : σ → ι → Prop
  owned : σ → ι → Prop
  body : σ → ι → β
  kept : ∀ {s s' : σ} {a : α} {i : ι}, M.step s a = some s' → made s i → made s' i
  passed : ∀ {s s' : σ} {a : α} {i : ι}, M.Reachable s → M.step s a = some s' → made s i →
    owned s' i → owned s i
  used : ∀ {s s' : σ} {a : α} {i : ι}, M.Reachable s → M.step s a = some s' → made s i →
    body s' i ≠ body s i → owned s i

namespace Shared

variable {ι β : Type*} {M : System σ α} (S : Shared M ι β)

/-- The last owner has let go of it. -/
def Destroyed (s : σ) (i : ι) : Prop := S.made s i ∧ ¬ S.owned s i

variable {S}

theorem destroyed_step {s s' : σ} {a : α} {i : ι} (hr : M.Reachable s) (hd : S.Destroyed s i)
    (h : M.step s a = some s') : S.Destroyed s' i ∧ S.body s' i = S.body s i := by
  obtain ⟨hmade, hfree⟩ := hd
  refine ⟨⟨S.kept h hmade, fun howned => hfree (S.passed hr h hmade howned)⟩, ?_⟩
  by_contra hne
  exact hfree (S.used hr h hmade hne)

/-- **What is destroyed stays so**, and stays as it was. -/
theorem destroyed_run {s s' : σ} {as : List α} {i : ι} (hr : M.Reachable s)
    (hd : S.Destroyed s i) (h : M.run s as = some s') :
    S.Destroyed s' i ∧ S.body s' i = S.body s i := by
  induction as generalizing s with
  | nil =>
    cases h
    exact ⟨hd, rfl⟩
  | cons a as ih =>
    rw [run_cons] at h
    obtain ⟨t, hstep, hrest⟩ := Option.bind_eq_some_iff.mp h
    obtain ⟨hd', hbody⟩ := destroyed_step hr hd hstep
    obtain ⟨hd'', hbody'⟩ := ih (hr.step hstep) hd' hrest
    exact ⟨hd'', hbody'.trans hbody⟩

/-- Behind `pre` the run `as` goes on with a step that takes the last owner. -/
def DestroysAt (S : Shared M ι β) (as pre : List α) (i : ι) : Prop :=
  ∃ a s s', pre ++ [a] <+: as ∧ M.run M.init pre = some s ∧ M.step s a = some s' ∧
    ¬ S.Destroyed s i ∧ S.Destroyed s' i

theorem DestroysAt.not_before {as pre pre' : List α} {i : ι} (h : S.DestroysAt as pre i)
    (h' : S.DestroysAt as pre' i) : ¬ pre.length < pre'.length := by
  obtain ⟨a, s, s', hpre, hs, hstep, _, hd⟩ := h
  obtain ⟨a', t, t', hpre', ht, hstep', hlives, _⟩ := h'
  intro hlt
  -- then the second step is taken behind the first
  have hlong : pre ++ [a] <+: pre' := by
    refine List.prefix_of_prefix_length_le hpre ((List.prefix_append pre' [a']).trans hpre') ?_
    rw [List.length_append]
    exact hlt
  obtain ⟨rest, rfl⟩ := hlong
  have hs' : M.run M.init (pre ++ [a]) = some s' := by
    rw [run_snoc, hs]
    exact hstep
  rw [run_append, hs'] at ht
  exact hlives (destroyed_run (.of_run hs') hd ht).1

/-- **Nothing is destroyed twice.** -/
theorem destroyed_once {as pre pre' : List α} {i : ι} (h : S.DestroysAt as pre i)
    (h' : S.DestroysAt as pre' i) : pre = pre' := by
  have hlen : pre.length = pre'.length :=
    Nat.le_antisymm (Nat.not_lt.mp (h'.not_before h)) (Nat.not_lt.mp (h.not_before h'))
  obtain ⟨a, _, _, hpre, _⟩ := h
  obtain ⟨a', _, _, hpre', _⟩ := h'
  refine (List.prefix_of_prefix_length_le ((List.prefix_append pre [a]).trans hpre)
    ((List.prefix_append pre' [a']).trans hpre') (Nat.le_of_eq hlen)).eq_of_length hlen

end Shared
end System
end Lib
end AsyncEchoServer
