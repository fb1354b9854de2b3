import AsyncEchoServer.ServerV3Mt.Step

/-!
# `ServerV3Mt/Registry.lean` — `CServer::_sessions` of the multi-thread server

The acceptor runs `HandleAccept` on its own thread: `new_session->Start()`, and only then lock,
insert, unlock. The session's handlers run on a pool thread, from the moment `Start()` has armed
the read. `_mutex` makes each insert and each erase atomic; which of them comes first is left to
the scheduler.

`noResurrected_iff` is exact: a run keeps cleared sessions out of the registry if and only if in
it no insert of a session follows the erase of a `ClearSession` of the same session. An insert that
comes while the handler is still on its way to the lock is harmless. The single-thread server has
the same text and no such run, since there nothing can run between `Start()` and the insert.
-/

set_option autoImplicit false

namespace AsyncEchoServer
namespace ServerV3Mt
namespace Machine

variable {size : Nat} {f : Short × Bytes → Bytes × Short} {m m' : Machine} {as : List Act}

/-- The step is the erase of a `ClearSession` of the session. -/
def Erases (uuid : Nat) (m : Machine) : Act → Prop
  | .pool i => m.pool i = .clearLocked uuid ∧ m.logic.producers i = .idle
  | _ => False

/-- In the course of the run `ClearSession` has been executed for the session, as far as the
erase. -/
def Cleared (size : Nat) (f : Short × Bytes → Bytes × Short) (as : List Act) (uuid : Nat) : Prop :=
  (system size f).Happened (Erases uuid) as

/-- Behind the run, no session `ClearSession` was executed for is registered. -/
def NoResurrected (size : Nat) (f : Short × Bytes → Bytes × Short) (as : List Act) (m : Machine) :
    Prop := ∀ uuid, Cleared size f as uuid → uuid ∉ m.sessions

/-- Behind the run, the step is not an insert of a session that `ClearSession` was executed for. -/
def InOrder (size : Nat) (f : Short × Bytes → Bytes × Short) (as : List Act) (m : Machine) :
    Act → Prop
  | .acceptor => ∀ uuid, m.acceptor = .locked uuid → ¬ Cleared size f as uuid
  | _ => True

/-- What a step does to the registry. -/
inductive RegistrySpec (m m' : Machine) : Act → Prop where
  | inserted {uuid : Nat} (pos : m.acceptor = .locked uuid)
      (sessions : m'.sessions = insert uuid m.sessions) : RegistrySpec m m' .acceptor
  | erased {i uuid : Nat} (pos : m.pool i = .clearLocked uuid) (idle : m.logic.producers i = .idle)
      (sessions : m'.sessions = m.sessions.erase uuid) : RegistrySpec m m' (.pool i)
  | other {a : Act} (inserts : ∀ uuid, a = .acceptor → m.acceptor ≠ .locked uuid)
      (erases : ∀ uuid, ¬ m.Erases uuid a) (sessions : m'.sessions = m.sessions) :
      RegistrySpec m m' a

theorem step_registry {a : Act} (h : m.step size f a = some m') : RegistrySpec m m' a := by
  -- a pool thread that is somewhere else
  have haway : ∀ {i : Nat} {p : PoolPos}, m.pool i = p → (∀ uuid, p ≠ .clearLocked uuid) →
      ∀ uuid, ¬ m.Erases uuid (.pool i) :=
    fun hpos hne uuid herase => hne uuid (hpos.symm.trans herase.1)
  obtain ⟨hspec, _⟩ := step_cases h
  cases hspec with
  | acceptInsert pos => exact .inserted pos rfl
  | acceptLock pos | acceptUnlock pos =>
    exact .other (fun _ _ hpos => by cases pos.symm.trans hpos) (fun _ => id) rfl
  | clearErase pos idle => exact .erased pos idle rfl
  | turn pos | passEnd pos | clearLock pos | clearUnlock pos =>
    exact .other nofun (haway pos nofun) rfl
  | writeLock pos | written pos | writeFailed pos | writeUnlock pos =>
    exact .other nofun (haway pos nofun) rfl
  | accept | acceptError | read | readError | writeError | write | sendLock | send | sendFailed |
    sendUnlock | callbackReturn => exact .other nofun (fun _ => id) rfl
  | queue act =>
    cases act with
    | producer calling => exact .other nofun (fun _ herase => calling herase.2) rfl
    | worker | spurious | destructor => exact .other nofun (fun _ => id) rfl

/-- A step in order keeps cleared sessions out. -/
theorem NoResurrected.step {a : Act} (hrun : (system size f).run init as = some m)
    (hn : NoResurrected size f as m) (ha : InOrder size f as m a)
    (h : m.step size f a = some m') : NoResurrected size f (as ++ [a]) m' := by
  intro u hcleared hmem
  have hcleared := (Lib.System.happened_snoc hrun).mp hcleared
  cases step_registry h with
  | @inserted uuid pos sessions =>
    have hold := hcleared.resolve_right id
    rw [sessions] at hmem
    rcases Finset.mem_insert.mp hmem with rfl | hmem
    · exact ha u pos hold
    · exact hn u hold hmem
  | @erased i uuid pos idle sessions =>
    rw [sessions] at hmem
    obtain ⟨hne, hmem⟩ := Finset.mem_erase.mp hmem
    rcases hcleared with hold | herase
    · exact hn u hold hmem
    · cases herase.1.symm.trans pos
      exact hne rfl
  | other inserts erases sessions =>
    rw [sessions] at hmem
    exact hn u (hcleared.resolve_right (erases u)) hmem

/-- … and a step out of order brings one back. -/
theorem not_noResurrected_step {a : Act} (hrun : (system size f).run init as = some m)
    (ha : ¬ InOrder size f as m a) (h : m.step size f a = some m') :
    ¬ NoResurrected size f (as ++ [a]) m' := by
  intro hn
  have hkept : ∀ u, Cleared size f as u → u ∉ m'.sessions :=
    fun u hold => hn u ((Lib.System.happened_snoc hrun).mpr (Or.inl hold))
  apply ha
  cases step_registry h with
  | @inserted uuid pos sessions =>
    intro u hpos hold
    cases pos.symm.trans hpos
    apply hkept uuid hold
    rw [sessions]
    exact Finset.mem_insert_self uuid m.sessions
  | erased => exact trivial
  | @other a inserts erases sessions =>
    cases a with
    | acceptor => exact fun u hpos => absurd hpos (inserts u rfl)
    | _ => exact trivial

/-- **No resurrected session**: a run keeps every cleared session out of `_sessions` from the erase
of its `ClearSession` on, exactly when no insert of it comes behind that erase. -/
theorem noResurrected_iff (hrun : (system size f).run init as = some m) :
    (∀ pre s, pre <+: as → (system size f).run init pre = some s → NoResurrected size f pre s) ↔
      ∀ pre a s, pre ++ [a] <+: as → (system size f).run init pre = some s →
        InOrder size f pre s a :=
  Lib.System.run_history_iff (M := system size f) (G := fun _ => True)
    (fun _ _ => trivial) (fun _ h => absurd h Lib.System.not_happened_nil)
    (fun hs _ hn ha h => hn.step hs ha h) (fun hs ha h => not_noResurrected_step hs ha h)
    hrun trivial

/-- A client is accepted and registered, and then resets the connection. -/
def resets : List Act :=
  [.handleAccept false, .acceptor, .acceptor, .acceptor, .handleReadError 0, .pool 0, .pool 0,
    .pool 0]

theorem noResurrected_iff_resets : ∃ m,
    (system 2 fun msg => (msg.2, msg.1)).run init resets = some m ∧
      Cleared 2 (fun msg => (msg.2, msg.1)) resets 0 ∧ 0 ∉ m.sessions := by
  obtain ⟨m, s, hm, hs, hpos, hidle⟩ : ∃ m s,
      (system 2 fun msg => (msg.2, msg.1)).run init resets = some m ∧
        (system 2 fun msg => (msg.2, msg.1)).run init [.handleAccept false, .acceptor, .acceptor,
          .acceptor, .handleReadError 0, .pool 0] = some s ∧
        s.pool 0 = .clearLocked 0 ∧ s.logic.producers 0 = .idle := ⟨_, _, rfl, rfl, rfl, rfl⟩
  have hcleared : Cleared 2 (fun msg => (msg.2, msg.1)) resets 0 :=
    ⟨_, .pool 0, s, ⟨[.pool 0], rfl⟩, hs, hpos, hidle⟩
  refine ⟨m, hm, hcleared, (noResurrected_iff hm).mpr ?_ _ m List.prefix_rfl hm 0 hcleared⟩
  intro pre a t hpre ht
  cases a with
  | acceptor =>
    -- when the acceptor moves, no pool thread has
    rintro u _ ⟨pre', b, t', hpre', _, herase⟩
    have hmem := Lib.System.mem_of_prefix_snoc hpre'
    obtain ⟨k, hk, rfl⟩ := Lib.System.prefix_snoc_iff.mp hpre
    match k with
    | 0 | 4 | 5 | 6 | 7 => cases hk
    | k + 8 => cases hk
    | 1 | 2 | 3 =>
      simp only [resets, List.take_succ_cons, List.take_zero, List.mem_cons, List.not_mem_nil,
        or_false] at hmem
      rcases hmem with rfl | rfl | rfl <;> exact herase
  | _ => exact trivial

/-- The client sends a header that is rejected; its pool thread is done before the acceptor takes
the lock, and the acceptor registers a session nobody will ever clear. -/
theorem resurrected_session :
    ¬ ∀ as m, (system 1 fun msg => (msg.2, msg.1)).run init as = some m →
      NoResurrected 1 (fun msg => (msg.2, msg.1)) as m := by
  intro h
  obtain ⟨s, m, hs, hm, hpos, hidle, hmem⟩ : ∃ s m,
      (system 1 fun msg => (msg.2, msg.1)).run init [.handleAccept false,
        .handleRead 0 [0x7f, 0xff, 0, 0], .pool 0, .pool 0] = some s ∧
      (system 1 fun msg => (msg.2, msg.1)).run init [.handleAccept false,
        .handleRead 0 [0x7f, 0xff, 0, 0], .pool 0, .pool 0, .pool 0, .pool 0, .acceptor,
        .acceptor] = some m ∧
      s.pool 0 = .clearLocked 0 ∧ s.logic.producers 0 = .idle ∧ 0 ∈ m.sessions :=
    ⟨_, _, rfl, rfl, rfl, rfl, by decide⟩
  exact h _ m hm 0 ⟨_, .pool 0, s, ⟨[.pool 0, .acceptor, .acceptor], rfl⟩, hs, hpos, hidle⟩ hmem

end Machine
end ServerV3Mt
end AsyncEchoServer
