import AsyncEchoServer.Session.HostileRuns

/-!
# `ServerV3Mt/ReadLoop.lean` — is the read loop ever abandoned?

A handler of the multi-thread server that returns has armed the next read or cleared the session,
or nobody will hear of the session again: it stays in `_sessions` with no read outstanding.
`HandleRead` has a `catch` around everything that prints and returns. The one exception that a peer
can provoke is in the constructor of the message node, where a declared length below −1 makes the
array length negative. `handleRead_settles_iff` says that this is the only way.
-/

set_option autoImplicit false

namespace AsyncEchoServer

/-- What a read may complete with. -/
def ReadResult.Valid : ReadResult → Prop
  | .ok chunk => ValidChunk chunk
  | .error => True

namespace ServerV3Mt

/-- `HandleRead` comes back, with exactly one read armed or the session cleared. -/
def Settles (c : Connection Short) (result : ReadResult) : Prop :=
  ∃ es out, AsyncEchoServer.handleRead receiver c.heap c.session result = some (es, out) ∧
    (armed es = 1 ∨ 0 < cleared es)

/-- **When the read loop goes on**: a session that is read from settles a completion exactly when
the bytes received with it complete no header, behind those before it, whose length is below −1;
and a session is being read from, or cleared, exactly when no such header has come. At length −1 the
writes of the handler leave the one-byte array (`handleRead_inBounds_iff`): what is said of it here
is about the integer fields and the exit, and nothing else. -/
theorem handleRead_settles_iff {chunks : List Bytes} {c : Connection Short}
    (hchunks : ∀ chunk ∈ chunks, ValidChunk chunk)
    (hrun : Connection.run receiver chunks = some c) :
    (∀ result, c.reads ≠ 0 → result.Valid →
      (Settles c result ↔ ∀ chunk, result = .ok chunk →
        (ServerV3.taken.parse (chunks.flatten ++ chunk)).tail ≠ .broken)) ∧
    (c.reads = 1 ∨ 0 < c.clears ↔ (ServerV3.taken.parse chunks.flatten).tail ≠ .broken) := by
  obtain ⟨c', hrun', hspec⟩ := Connection.run_takes receiver_takes hchunks
  rw [hrun] at hrun'
  cases hrun'
  constructor
  · intro result hread hvalid
    cases result with
    | error =>
      -- the error path closes and clears, whatever was received
      refine iff_of_true ⟨_, _, rfl, Or.inr ?_⟩ nofun
      exact Nat.one_pos
    | ok chunk =>
      obtain ⟨es, l, x, hcall, _, hiff⟩ := hspec.callback receiver_takes hread hvalid
      have hsettles : Settles c (.ok chunk) ↔ (armed es = 1 ∨ 0 < cleared es) := by
        constructor
        · rintro ⟨es', out', hcall', harm⟩
          rw [hcall] at hcall'
          cases hcall'
          exact harm
        · exact fun harm => ⟨es, (l, x), hcall, harm⟩
      rw [hsettles, hiff]
      exact ⟨fun h _ heq => by cases heq; exact h, fun h => h chunk rfl⟩
  · cases hspec with
    | waiting tail _ reads _ _ =>
      rw [tail, reads]
      exact iff_of_true (Or.inl rfl) nofun
    | rejected tail _ _ clr =>
      rw [tail, clr]
      exact iff_of_true (Or.inr Nat.one_pos) nofun
    | threw tail _ reads clr =>
      rw [tail, reads, clr]
      exact iff_of_false (by rintro (h | h) <;> cases h) fun h => h rfl

/-- A frame cut inside its header, and length −1, which the constructor survives. -/
theorem handleRead_settles_iff_cut :
    ∃ c, Connection.run receiver [[3, 0xe9, 0]] = some c ∧
      Settles c (.ok [2, 0x68, 0x69, 0, 0, 0xff, 0xff]) := by
  obtain ⟨c, hrun, hread⟩ : ∃ c, Connection.run receiver [[3, 0xe9, 0]] = some c ∧
      c.reads ≠ 0 := ⟨_, rfl, by decide⟩
  have hvalid : ∀ chunk ∈ ([[3, 0xe9, 0]] : List Bytes), ValidChunk chunk := by
    unfold ValidChunk
    decide
  refine ⟨c, hrun, ((handleRead_settles_iff hvalid hrun).1 _ hread ?_).mpr ?_⟩
  · show ValidChunk _
    unfold ValidChunk
    decide
  · intro chunk heq
    cases heq
    decide

/-- Length −2: the array length is −1, the exception is swallowed, and nothing is armed. -/
theorem readLoop_abandoned :
    ¬ ∀ chunks c result, (∀ chunk ∈ chunks, ValidChunk chunk) →
      Connection.run receiver chunks = some c → c.reads ≠ 0 → result.Valid → Settles c result := by
  intro h
  have hvalid : ReadResult.Valid (.ok [0, 0, 0xff, 0xfe]) := by
    show ValidChunk _
    unfold ValidChunk
    decide
  obtain ⟨es, out, hcall, harm⟩ := h [] _ (.ok [0, 0, 0xff, 0xfe]) nofun rfl (by decide) hvalid
  obtain ⟨es', out', hcall', hnone⟩ : ∃ es' out', AsyncEchoServer.handleRead receiver []
      (Session.fresh receiver) (.ok [0, 0, 0xff, 0xfe]) = some (es', out') ∧
        ¬ (armed es' = 1 ∨ 0 < cleared es') := ⟨_, _, rfl, by decide⟩
  rw [show AsyncEchoServer.handleRead receiver (Connection.start receiver).heap
    (Connection.start receiver).session _ = _ from hcall'] at hcall
  cases hcall
  exact hnone harm

end ServerV3Mt
end AsyncEchoServer
