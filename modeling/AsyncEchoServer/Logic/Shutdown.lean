import AsyncEchoServer.Logic.Dispatch

/-!
# `Logic/Shutdown.lean` — the destructor against the worker

`~LogicSystem` sets `_b_stop` and notifies without `_mutex`. A worker that has just found the
queue empty and the flag clear is not among the waiters yet: a notification issued then is lost,
and the worker waits for one that does not come while the destructor joins it. `shutdown_iff`
says that this is the only way to hang. What the worker leaves behind when it exits is not
affected: it has popped everything posted before it saw the flag.
-/

set_option autoImplicit false

namespace AsyncEchoServer
namespace LogicSystem

variable {ν κ : Type} {find : ν → Option κ} {v : Variant} {s s' : LogicSystem ν κ}

/-- The destructor is at `join()`, and the worker in `wait` with nothing to wake it. -/
def hung (s : LogicSystem ν κ) : Prop := s.destructor = .joining ∧ s.worker = .waiting

/-- The destructor's notification is not issued between the worker's test and its `wait`. -/
def NotifiesInTime (s : LogicSystem ν κ) (a : Act ν) : Prop :=
  a = .destructor → s.destructor = .stopped → s.worker ≠ .toWait

/-! ## What the threads do to each other -/

/-- The worker is where it was, or has been taken out of the waiters. -/
def Woken (s s' : LogicSystem ν κ) : Prop :=
  s'.worker = s.worker ∨ (s.worker = .waiting ∧ s'.worker = .woken)

theorem notifyOne_woken (s : LogicSystem ν κ) : Woken s s.notifyOne := by
  unfold notifyOne
  split
  · rename_i hw
    exact Or.inr ⟨hw, rfl⟩
  · exact Or.inl rfl

theorem notifyOne_frame (s : LogicSystem ν κ) : s.notifyOne.bStop = s.bStop ∧
    s.notifyOne.destructor = s.destructor ∧ s.notifyOne.seenStop = s.seenStop := by
  unfold notifyOne
  split <;> exact ⟨rfl, rfl, rfl⟩

/-- A step of a producer, a spurious wakeup, or a call of `PostMsgtoQueue`. -/
structure Aside (s s' : LogicSystem ν κ) : Prop where
  worker : Woken s s'
  stop : s'.bStop = s.bStop
  dtor : s'.destructor = s.destructor
  seen : s'.seenStop = s.seenStop

theorem Aside.notified {i : Nat} {pos : ProducerPos ν} : Aside s (s.move i pos).notifyOne := by
  obtain ⟨hstop, hdtor, hseen⟩ := notifyOne_frame (s.move i pos)
  exact ⟨notifyOne_woken _, hstop, hdtor, hseen⟩

theorem producerStep_aside {i : Nat} (h : s.producerStep v i = some s') : Aside s s' := by
  cases producerStep_cases h with
  | notify pos => exact .notified
  | notifyAfter pos => exact .notified
  | _ => exact ⟨Or.inl rfl, rfl, rfl, rfl⟩

theorem workerStep_frame (h : s.workerStep find = some s') :
    s'.bStop = s.bStop ∧ s'.destructor = s.destructor := by
  cases workerStep_cases h <;> exact ⟨rfl, rfl⟩

/-- How the worker goes to sleep: from its test, which found the flag clear, to `toWait`, and from
there into `wait`. Every other step leaves it awake. -/
theorem workerStep_sleep (h : s.workerStep find = some s') :
    (s.bStop = false ∧ s'.worker = .toWait) ∨ (s.worker = .toWait ∧ s'.worker = .waiting) ∨
      (s'.worker ≠ .toWait ∧ s'.worker ≠ .waiting) := by
  cases workerStep_cases h with
  | idle pos empty clear => exact Or.inl ⟨clear, rfl⟩
  | wait pos => exact Or.inr (Or.inl ⟨pos, rfl⟩)
  | _ => exact Or.inr (Or.inr ⟨nofun, nofun⟩)

/-! ## The flag -/

/-- The destructor has set the flag before anything else. -/
def FlagSet (s : LogicSystem ν κ) : Prop := s.destructor ≠ .alive → s.bStop = true

/-- At `join()`, the worker is not on its way to sleep. -/
def Awake (s : LogicSystem ν κ) : Prop :=
  s.destructor = .joining → s.worker ≠ .toWait ∧ s.worker ≠ .waiting

theorem Aside.flagSet (h : Aside s s') (hs : s.FlagSet) : s'.FlagSet := by
  intro hd
  rw [h.dtor] at hd
  rw [h.stop]
  exact hs hd

theorem Aside.awake (h : Aside s s') (hs : s.Awake) : s'.Awake := by
  intro hd
  rw [h.dtor] at hd
  obtain ⟨hwait, hsleep⟩ := hs hd
  rcases h.worker with hw | ⟨_, hw⟩
  · rw [hw]
    exact ⟨hwait, hsleep⟩
  · rw [hw]
    exact ⟨nofun, nofun⟩

/-- The threads but the worker and the destructor. -/
theorem step_aside {a : Act ν} (h : step v find s a = some s') (hw : a ≠ .worker)
    (hd : a ≠ .destructor) : Aside s s' := by
  cases a with
  | worker => exact absurd rfl hw
  | destructor => exact absurd rfl hd
  | producer i => exact producerStep_aside h
  | spurious =>
    simp only [step] at h
    split at h
    · rename_i hpos
      cases h
      exact ⟨Or.inr ⟨hpos, rfl⟩, rfl, rfl, rfl⟩
    · cases h
  | post i n =>
    simp only [step] at h
    split at h <;> cases h
    exact ⟨Or.inl rfl, rfl, rfl, rfl⟩

theorem destructorStep_flagSet (h : s.destructorStep = some s') (hs : s.FlagSet) : s'.FlagSet := by
  cases destructorStep_cases h with
  | stop pos => exact fun _ => rfl
  | notify pos =>
    intro _
    rw [(notifyOne_frame _).1]
    exact hs (by rw [pos]; exact nofun)
  | join pos left => exact fun _ => hs (by rw [pos]; exact nofun)

theorem step_flagSet {a : Act ν} (hs : s.FlagSet) (h : step v find s a = some s') :
    s'.FlagSet := by
  cases a with
  | worker =>
    obtain ⟨hstop, hdtor⟩ := workerStep_frame h
    intro hd
    rw [hdtor] at hd
    rw [hstop]
    exact hs hd
  | destructor => exact destructorStep_flagSet h hs
  | spurious | post i n | producer i => exact (step_aside h nofun nofun).flagSet hs

theorem reachable_flagSet (h : (system v find).Reachable s) : s.FlagSet :=
  h.invariant (fun hd => absurd rfl hd) step_flagSet

/-- A notification that finds the worker anywhere but in front of its `wait` is enough. -/
theorem destructorStep_awake (h : s.destructorStep = some s')
    (hc : s.NotifiesInTime (.destructor : Act ν)) : s'.Awake := by
  cases destructorStep_cases h with
  | stop pos => exact nofun
  | join pos left => exact nofun
  | notify pos =>
    intro _
    have hw : s.worker ≠ .toWait := hc rfl pos
    unfold notifyOne
    split
    · exact ⟨nofun, nofun⟩
    · rename_i hnot
      exact ⟨hw, hnot⟩

theorem step_awake {a : Act ν} (h : step v find s a = some s') (hf : s.FlagSet) (hs : s.Awake)
    (hc : s.NotifiesInTime a) : s'.Awake := by
  cases a with
  | worker =>
    intro hd
    rw [(workerStep_frame h).2] at hd
    rcases workerStep_sleep h with ⟨hstop, _⟩ | ⟨hw, _⟩ | hawake
    · rw [hf (by rw [hd]; exact nofun)] at hstop
      cases hstop
    · exact absurd hw (hs hd).1
    · exact hawake
  | destructor => exact destructorStep_awake h hc
  | spurious | post i n | producer i => exact (step_aside h nofun nofun).awake hs

/-- The lost notification: the destructor joins a worker that goes to sleep. -/
theorem step_not_awake {a : Act ν} (h : step v find s a = some s') (hc : ¬ s.NotifiesInTime a) :
    ¬ s'.Awake := by
  simp only [NotifiesInTime, Classical.not_imp, not_not] at hc
  obtain ⟨rfl, hd, hw⟩ := hc
  have h' : s.destructorStep = some s' := h
  simp only [destructorStep, hd, notifyOne, hw] at h'
  cases h'
  exact fun hawake => (hawake rfl).1 rfl

/-! ## What has been posted before the flag was seen -/

/-- Behind its test of the flag, the worker knows what was posted then; when it has left, all of
that is finished. -/
def Drains (s : LogicSystem ν κ) : Prop :=
  match s.worker with
  | .drain | .running _ _ true | .toPop _ true => ∃ p, s.seenStop = some p ∧ p <+: s.posted
  | .exited => ∃ p, s.seenStop = some p ∧ p <+: s.finished
  | _ => True

theorem QueueSpec.prefixes (h : QueueSpec s s') :
    s.posted <+: s'.posted ∧ s.finished <+: s'.finished := by
  cases h with
  | same _ post fin =>
    exact ⟨⟨[], by rw [post, List.append_nil]⟩, ⟨[], by rw [fin, List.append_nil]⟩⟩
  | pushed n _ post fin => exact ⟨⟨[n], post.symm⟩, ⟨[], by rw [fin, List.append_nil]⟩⟩
  | popped n _ post fin => exact ⟨⟨[], by rw [post, List.append_nil]⟩, ⟨[n], fin.symm⟩⟩

/-- The other threads only add to the histories. -/
theorem Woken.drains (h : Woken s s') (hseen : s'.seenStop = s.seenStop) (hq : QueueSpec s s')
    (hs : s.Drains) : s'.Drains := by
  obtain ⟨hpost, hfin⟩ := hq.prefixes
  rcases h with hw | ⟨_, hw⟩
  · unfold Drains at hs ⊢
    rw [hw, hseen]
    split at hs
    all_goals try exact trivial
    all_goals
      obtain ⟨p, hp, hpre⟩ := hs
    · exact ⟨p, hp, hpre.trans hpost⟩
    · exact ⟨p, hp, hpre.trans hpost⟩
    · exact ⟨p, hp, hpre.trans hpost⟩
    · exact ⟨p, hp, hpre.trans hfin⟩
  · simp only [Drains, hw]

theorem workerStep_drains (h : s.workerStep find = some s') (hs : s.Drains)
    (hbook : s.posted = s.finished ++ s.msgQueue) : s'.Drains := by
  unfold Drains at hs
  -- at the front node, the flag has been seen if it is the drain loop that looks
  have hfront : ∀ {d : Bool}, s.AtFront d → d = true →
      ∃ p, s.seenStop = some p ∧ p <+: s.posted := by
    rintro d hpos rfl
    have hw : s.worker = .drain := hpos
    simpa only [hw] using hs
  cases workerStep_cases h with
  | sawStop pos stop => exact ⟨s.posted, rfl, List.prefix_rfl⟩
  | @call n c rest d pos que found =>
    cases d with
    | false => trivial
    | true => exact hfront pos rfl
  | @skip n rest d pos que missing =>
    cases d with
    | false => trivial
    | true => exact hfront pos rfl
  | @returned n c d pos =>
    simp only [pos] at hs
    cases d with
    | false => trivial
    | true => exact hs
  | popDrain pos que =>
    simp only [pos] at hs
    exact hs
  | exit pos empty =>
    simp only [pos] at hs
    obtain ⟨p, hp, hpre⟩ := hs
    rw [empty, List.append_nil] at hbook
    exact ⟨p, hp, by rw [← hbook]; exact hpre⟩
  | _ => trivial

theorem destructorStep_aside (h : s.destructorStep = some s') :
    Woken s s' ∧ s'.seenStop = s.seenStop := by
  cases destructorStep_cases h with
  | notify pos => exact ⟨notifyOne_woken _, (notifyOne_frame _).2.2⟩
  | _ => exact ⟨Or.inl rfl, rfl⟩

theorem reachable_drains (h : (system v find).Reachable s) : s.Drains := by
  induction h with
  | init => trivial
  | @step s s' a hr hstep ih =>
    have hs : step v find s a = some s' := hstep
    have hq := step_queue (reachable_inv hr) hs
    cases a with
    | worker => exact workerStep_drains hs ih (posted_eq hr)
    | destructor =>
      obtain ⟨hw, hseen⟩ := destructorStep_aside hs
      exact hw.drains hseen hq ih
    | spurious | post i n | producer i =>
      have haside := step_aside hs nofun nofun
      exact haside.worker.drains haside.seen hq ih

/-! ## Shutdown -/

/-- Asleep at the next step of the worker, or asleep now. -/
theorem awake_iff : s.Awake ↔ ¬ s.hung ∧ ∀ s', s.workerStep find = some s' → ¬ s'.hung := by
  constructor
  · intro hs
    refine ⟨fun hh => (hs hh.1).2 hh.2, ?_⟩
    rintro s' hstep ⟨hd, hw⟩
    rw [(workerStep_frame hstep).2] at hd
    rcases workerStep_sleep hstep with ⟨_, hw'⟩ | ⟨hw', _⟩ | ⟨_, hw'⟩
    · rw [hw] at hw'
      cases hw'
    · exact (hs hd).1 hw'
    · exact hw' hw
  · rintro ⟨hnow, hnext⟩ hd
    refine ⟨?_, fun hw => hnow ⟨hd, hw⟩⟩
    intro hw
    have hstep : s.workerStep find = some { s with worker := .waiting, mutex := none } := by
      rw [workerStep, hw]
    exact hnext _ hstep ⟨hd, rfl⟩

/-- **Shutdown.** A run stays clear of a hang exactly when no notification of the destructor in it
falls between the worker's test and its `wait`; clear of a hang, that is, by one step of the
worker. In every run, a worker that has exited leaves nothing undone that was posted before it saw
the flag. -/
theorem shutdown_iff {as : List (Act ν)} {t : LogicSystem ν κ}
    (h : (system v find).run init as = some t) :
    ((∀ pre s, pre <+: as → (system v find).run init pre = some s →
        ¬ s.hung ∧ ∀ s', s.workerStep find = some s' → ¬ s'.hung) ↔
      ∀ pre a s, pre ++ [a] <+: as → (system v find).run init pre = some s →
        s.NotifiesInTime a) ∧
    (t.worker = .exited → ∃ p, t.seenStop = some p ∧ p <+: t.finished ∧
      t.calls = t.finished.filterMap find) := by
  constructor
  · have keeps : ∀ {s s' : LogicSystem ν κ} {a : Act ν}, s.FlagSet ∧ s.Awake → s.NotifiesInTime a →
        (system v find).step s a = some s' → s'.FlagSet ∧ s'.Awake := by
      rintro s s' a ⟨hf, hs⟩ hc hstep
      have hstep' : step v find s a = some s' := hstep
      exact ⟨step_flagSet hf hstep', step_awake hstep' hf hs hc⟩
    have breaks : ∀ {s s' : LogicSystem ν κ} {a : Act ν}, ¬ s.NotifiesInTime a →
        (system v find).step s a = some s' → ¬ (s'.FlagSet ∧ s'.Awake) := by
      intro s s' a hc hstep hs
      have hstep' : step v find s a = some s' := hstep
      exact step_not_awake hstep' hc hs.2
    have hiff := Lib.System.run_prefix_iff (M := system v find)
      (I := fun s => s.FlagSet ∧ s.Awake) (C := NotifiesInTime)
      ⟨fun hd => absurd rfl hd, nofun⟩
      keeps breaks h
    refine Iff.trans ?_ hiff
    constructor
    · intro hclear pre s hpre hs
      exact ⟨reachable_flagSet (.of_run hs), awake_iff.mpr (hclear pre s hpre hs)⟩
    · intro hinv pre s hpre hs
      exact awake_iff.mp (hinv pre s hpre hs).2
  · intro hw
    have hr : (system v find).Reachable t := .of_run h
    have hdrains := reachable_drains hr
    simp only [Drains, hw] at hdrains
    obtain ⟨p, hp, hpre⟩ := hdrains
    refine ⟨p, hp, hpre, ?_⟩
    rw [(reachable_inv hr).called]
    simp only [inCall, hw, List.append_nil]

/-- A message is posted, then the system is shut down: the worker drains the queue and exits, and
the destructor joins it. -/
def drainRun : List (Act LogicNode) :=
  [.post 0 helloNode, .producer 0, .producer 0, .producer 0, .producer 0, .producer 0,
    .destructor, .destructor, .worker, .worker, .worker, .worker, .worker, .worker, .worker,
    .destructor]

theorem shutdown_iff_drained : ∃ t : LogicSystem LogicNode CallBackArgs,
    (system .notifyUnderLock LogicNode.findCallBack).run init drainRun = some t ∧
      t.destructor = .joined ∧ ∃ p, t.seenStop = some p ∧ p <+: t.finished ∧
        t.calls = t.finished.filterMap LogicNode.findCallBack := by
  obtain ⟨t, ht, hjoined, hexited⟩ : ∃ t : LogicSystem LogicNode CallBackArgs,
      (system .notifyUnderLock LogicNode.findCallBack).run init drainRun = some t ∧
        t.destructor = .joined ∧ t.worker = .exited := ⟨_, rfl, rfl, rfl⟩
  exact ⟨t, ht, hjoined, (shutdown_iff ht).2 hexited⟩

/-- The worker locks and tests; the destructor sets the flag and notifies nobody; the worker
waits. Neither can take another step. -/
theorem shutdown_hangs :
    ¬ (∀ s, (system .notifyUnderLock LogicNode.findCallBack).Reachable s → ¬ s.hung) ∧
      ¬ ∀ s, (system .unlockFirst LogicNode.findCallBack).Reachable s → ¬ s.hung := by
  have hrun : ∀ v, ∃ s, (system v LogicNode.findCallBack).run init
      [.worker, .worker, .destructor, .destructor, .worker] = some s ∧ s.hung :=
    fun _ => ⟨_, rfl, rfl, rfl⟩
  constructor
  · intro h
    obtain ⟨s, hs, hung⟩ := hrun .notifyUnderLock
    exact h s (.of_run hs) hung
  · intro h
    obtain ⟨s, hs, hung⟩ := hrun .unlockFirst
    exact h s (.of_run hs) hung

end LogicSystem
end AsyncEchoServer
