import AsyncEchoServer.Logic.Handover

/-!
# `Logic/Threads.lean` — the logic queue between many threads

`Logic/Handover.lean` follows one thread that posts everything there is. Here every thread posts
for itself, and what one of them does must be known to leave the calls of the others alone: a call
is pending on its own thread from `post` to its push, and the push takes it to the end of the
queue. What the other threads of the process do (the worker, the destructor) is pending on nobody.
-/

set_option autoImplicit false

namespace AsyncEchoServer
namespace LogicSystem

variable {ν κ : Type} {find : ν → Option κ} {v : Variant} {s s' : LogicSystem ν κ} {i j : Nat}

theorem pendingPost_move_of_ne (h : j ≠ i) (pos : ProducerPos ν) :
    (s.move i pos).pendingPost j = s.pendingPost j := by
  simp only [pendingPost, move, Function.update_of_ne h]

theorem notifyOne_pendingPost (s : LogicSystem ν κ) (j : Nat) :
    s.notifyOne.pendingPost j = s.pendingPost j := by
  unfold notifyOne
  split <;> rfl

/-- What a step in `PostMsgtoQueue` does to what is pending. -/
inductive Pending (s s' : LogicSystem ν κ) (i : Nat) : Prop where
  | stays (pend : s'.pendingPost i = s.pendingPost i) (que : s'.msgQueue = s.msgQueue)
      (post : s'.posted = s.posted)
  | pushed (n : ν) (pend : s.pendingPost i = [n]) (done : s'.pendingPost i = [])
      (que : s'.msgQueue = s.msgQueue ++ [n]) (post : s'.posted = s.posted ++ [n])

theorem Pending.notifyOne (h : Pending s s' i) : Pending s s'.notifyOne i := by
  obtain ⟨hque, hpost, _⟩ := notifyOne_queue s'
  have hpend := notifyOne_pendingPost s' i
  cases h with
  | stays pend que post => exact .stays (hpend.trans pend) (hque.trans que) (hpost.trans post)
  | pushed n pend done que post =>
    exact .pushed n pend (hpend.trans done) (hque.trans que) (hpost.trans post)

theorem producerStep_pending (h : s.producerStep v i = some s') :
    Pending s s' i ∧ ∀ j, j ≠ i → s'.pendingPost j = s.pendingPost j := by
  cases producerStep_cases h with
  | lock pos free =>
    exact ⟨.stays (by simp [pendingPost, move, pos]) rfl rfl,
      fun j hj => pendingPost_move_of_ne hj _⟩
  | push pos =>
    exact ⟨.pushed _ (by simp only [pendingPost, pos]) (by simp [pendingPost, move]) rfl rfl,
      fun j hj => pendingPost_move_of_ne hj _⟩
  | first pos one next_eq =>
    refine ⟨.stays ?_ rfl rfl, fun j hj => pendingPost_move_of_ne hj _⟩
    rcases next_eq with rfl | rfl <;> simp [pendingPost, move, pos]
  | later pos more =>
    exact ⟨.stays (by simp [pendingPost, move, pos]) rfl rfl,
      fun j hj => pendingPost_move_of_ne hj _⟩
  | notify pos =>
    refine ⟨.notifyOne (.stays (by simp [pendingPost, move, pos]) rfl rfl), fun j hj => ?_⟩
    rw [notifyOne_pendingPost, pendingPost_move_of_ne hj]
  | unlock pos =>
    exact ⟨.stays (by simp [pendingPost, move, pos]) rfl rfl,
      fun j hj => pendingPost_move_of_ne hj _⟩
  | unlockFirst pos =>
    exact ⟨.stays (by simp [pendingPost, move, pos]) rfl rfl,
      fun j hj => pendingPost_move_of_ne hj _⟩
  | notifyAfter pos =>
    refine ⟨.notifyOne (.stays (by simp [pendingPost, move, pos]) rfl rfl), fun j hj => ?_⟩
    rw [notifyOne_pendingPost, pendingPost_move_of_ne hj]

/-- A call of `PostMsgtoQueue` is pending on its own thread. -/
theorem post_pending {n : ν} (h : step v find s (.post i n) = some s') :
    s.pendingPost i = [] ∧ s'.pendingPost i = [n] ∧ s'.msgQueue = s.msgQueue ∧
      s'.posted = s.posted ∧ s'.worker = s.worker ∧
      ∀ j, j ≠ i → s'.pendingPost j = s.pendingPost j := by
  simp only [step] at h
  cases hp : s.producers i with
  | idle =>
    rw [hp] at h
    cases h
    refine ⟨by simp only [pendingPost, hp], by simp only [pendingPost, Function.update_self],
      rfl, rfl, rfl, fun j hj => ?_⟩
    simp only [pendingPost, Function.update_of_ne hj]
  | _ =>
    rw [hp] at h
    cases h

/-- The other threads leave every call alone, and only take from the queue. -/
theorem step_pending {a : Act ν} (h : step v find s a = some s') (hpost : ∀ i n, a ≠ .post i n)
    (hprod : ∀ i, a ≠ .producer i) :
    (∀ j, s'.pendingPost j = s.pendingPost j) ∧ s'.posted = s.posted ∧
      ∀ n ∈ s'.msgQueue, n ∈ s.msgQueue := by
  cases a with
  | post i n => exact absurd rfl (hpost i n)
  | producer i => exact absurd rfl (hprod i)
  | spurious =>
    simp only [step] at h
    split at h <;> cases h
    exact ⟨fun _ => rfl, rfl, fun _ hn => hn⟩
  | destructor =>
    cases destructorStep_cases h with
    | notify pos =>
      obtain ⟨hque, hposted, _⟩ := notifyOne_queue ({ s with destructor := .joining })
      exact ⟨fun j => notifyOne_pendingPost _ j, hposted, fun n hn => by rwa [hque] at hn⟩
    | stop | join => exact ⟨fun _ => rfl, rfl, fun _ hn => hn⟩
  | worker =>
    cases workerStep_cases h with
    | pop pos que | popDrain pos que =>
      exact ⟨fun _ => rfl, rfl, fun n hn => by rw [que]; exact List.mem_cons_of_mem _ hn⟩
    | _ => exact ⟨fun _ => rfl, rfl, fun _ hn => hn⟩

/-- What has been handed over, thread by thread. -/
theorem handedOver_congr (hpend : s'.pendingPost i = s.pendingPost i)
    (hpost : s'.posted = s.posted) : s'.handedOver i = s.handedOver i := by
  rw [handedOver, handedOver, hpend, hpost]

/-- The callback the worker is in begins with the front node. -/
theorem workerStep_running (h : s.workerStep find = some s') {n : ν} {c : κ} {d : Bool}
    (hw : s'.worker = .running n c d) : n ∈ s.msgQueue ∧ find n = some c := by
  cases workerStep_cases h with
  | call pos que found =>
    cases hw
    exact ⟨by rw [que]; exact List.mem_cons_self, found⟩
  | _ => cases hw

/-- No other step begins one. -/
theorem step_worker_running {a : Act ν} (h : step v find s a = some s') (ha : a ≠ .worker) {n : ν}
    {c : κ} {d : Bool} (hw : s'.worker = .running n c d) : s.worker = .running n c d := by
  have hwoken : Woken s s' := by
    by_cases hd : a = .destructor
    · subst hd
      exact (destructorStep_aside h).1
    · exact (step_aside h ha hd).worker
  rcases hwoken with heq | ⟨_, heq⟩
  · exact heq.symm.trans hw
  · cases heq.symm.trans hw

end LogicSystem
end AsyncEchoServer
