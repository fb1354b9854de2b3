import Mathlib.Algebra.BigOperators.Group.Finset.Basic
import AsyncEchoServer.Lib.Potential
import AsyncEchoServer.Logic.Work
import AsyncEchoServer.ServerV3Mt.Order

/-!
# `ServerV3Mt/Work.lean` — what comes in is worked off

The threads of the server work off what the network brings: a byte is worth at most one pass of the
loop of `HandleRead`, with one message to post, to queue and to answer in it; a completed write or a
connection is worth its three steps under a mutex. `Machine.work` adds up what is still to be done,
by the positions of all threads and the length of the queue. Every step of a thread lowers it, and
only what comes from outside (`Act.credit`) raises it: a completion, a wakeup without a
notification, the destructor.

That a pass has less of its chunk before it than the pass before is where the streams come in: on a
stream with a negative length the loop reads its own counters wrong (`Session/Hostile.lean`).
-/

set_option autoImplicit false

namespace AsyncEchoServer

namespace ServerV3Mt

open ServerV3 (Conn NodeRef ref findCallBack)

/-! ## Positions -/

def AcceptPos.work : AcceptPos → Nat
  | .accepting => 0
  | .inserted _ => 1
  | .locked _ => 2
  | .started _ => 3

def PoolPos.work : PoolPos → Nat
  | .idle => 0
  | .inHandleRead _ _ _ n => byteWork * n + 4
  | .erased _ | .written _ => 1
  | .clearLocked _ | .writeLocked _ _ => 2
  | .clearing _ | .writing _ _ => 3

def SendPos.work : SendPos → Nat
  | .atLock => 3
  | .locked => 2
  | .sent => 1
  | .returned => 0

/-- The handler of pool thread `i`, and its call of `PostMsgToQue`. -/
def Threads.poolWork (s : Threads) (i : Nat) : Nat := (s.pool i).work + (s.logic.producers i).work

theorem SendPos.work_le (s : SendPos) : s.work ≤ 3 := by cases s <;> decide

theorem nextPos_work {uuid n : Nat} {data : Bytes} {turn : Turn Short} (hn : 0 < n)
    (hless : ∀ l, turn.2 = .again l → l.bytesTransferred < n) :
    (nextPos uuid data turn).work + postWork < byteWork * n + 4 := by
  unfold nextPos
  split
  · rename_i l hagain
    have hlt := hless l hagain
    have hmul : byteWork * l.bytesTransferred + byteWork ≤ byteWork * n := Nat.mul_le_mul_left _ hlt
    simp only [PoolPos.work]
    unfold byteWork at *
    omega
  · have hmul : byteWork * 1 ≤ byteWork * n := Nat.mul_le_mul_left _ hn
    unfold byteWork at *
    split <;> simp only [PoolPos.work] <;> omega

/-- A pass that goes round again has used some of its chunk. -/
theorem Own.again {heap : Heap Short} {c : Conn} {nodes : List Nat} {data : Bytes} {copyLen : Int}
    {n : Nat} {turn : Turn Short} {l : Loop Short}
    (h : Own heap c (some (data, copyLen, n)) nodes) (hneg : (ref.parse c.received).tail ≠ .broken)
    (hturn : loopBody receiver data
      { heap := heap, session := c.session, copyLen := copyLen, bytesTransferred := n } = turn)
    (hagain : turn.2 = .again l) : l.bytesTransferred < n := by
  obtain ⟨done, _, hstage⟩ := h.parsed
  exact hstage.again hneg hturn hagain

/-- Two sums that differ in one place. -/
theorem sum_of_eq_except {g g' : Nat → Nat} {n i : Nat} (hi : i < n)
    (h : ∀ j, j ≠ i → g' j = g j) :
    (∑ j ∈ Finset.range n, g' j) + g i = (∑ j ∈ Finset.range n, g j) + g' i := by
  have hmem : i ∈ Finset.range n := Finset.mem_range.mpr hi
  have hrest : ∑ j ∈ (Finset.range n).erase i, g' j = ∑ j ∈ (Finset.range n).erase i, g j :=
    Finset.sum_congr rfl fun j hj => h j (Finset.ne_of_mem_erase hj)
  rw [← Finset.add_sum_erase _ g' hmem, ← Finset.add_sum_erase _ g hmem, hrest]
  omega

namespace Machine

variable {size i : Nat} {f : Short × Bytes → Bytes × Short} {m m' : Machine}

/-- What the threads still have to do. -/
def work (size : Nat) (m : Machine) : Nat :=
  m.acceptor.work + (∑ i ∈ Finset.range size, m.poolWork i) + m.logic.work m.sender.work +
    m.fate.work

/-- A step of one of the server's own threads. -/
def Act.internal : Act → Bool
  | .acceptor | .pool _ | .worker => true
  | .handleAccept _ | .handleRead _ _ | .handleReadError _ | .handleWrite _ _ _ => false
  | .spurious | .destructor => false

/-- What comes from outside, and what it makes there to do. -/
def Act.credit : Act → Nat
  | .handleAccept _ | .handleReadError _ | .handleWrite _ _ _ => 3
  | .handleRead _ chunk => byteWork * chunk.length + 4
  | .spurious | .destructor => wakeWork
  | .acceptor | .pool _ | .worker => 0

/-! ## Who is there -/

/-- Only the threads of the pool call `PostMsgToQue`. -/
def Within (size : Nat) (m : Machine) : Prop := ∀ i, m.logic.producers i ≠ .idle → i < size

theorem within_logicStep {b : LogicSystem.Act NodeRef} {logic : LogicSystem NodeRef CallBackArgs}
    (h : m.Within size) (hstep : m.logicStep b = some logic) (hpost : ∀ i n, b ≠ .post i n) :
    ∀ i, logic.producers i ≠ .idle → i < size :=
  fun i hi => h i fun hidle => hi (LogicSystem.step_idle hstep hpost hidle)

theorem AtHome.lt_size (h : m.AtHome size) (hsize : 0 < size) {uuid : Nat}
    (hpos : (m.pool i).session = some uuid) : i < size := by
  rw [← (h.handlers i uuid hpos).1]
  exact Nat.mod_lt _ hsize

theorem step_within {a : Act} (hsize : 0 < size) (h : m.Within size) (hhome : m.AtHome size)
    (hstep : m.step size f a = some m') : m'.Within size := by
  obtain ⟨hspec, _⟩ := step_cases hstep
  cases hspec with
  | @turn i uuid n data copyLen turn logic pos idle left body posted =>
    have hlt : i < size := hhome.lt_size hsize (by rw [pos]; rfl)
    unfold postTurn at posted
    split at posted
    · cases posted
      exact h
    · intro j hj
      by_cases hji : j = i
      · rw [hji]
        exact hlt
      · have hsame := (LogicSystem.post_work (c := 0) posted).2.2 j hji
        exact h j (by rwa [← hsame])
  | callbackReturn pos sender step => exact within_logicStep h step nofun
  | queue act step =>
    refine within_logicStep h step fun j n heq => ?_
    subst heq
    cases act
  | accept | acceptError | acceptLock | acceptInsert | acceptUnlock | read | readError | writeError |
    write | passEnd | clearLock | clearErase | clearUnlock | writeLock | written | writeFailed |
    writeUnlock | sendLock | send | sendFailed | sendUnlock => exact h

theorem reachable_within (hsize : 0 < size) (h : (system size f).Reachable m) :
    m.Within size := by
  induction h with
  | init => exact fun i hi => absurd rfl hi
  | step hr hstep ih => exact step_within hsize ih (reachable_atHome hr) hstep

/-! ## Every step pays -/

/-- One thread of the pool moves, with the logic queue. -/
theorem work_thread {k c : Nat} (hi : i < size)
    (hothers : ∀ j, j ≠ i → m'.poolWork j = m.poolWork j) (hacc : m'.acceptor = m.acceptor)
    (hfate : m'.fate.work ≤ m.fate.work)
    (hless : m'.poolWork i + m'.logic.work m'.sender.work + k ≤
      m.poolWork i + m.logic.work m.sender.work + c) :
    m'.work size + k ≤ m.work size + c := by
  have hsum : (∑ j ∈ Finset.range size, m'.poolWork j) + m.poolWork i =
      (∑ j ∈ Finset.range size, m.poolWork j) + m'.poolWork i := sum_of_eq_except hi hothers
  unfold work
  rw [hacc]
  omega

/-- No thread of the pool moves. -/
theorem work_still {k c : Nat} (hpool : m'.pool = m.pool)
    (hprod : m'.logic.producers = m.logic.producers)
    (hless : m'.acceptor.work + m'.logic.work m'.sender.work + m'.fate.work + k ≤
      m.acceptor.work + m.logic.work m.sender.work + m.fate.work + c) :
    m'.work size + k ≤ m.work size + c := by
  have hsame : m'.poolWork = m.poolWork := by
    funext j
    unfold Threads.poolWork
    rw [hpool, hprod]
  unfold work
  rw [hsame]
  omega

/-- The acceptor moves, and nobody else. -/
theorem work_accept {k c : Nat} (hpool : m'.pool = m.pool) (hlogic : m'.logic = m.logic)
    (hsender : m'.sender = m.sender) (hfate : m'.fate = m.fate)
    (hless : m'.acceptor.work + k ≤ m.acceptor.work + c) :
    m'.work size + k ≤ m.work size + c := by
  refine work_still hpool (by rw [hlogic]) ?_
  rw [hlogic, hsender, hfate]
  omega

/-- The worker moves, or is woken. -/
theorem work_queue {k c : Nat} (hpool : m'.pool = m.pool) (hacc : m'.acceptor = m.acceptor)
    (hfate : m'.fate = m.fate) (hprod : m'.logic.producers = m.logic.producers)
    (hless : m'.logic.work m'.sender.work + k ≤ m.logic.work m.sender.work + c) :
    m'.work size + k ≤ m.work size + c := by
  refine work_still hpool hprod ?_
  rw [hacc, hfate]
  omega

/-- It moves in `Send`. -/
theorem work_send {n : NodeRef} {c : CallBackArgs} {d : Bool}
    (hpos : m.logic.worker = .running n c d) (hpool : m'.pool = m.pool)
    (hacc : m'.acceptor = m.acceptor) (hlogic : m'.logic = m.logic) (hfate : m'.fate = m.fate)
    (hless : m'.sender.work < m.sender.work) : m'.work size + 1 ≤ m.work size + 0 := by
  refine work_queue hpool hacc hfate (by rw [hlogic]) ?_
  rw [hlogic]
  simp only [LogicSystem.work, hpos, WorkerPos.work]
  omega

/-- The process dies. -/
theorem work_death {fate : Fate} (halive : m.fate = .alive) (hdead : fate ≠ .alive) :
    Machine.work size { m with fate := fate } + 1 ≤ m.work size + 0 := by
  refine work_still rfl rfl ?_
  have hone : m.fate.work = 1 := by rw [halive]; rfl
  show _ + _ + fate.work + 1 ≤ _
  rw [hone, Fate.work_dead hdead]

/-- A thread of the pool moves, and the logic queue has what it had. -/
theorem work_move {p : PoolPos} {k c : Nat} (hi : i < size)
    (hpool : m'.pool = Function.update m.pool i p) (hacc : m'.acceptor = m.acceptor)
    (hlogic : m'.logic = m.logic) (hsender : m'.sender = m.sender) (hfate : m'.fate = m.fate)
    (hless : p.work + k ≤ (m.pool i).work + c) : m'.work size + k ≤ m.work size + c := by
  refine work_thread hi (fun j hj => ?_) hacc (Nat.le_of_eq (by rw [hfate])) ?_
  · unfold Threads.poolWork
    rw [hpool, hlogic, Function.update_of_ne hj]
  · unfold Threads.poolWork
    rw [hpool, hlogic, hsender, Function.update_self]
    omega

/-- A handler begins. -/
theorem work_begin {uuid c : Nat} {p : PoolPos} {conn : Conn} (hsize : 0 < size)
    (hfree : m.free (ioService size uuid) = true) (hp : p.work ≤ c) :
    ((m.setConn uuid conn).moveTo (ioService size uuid) p).work size + 0 ≤ m.work size + c := by
  have hi : ioService size uuid < size := Nat.mod_lt _ hsize
  refine work_move hi rfl rfl rfl rfl rfl ?_
  rw [(Threads.free_idle hfree).1]
  exact Nat.le_trans hp (Nat.le_add_left ..)

/-- A pass, with the call of `PostMsgToQue` in it. -/
theorem work_turn {uuid n : Nat} {data : Bytes} {copyLen : Int} {turn : Turn Short}
    {logic : LogicSystem NodeRef CallBackArgs} (hi : i < size)
    (hpos : m.pool i = .inHandleRead uuid data copyLen n) (hidle : m.logic.producers i = .idle)
    (hleft : 0 < n) (hless : ∀ l, turn.2 = .again l → l.bytesTransferred < n)
    (hpost : m.postTurn i uuid turn = some logic) :
    (m.afterTurn i uuid data turn logic).work size + 1 ≤ m.work size + 0 := by
  have hnext : (nextPos uuid data turn).work + postWork < byteWork * n + 4 :=
    nextPos_work hleft hless
  obtain ⟨hwork, hcall, hothers⟩ : logic.work m.sender.work = m.logic.work m.sender.work ∧
      (logic.producers i).work ≤ postWork ∧
      ∀ j, j ≠ i → logic.producers j = m.logic.producers j := by
    unfold postTurn at hpost
    split at hpost
    · cases hpost
      refine ⟨rfl, ?_, fun _ _ => rfl⟩
      rw [hidle]
      exact Nat.zero_le _
    · obtain ⟨hwork, hcall, hothers⟩ := LogicSystem.post_work (c := m.sender.work) hpost
      exact ⟨hwork, Nat.le_of_eq hcall, hothers⟩
  refine work_thread hi (fun j hj => ?_) rfl ?_ ?_
  · show (Function.update m.pool i (nextPos uuid data turn) j).work + (logic.producers j).work = _
    rw [Function.update_of_ne hj, hothers j hj]
    rfl
  · show (m.fateAfter turn).work ≤ m.fate.work
    unfold fateAfter
    split
    · exact Nat.zero_le _
    · exact Nat.le_refl _
  · have hown : m.poolWork i = byteWork * n + 4 := by
      unfold Threads.poolWork
      rw [hpos, hidle]
      rfl
    show (Function.update m.pool i (nextPos uuid data turn) i).work + (logic.producers i).work +
      logic.work m.sender.work + 1 ≤ _
    rw [Function.update_self, hwork, hown]
    omega

/-- A step in `PostMsgToQue`. -/
theorem work_producer {logic : LogicSystem NodeRef CallBackArgs} (hi : i < size)
    (hstep : m.logicStep (.producer i) = some logic) :
    Machine.work size { m with logic := logic } + 1 ≤ m.work size + 0 := by
  have hprod : m.logic.producerStep .unlockFirst i = some logic := hstep
  obtain ⟨hless, hothers⟩ := LogicSystem.producerStep_work (c := m.sender.work) hprod
  refine work_thread hi (fun j hj => ?_) rfl (Nat.le_refl _) ?_
  · show (m.pool j).work + (logic.producers j).work = _
    rw [hothers j hj]
    rfl
  · show (m.pool i).work + (logic.producers i).work + logic.work m.sender.work + 1 ≤
      (m.pool i).work + (m.logic.producers i).work + m.logic.work m.sender.work + 0
    omega

/-- **Every step pays**: a thread's own step with one of what is to be done, and the others with
what they bring. -/
theorem step_pays {a : Act} (hsize : 0 < size) (hr : (system size f).Reachable m)
    (hneg : m.Unbroken) (hstep : m.step size f a = some m') :
    (m'.work size + if a.internal then 1 else 0) ≤ m.work size + a.credit := by
  have hhome := reachable_atHome hr
  have hreceives := (reachable_data hr hneg).receives
  obtain ⟨hspec, halive⟩ := step_cases hstep
  have hlt : ∀ {i uuid : Nat} {p : PoolPos}, m.pool i = p → p.session = some uuid → i < size :=
    fun hpos hp => hhome.lt_size hsize (by rw [hpos, hp])
  cases hspec with
  | accept pos => exact work_accept rfl rfl rfl rfl (by rw [pos]; exact Nat.le_refl 3)
  | acceptError pos => exact work_accept rfl rfl rfl rfl (Nat.le_add_right _ 3)
  | acceptLock pos free => exact work_accept rfl rfl rfl rfl (by rw [pos]; exact Nat.le_refl 3)
  | acceptInsert pos => exact work_accept rfl rfl rfl rfl (by rw [pos]; exact Nat.le_refl 2)
  | acceptUnlock pos => exact work_accept rfl rfl rfl rfl (by rw [pos]; exact Nat.le_refl 1)
  | read free listens ne le => exact work_begin hsize free (Nat.le_refl _)
  | readError free listens => exact work_begin hsize free (Nat.le_refl 3)
  | writeError free found done => exact work_begin hsize free (Nat.le_refl 3)
  | write free found => exact work_begin hsize free (Nat.le_refl 3)
  | @turn i uuid n data copyLen turn logic pos idle left body posted =>
    refine work_turn (hlt pos rfl) pos idle left (fun l hagain => ?_) posted
    obtain ⟨rfl, _⟩ := hhome.handlers i uuid (by rw [pos]; rfl)
    have hown := hreceives.own uuid
    rw [Machine.pos, pos, show (PoolPos.inHandleRead uuid data copyLen n).net.at uuid =
      some (data, copyLen, n) from ServerV3.NetPos.at_self ..] at hown
    exact hown.again (hneg uuid) body hagain
  | passEnd pos idle =>
    exact work_move (hlt pos rfl) rfl rfl rfl rfl rfl (by rw [pos]; exact Nat.le_add_left 1 3)
  | clearLock pos idle free =>
    exact work_move (hlt pos rfl) rfl rfl rfl rfl rfl (by rw [pos]; exact Nat.le_refl 3)
  | clearErase pos idle =>
    exact work_move (hlt pos rfl) rfl rfl rfl rfl rfl (by rw [pos]; exact Nat.le_refl 2)
  | clearUnlock pos idle =>
    exact work_move (hlt pos rfl) rfl rfl rfl rfl rfl (by rw [pos]; exact Nat.le_refl 1)
  | writeLock pos idle free =>
    exact work_move (hlt pos rfl) rfl rfl rfl rfl rfl (by rw [pos]; exact Nat.le_refl 3)
  | written pos idle done =>
    exact work_move (hlt pos rfl) rfl rfl rfl rfl rfl (by rw [pos]; exact Nat.le_refl 2)
  | writeFailed pos idle fails => exact work_death halive (fun h => by cases h)
  | writeUnlock pos idle =>
    exact work_move (hlt pos rfl) rfl rfl rfl rfl rfl (by rw [pos]; exact Nat.le_refl 1)
  | sendLock pos sender free =>
    exact work_send pos rfl rfl rfl rfl (by rw [sender]; exact Nat.le_refl 3)
  | send pos sender sent =>
    exact work_send pos rfl rfl rfl rfl (by rw [sender]; exact Nat.le_refl 2)
  | sendFailed pos sender fails dead => exact work_death halive dead
  | sendUnlock pos sender =>
    exact work_send pos rfl rfl rfl rfl (by rw [sender]; exact Nat.le_refl 1)
  | callbackReturn pos sender step =>
    have hstep : m.logic.workerStep (findCallBack m.heap) = some _ := step
    have hless := LogicSystem.workerStep_work (c := m.sender.work) (Nat.le_refl 3) hstep
    exact work_queue rfl rfl rfl (LogicSystem.workerStep_producers hstep) hless
  | queue act step =>
    cases act with
    | @producer i calling => exact work_producer (reachable_within hsize hr i calling) step
    | worker out =>
      have hstep : m.logic.workerStep (findCallBack m.heap) = some _ := step
      have hless := LogicSystem.workerStep_work (c := m.sender.work) m.sender.work_le hstep
      exact work_queue rfl rfl rfl (LogicSystem.workerStep_producers hstep) hless
    | spurious =>
      obtain ⟨hle, hprod⟩ := LogicSystem.step_wakes (c := m.sender.work) (Or.inl rfl) step
      exact work_queue rfl rfl rfl hprod hle
    | destructor =>
      obtain ⟨hle, hprod⟩ := LogicSystem.step_wakes (c := m.sender.work) (Or.inr rfl) step
      exact work_queue rfl rfl rfl hprod hle

theorem unbroken_before {a : Act} (hstep : m.step size f a = some m') (hneg : m'.Unbroken) :
    m.Unbroken := by
  intro s
  obtain ⟨b, hb⟩ := step_received hstep s
  have hs := hneg s
  rw [hb] at hs
  exact tail_ne_broken_of_append hs

theorem credit_of_internal {a : Act} (ha : a.internal = true) : a.credit = 0 := by
  cases a with
  | acceptor | pool | worker => rfl
  | handleAccept | handleRead | handleReadError | handleWrite | spurious | destructor => cases ha

/-- What is to be done, as a potential. -/
def potential (f : Short × Bytes → Bytes × Short) (hsize : 0 < size) :
    (system size f).Potential where
  good := Unbroken
  value := work size
  internal := Act.internal
  credit := Act.credit
  before := unbroken_before
  uncredited := credit_of_internal
  pays := step_pays hsize

end Machine
end ServerV3Mt
end AsyncEchoServer
