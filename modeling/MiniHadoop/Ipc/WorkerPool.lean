/-
The threads of a server (`ipc/server.h`, and the same loops in `ndfs/data_xceive_server.h`): `AcceptLoop` pushes each
connection onto a shared vector, the workers of `WorkerLoop` take the last one each, and another thread calls `Stop`.
A step is one access to what the threads share: an atomic flag, the vector under the mutex, or the condition variable.
-/
import MiniHadoop.Base.Counting
import MiniHadoop.Base.Runs
import Mathlib.Algebra.Order.BigOperators.Group.List
import Mathlib.Algebra.Order.Ring.Nat

namespace MiniHadoop.Ipc

open Counting Runs

/-! ## Threads -/

/-- Where the thread of `AcceptLoop` is: before the test of its loop, in `accept`, before the lock with a connection to
push, before `notify_one`, or at its end. -/
inductive Acceptor where
  | testing
  | accepting
  | pushing (conn : Nat)
  | notifying
  | returned
  deriving DecidableEq, Repr

/-- Where a thread of `WorkerLoop` is: before the test of its loop, before the lock, past the wait with the mutex,
before it blocks in the wait with the mutex, blocked, in `HandleConnection`, or at its end. -/
inductive Worker where
  | testing
  | locking
  | woken
  | parking
  | asleep
  | serving (conn : Nat)
  | returned
  deriving DecidableEq, Repr

/-- Where the thread that calls `Stop` is: before the call, and after each of its steps. -/
inductive Stopper where
  | idle
  | stored
  | notified
  | joining
  | returned
  deriving DecidableEq, Repr

namespace Worker

def holdsMutex (w : Worker) : Bool := w = .woken || w = .parking

/-- The connection it handles. -/
def connection : Worker → Option Nat
  | .serving conn => some conn
  | _ => none

/-- On its way to the vector. -/
def coming (w : Worker) : Bool := w = .testing || w = .locking || w = .woken

/-- Blocked, or about to block without another look at the flag. -/
def blocking (w : Worker) : Bool := w = .parking || w = .asleep

/-- What `notify_all` does to a worker. -/
def notified (w : Worker) : Worker := if w = .asleep then .locking else w

end Worker

def Acceptor.connection : Acceptor → Option Nat
  | .pushing conn => some conn
  | _ => none

/-! ## The pool -/

/-- What the threads of a server share, and where each of them is. Connections are numbered in the order in which
`accept` returns them; `started` and `closed` record the calls of `HandleConnection` and their returns. -/
structure Pool where
  running : Bool := true
  listening : Bool := true
  acceptor : Acceptor := .testing
  workers : List Worker
  pending : List Nat := []
  accepted : Nat := 0
  started : List Nat := []
  closed : List Nat := []
  stopper : Stopper := .idle
  deriving DecidableEq, Repr

/-- After `Start` with `num_handlers` workers. -/
def Pool.start (numHandlers : Nat) : Pool := { workers := List.replicate numHandlers .testing }

namespace Pool

/-- Somebody holds `queue_mutex_`. `DataXceiveServer` still does when it notifies (`notifyLocked`); `RpcServer` has
released it. -/
def locked (notifyLocked : Bool) (s : Pool) : Bool :=
  s.workers.any Worker.holdsMutex || (notifyLocked && s.acceptor = .notifying)

def move (s : Pool) (i : Nat) (w : Worker) : Pool := { s with workers := s.workers.set i w }

/-- The connections in `HandleConnection`. -/
def serving (s : Pool) : List Nat := s.workers.filterMap Worker.connection

end Pool

/-- The steps of the threads, with their index for a worker. -/
inductive Event where
  | testAcceptor
  | accept
  | acceptFails
  | push
  | notify (woken : Option Nat)
  | test (i : Nat)
  | lock (i : Nat)
  | take (i : Nat)
  | park (i : Nat)
  | wake (i : Nat)
  | finish (i : Nat)
  | stop
  | notifyAll
  | close
  | join
  deriving DecidableEq, Repr

/-- What the threads do on their own while nobody connects and no connection ends. -/
def Event.Own : Event → Prop
  | .testAcceptor | .push | .notify _ | .test _ | .lock _ | .take _ | .park _ => True
  | _ => False

/-- What ends the acceptor and `Stop` once the flag is cleared. -/
def Event.Closing : Event → Prop
  | .acceptFails | .close | .join => True
  | _ => False

/-- A notification that wakes somebody. -/
def Event.wakes : Event → Bool
  | .notify (some _) => true
  | _ => false

open Pool in
/-- One step. -/
inductive Step (notifyLocked : Bool) (s : Pool) : Event → Pool → Prop
  -- `while (running_)` of the acceptor, and `accept`, which fails once the socket is closed
  | testAcceptor : s.acceptor = .testing →
      Step notifyLocked s .testAcceptor { s with acceptor := if s.running then .accepting else .returned }
  | accept : s.acceptor = .accepting → s.listening = true →
      Step notifyLocked s .accept { s with acceptor := .pushing s.accepted, accepted := s.accepted + 1 }
  | acceptFails : s.acceptor = .accepting → Step notifyLocked s .acceptFails { s with acceptor := .testing }
  | push {conn : Nat} : s.acceptor = .pushing conn → s.locked notifyLocked = false →
      Step notifyLocked s .push { s with acceptor := .notifying, pending := s.pending ++ [conn] }
  -- `notify_one` wakes one of the blocked workers, if there is one
  | notifyOne {i : Nat} : s.acceptor = .notifying → s.workers[i]? = some .asleep →
      Step notifyLocked s (.notify (some i)) ({ s with acceptor := .testing }.move i .locking)
  | notifyNone : s.acceptor = .notifying → .asleep ∉ s.workers →
      Step notifyLocked s (.notify none) { s with acceptor := .testing }
  -- `while (running_)` of a worker
  | test {i : Nat} : s.workers[i]? = some .testing →
      Step notifyLocked s (.test i) (s.move i (if s.running then .locking else .returned))
  -- the lock, and the predicate of the wait
  | lock {i : Nat} : s.workers[i]? = some .locking → s.locked notifyLocked = false →
      Step notifyLocked s (.lock i) (s.move i (if s.pending ≠ [] ∨ s.running = false then .woken else .parking))
  -- past the wait: `if (!running_) return`, then the last connection, if there is one
  | leave {i : Nat} : s.workers[i]? = some .woken → s.running = false →
      Step notifyLocked s (.take i) (s.move i .returned)
  | takeNothing {i : Nat} : s.workers[i]? = some .woken → s.running = true → s.pending = [] →
      Step notifyLocked s (.take i) (s.move i .testing)
  | take {i conn : Nat} {rest : List Nat} : s.workers[i]? = some .woken → s.running = true →
      s.pending = rest ++ [conn] →
      Step notifyLocked s (.take i) { s.move i (.serving conn) with pending := rest, started := s.started ++ [conn] }
  | park {i : Nat} : s.workers[i]? = some .parking → Step notifyLocked s (.park i) (s.move i .asleep)
  -- a spurious wake-up
  | wake {i : Nat} : s.workers[i]? = some .asleep → Step notifyLocked s (.wake i) (s.move i .locking)
  -- `HandleConnection` returns
  | finish {i conn : Nat} : s.workers[i]? = some (.serving conn) →
      Step notifyLocked s (.finish i) { s.move i .testing with closed := s.closed ++ [conn] }
  -- `Stop`: the flag, `notify_all`, the listening socket, and the joins
  | stop : s.stopper = .idle → Step notifyLocked s .stop { s with running := false, stopper := .stored }
  | notifyAll : s.stopper = .stored →
      Step notifyLocked s .notifyAll { s with workers := s.workers.map Worker.notified, stopper := .notified }
  | close : s.stopper = .notified → Step notifyLocked s .close { s with listening := false, stopper := .joining }
  | join : s.stopper = .joining → s.acceptor = .returned → (∀ w ∈ s.workers, w = .returned) →
      Step notifyLocked s .join { s with stopper := .returned }

/-! ## Every connection is in one place -/

section Places

variable {notifyLocked : Bool} {n : Nat} {s s' : Pool} {e : Event} {es : List Event}

/-- The connections that were accepted are pending, with the acceptor, in `HandleConnection` or done, each in one of
these places; those that were started are the last two; and what is pending is in the order of arrival. -/
structure Pool.Conserved (s : Pool) : Prop where
  places : (s.serving ++ (s.closed ++ (s.pending ++ s.acceptor.connection.toList))).Perm (List.range s.accepted)
  started : (s.serving ++ s.closed).Perm s.started
  order : (s.pending ++ s.acceptor.connection.toList).Pairwise (· < ·)

theorem Pool.serving_start (numHandlers : Nat) : (Pool.start numHandlers).serving = [] := by
  unfold Pool.serving Pool.start
  rw [List.filterMap_replicate]
  rfl

theorem Pool.conserved_start (numHandlers : Nat) : (Pool.start numHandlers).Conserved := by
  refine ⟨?_, ?_, .nil⟩
  · rw [serving_start]
    exact List.Perm.refl _
  · rw [serving_start]
    exact List.Perm.refl _

/-- A worker that takes no connection and gives none back. -/
theorem Pool.serving_move {i : Nat} {w w' : Worker} (hi : s.workers[i]? = some w) (hw : w.connection = none)
    (hw' : w'.connection = none) : (s.move i w').serving.Perm s.serving := by
  have hperm := @filterMap_set_perm _ _ _ _ _ w' hi Worker.connection
  rw [hw, hw'] at hperm
  exact hperm

theorem Pool.serving_notified : (s.workers.map Worker.notified).filterMap Worker.connection = s.serving := by
  rw [List.filterMap_map]
  refine List.filterMap_congr fun w _ => ?_
  cases w <;> rfl

theorem Pool.Conserved.lt (h : s.Conserved) {conn : Nat} (hmem : conn ∈ s.pending ++ s.acceptor.connection.toList) :
    conn < s.accepted := by
  have hrange := h.places.mem_iff.1 (List.mem_append_right _ (List.mem_append_right _ hmem))
  exact List.mem_range.1 hrange

/-- What a step of the workers alone has to show: the connections served are the same ones. -/
theorem Pool.Conserved.of_serving (h : s.Conserved) (hserving : s'.serving.Perm s.serving)
    (hclosed : s'.closed = s.closed) (hpending : s'.pending = s.pending)
    (hacceptor : s'.acceptor.connection = s.acceptor.connection) (haccepted : s'.accepted = s.accepted)
    (hstarted : s'.started = s.started) : s'.Conserved := by
  refine ⟨?_, ?_, ?_⟩
  · rw [hclosed, hpending, hacceptor, haccepted]
    exact (hserving.append_right _).trans h.places
  · rw [hclosed, hstarted]
    exact (hserving.append_right _).trans h.started
  · rw [hpending, hacceptor]
    exact h.order

theorem Pool.Conserved.step (h : s.Conserved) (hstep : Step notifyLocked s e s') : s'.Conserved := by
  cases hstep with
  | testAcceptor hacc =>
    refine h.of_serving (List.Perm.refl _) rfl rfl ?_ rfl rfl
    rw [hacc]
    dsimp only
    split <;> rfl
  | accept hacc hlisten =>
    obtain ⟨hplaces, hstarted, horder⟩ := id h
    rw [hacc] at hplaces horder
    simp only [Acceptor.connection, Option.toList_none, List.append_nil] at hplaces horder
    refine ⟨?_, hstarted, ?_⟩
    · rw [List.range_succ]
      simp only [Acceptor.connection, Option.toList_some, ← List.append_assoc]
      rw [← List.append_assoc] at hplaces
      exact hplaces.append_right _
    · simp only [Acceptor.connection, Option.toList_some]
      rw [List.pairwise_append]
      refine ⟨horder, List.pairwise_singleton _ _, fun a ha b hb => ?_⟩
      rw [List.mem_singleton.1 hb]
      exact h.lt (List.mem_append_left _ ha)
  | acceptFails hacc => exact h.of_serving (List.Perm.refl _) rfl rfl (by rw [hacc]; rfl) rfl rfl
  | push hacc hlock =>
    obtain ⟨hplaces, hstarted, horder⟩ := h
    rw [hacc] at hplaces horder
    refine ⟨?_, hstarted, ?_⟩
    · simpa [Acceptor.connection, Pool.serving] using hplaces
    · simpa [Acceptor.connection] using horder
  | notifyOne hacc hi => exact h.of_serving (Pool.serving_move hi rfl rfl) rfl rfl (by rw [hacc]; rfl) rfl rfl
  | notifyNone hacc hnone => exact h.of_serving (List.Perm.refl _) rfl rfl (by rw [hacc]; rfl) rfl rfl
  | test hi => exact h.of_serving (Pool.serving_move hi rfl (by split <;> rfl)) rfl rfl rfl rfl rfl
  | lock hi hlock => exact h.of_serving (Pool.serving_move hi rfl (by split <;> rfl)) rfl rfl rfl rfl rfl
  | leave hi hrun => exact h.of_serving (Pool.serving_move hi rfl rfl) rfl rfl rfl rfl rfl
  | takeNothing hi hrun hnil => exact h.of_serving (Pool.serving_move hi rfl rfl) rfl rfl rfl rfl rfl
  | @take i conn rest hi hrun hpending =>
    obtain ⟨hplaces, hstarted, horder⟩ := h
    have hserving : (s.move i (.serving conn)).serving.Perm (conn :: s.serving) :=
      @filterMap_set_perm _ _ _ _ _ (Worker.serving conn) hi Worker.connection
    rw [hpending] at hplaces horder
    refine ⟨?_, ?_, ?_⟩
    · -- the connection goes from the end of the vector to the worker
      refine ((hserving.append_right _).trans ?_).trans hplaces
      rw [List.perm_iff_count]
      intro a
      simp only [Pool.move, List.count_append, List.count_cons, List.count_nil]
      omega
    · refine (hserving.append_right _).trans ((hstarted.cons conn).trans ?_)
      exact (List.perm_append_singleton conn s.started).symm
    · rw [List.append_assoc] at horder
      refine horder.sublist ((List.Sublist.refl rest).append ?_)
      exact List.sublist_append_right [conn] _
  | park hi => exact h.of_serving (Pool.serving_move hi rfl rfl) rfl rfl rfl rfl rfl
  | wake hi => exact h.of_serving (Pool.serving_move hi rfl rfl) rfl rfl rfl rfl rfl
  | @finish i conn hi =>
    obtain ⟨hplaces, hstarted, horder⟩ := h
    have hserving : (conn :: (s.move i .testing).serving).Perm s.serving :=
      @filterMap_set_perm _ _ _ _ _ Worker.testing hi Worker.connection
    have hdone : ((s.move i .testing).serving ++ (s.closed ++ [conn])).Perm (s.serving ++ s.closed) := by
      refine List.Perm.trans ?_ (hserving.append_right _)
      rw [← List.append_assoc]
      exact List.perm_append_singleton conn _
    refine ⟨?_, hdone.trans hstarted, horder⟩
    rw [← List.append_assoc] at hplaces ⊢
    exact (hdone.append_right _).trans hplaces
  | stop hst => exact h.of_serving (List.Perm.refl _) rfl rfl rfl rfl rfl
  | notifyAll hst =>
    refine h.of_serving ?_ rfl rfl rfl rfl rfl
    rw [Pool.serving, Pool.serving_notified]
  | close hst => exact h.of_serving (List.Perm.refl _) rfl rfl rfl rfl rfl
  | join hst hacc hall => exact h.of_serving (List.Perm.refl _) rfl rfl rfl rfl rfl

theorem Pool.length_workers (hstep : Step notifyLocked s e s') : s'.workers.length = s.workers.length := by
  cases hstep <;> simp [Pool.move]

end Places

/-! ## No connection waits for a blocked worker -/

section Attended

variable {notifyLocked : Bool} {n : Nat} {s s' : Pool} {e : Event} {es : List Event}

/-- The acceptor is about to notify. -/
def Pool.owed (s : Pool) : Nat := if s.acceptor = .notifying then 1 else 0

/-- How many hold the mutex. -/
def Pool.holders (notifyLocked : Bool) (s : Pool) : Nat :=
  s.workers.countP Worker.holdsMutex + if notifyLocked then s.owed else 0

/-- The mutex has one holder at most; and while the server runs, who is past the wait finds a connection, who is about
to block has seen none, and when a worker is blocked there are at least as many workers on their way as connections,
counting the notification to come. -/
structure Pool.Attended (notifyLocked : Bool) (s : Pool) : Prop where
  mutex : s.holders notifyLocked ≤ 1
  woken : s.running = true → .woken ∈ s.workers → s.pending ≠ []
  parking : s.running = true → .parking ∈ s.workers → s.pending = []
  asleep : s.running = true → .asleep ∈ s.workers → s.pending.length ≤ s.workers.countP Worker.coming + s.owed
  alive : s.running = true → .returned ∉ s.workers ∧ s.acceptor ≠ .returned

theorem Pool.locked_eq_false : s.locked notifyLocked = false ↔ s.holders notifyLocked = 0 := by
  unfold Pool.locked Pool.holders Pool.owed
  rw [Bool.or_eq_false_iff, Nat.add_eq_zero_iff, List.countP_eq_zero, List.any_eq_false]
  refine and_congr Iff.rfl ?_
  cases notifyLocked <;> simp

theorem Pool.mem_move {i : Nat} {w x : Worker} (h : x ∈ (s.move i w).workers) : x ∈ s.workers ∨ x = w :=
  List.mem_or_eq_of_mem_set h

/-- A count of the workers when one of them moves. -/
theorem Pool.countP_move {i : Nat} {w : Worker} (hi : s.workers[i]? = some w) (w' : Worker) (p : Worker → Bool) :
    (s.move i w').workers.countP p + (if p w then 1 else 0) = s.workers.countP p + (if p w' then 1 else 0) :=
  countP_set_add hi p

/-- With the mutex free nobody is past the wait or about to block. -/
theorem Pool.not_mem_of_holders (h : s.holders notifyLocked = 0) {w : Worker} (hw : w.holdsMutex = true) :
    w ∉ s.workers := by
  unfold Pool.holders at h
  rw [Nat.add_eq_zero_iff, List.countP_eq_zero] at h
  exact fun hmem => h.1 w hmem hw

theorem Pool.attended_start (numHandlers : Nat) : (Pool.start numHandlers).Attended notifyLocked := by
  have hmem : ∀ w ∈ (Pool.start numHandlers).workers, w = .testing := fun w hw => List.eq_of_mem_replicate hw
  refine ⟨?_, fun _ h => ?_, fun _ h => ?_, fun _ h => ?_, fun _ => ⟨fun h => ?_, fun h => ?_⟩⟩
  · have hzero : (Pool.start numHandlers).workers.countP Worker.holdsMutex = 0 := by
      rw [List.countP_eq_zero]
      intro w hw
      rw [hmem w hw]
      decide
    unfold Pool.holders
    rw [hzero, show (Pool.start numHandlers).owed = 0 from rfl]
    cases notifyLocked <;> decide
  · cases hmem _ h
  · cases hmem _ h
  · cases hmem _ h
  · cases hmem _ h
  · cases h

/-- The only holder of the mutex moves on to where it does not hold it. -/
theorem Pool.Attended.release (h : s.Attended notifyLocked) {i : Nat} {w w' : Worker} (hi : s.workers[i]? = some w)
    (hw : w.holdsMutex = true) (hw' : w'.holdsMutex = false) : (s.move i w').holders notifyLocked = 0 := by
  have hone := h.mutex
  have hcount := Pool.countP_move hi w' Worker.holdsMutex
  unfold Pool.holders at hone ⊢
  rw [hw, hw'] at hcount
  simp only [if_true, Bool.false_eq_true, if_false] at hcount
  have howed : (s.move i w').owed = s.owed := rfl
  rw [howed]
  omega

/-- A worker moves and nothing else changes. -/
theorem Pool.Attended.move (h : s.Attended notifyLocked) {i : Nat} {w w' : Worker} (hi : s.workers[i]? = some w)
    (hmutex : (s.move i w').holders notifyLocked ≤ 1) (hwoken : s.running = true → w' = .woken → s.pending ≠ [])
    (hidle : s.running = true → w' = .parking ∨ w' = .asleep → s.pending = [])
    (hcoming : s.running = true → w.coming = true → w'.coming = true ∨ s.pending = [])
    (halive : s.running = true → w' ≠ .returned) : (s.move i w').Attended notifyLocked := by
  refine ⟨hmutex, fun hrun hmem => ?_, fun hrun hmem => ?_, fun hrun hmem => ?_, fun hrun => ⟨fun hmem => ?_, ?_⟩⟩
  · rcases Pool.mem_move hmem with hold | hnew
    · exact h.woken hrun hold
    · exact hwoken hrun hnew.symm
  · rcases Pool.mem_move hmem with hold | hnew
    · exact h.parking hrun hold
    · exact hidle hrun (.inl hnew.symm)
  · have hpending : (s.move i w').pending = s.pending := rfl
    have howed : (s.move i w').owed = s.owed := rfl
    rw [hpending, howed]
    rcases Pool.mem_move hmem with hold | hnew
    · have hle := h.asleep hrun hold
      have hcount := Pool.countP_move hi w' Worker.coming
      cases hw : w.coming with
      | false => rw [hw] at hcount; simp only [Bool.false_eq_true, if_false] at hcount; omega
      | true =>
        rcases hcoming hrun hw with hw' | hnil
        · rw [hw, hw'] at hcount; omega
        · rw [hnil]; exact Nat.zero_le _
    · rw [hidle hrun (.inr hnew.symm)]; exact Nat.zero_le _
  · rcases Pool.mem_move hmem with hold | hnew
    · exact (h.alive hrun).1 hold
    · exact halive hrun hnew.symm
  · exact (h.alive hrun).2

/-- The holders of the mutex after a move between places outside of it. -/
theorem Pool.Attended.holders_move (h : s.Attended notifyLocked) {i : Nat} {w w' : Worker}
    (hi : s.workers[i]? = some w) (hw' : w'.holdsMutex = false) : (s.move i w').holders notifyLocked ≤ 1 := by
  have hone := h.mutex
  have hcount := Pool.countP_move hi w' Worker.holdsMutex
  unfold Pool.holders at hone ⊢
  rw [hw'] at hcount
  simp only [Bool.false_eq_true, if_false, Nat.add_zero] at hcount
  have howed : (s.move i w').owed = s.owed := rfl
  rw [howed]
  omega

/-- A worker that gets the free mutex is its only holder. -/
theorem Pool.holders_lock {i : Nat} {w w' : Worker} (hi : s.workers[i]? = some w)
    (hfree : s.holders notifyLocked = 0) : (s.move i w').holders notifyLocked ≤ 1 := by
  have hcount := Pool.countP_move hi w' Worker.holdsMutex
  unfold Pool.holders at hfree ⊢
  have howed : (s.move i w').owed = s.owed := rfl
  rw [howed]
  have hle : (if w'.holdsMutex = true then 1 else 0) ≤ 1 := by split <;> decide
  omega

/-- The acceptor moves to where it does not notify, and the workers stay. -/
theorem Pool.Attended.acceptor (h : s.Attended notifyLocked) (hacceptor : s'.acceptor ≠ .notifying)
    (hreturned : s.running = true → s'.acceptor ≠ .returned) (hidle : s.owed = 0 ∨ .asleep ∉ s.workers)
    (hworkers : s'.workers = s.workers) (hpending : s'.pending = s.pending) (hrunning : s'.running = s.running) :
    s'.Attended notifyLocked := by
  have howed : s'.owed = 0 := if_neg hacceptor
  refine ⟨?_, ?_, ?_, fun hrun hmem => ?_, fun hrun => ⟨?_, hreturned (hrunning ▸ hrun)⟩⟩
  · have hone := h.mutex
    unfold Pool.holders at hone ⊢
    rw [howed, hworkers]
    simp only [ite_self]
    omega
  · rw [hrunning, hworkers, hpending]; exact h.woken
  · rw [hrunning, hworkers, hpending]; exact h.parking
  · rw [hrunning] at hrun
    rw [hworkers] at hmem ⊢
    rw [hpending, howed]
    rcases hidle with hzero | hnone
    · have hle := h.asleep hrun hmem
      omega
    · exact absurd hmem hnone
  · rw [hworkers]; exact (h.alive (hrunning ▸ hrun)).1

theorem Pool.Attended.step (h : s.Attended notifyLocked) (hstep : Step notifyLocked s e s') :
    s'.Attended notifyLocked := by
  cases hstep with
  | testAcceptor hacc =>
    refine h.acceptor ?_ (fun hrun => ?_) (.inl (by unfold Pool.owed; rw [hacc]; rfl)) rfl rfl rfl
    · dsimp only; split <;> decide
    · dsimp only; rw [if_pos hrun]; decide
  | accept hacc hlisten =>
    refine h.acceptor ?_ (fun _ => ?_) (.inl (by unfold Pool.owed; rw [hacc]; rfl)) rfl rfl rfl
    · exact fun heq => by cases heq
    · exact fun heq => by cases heq
  | acceptFails hacc =>
    exact h.acceptor (by simp) (fun _ => by simp) (.inl (by unfold Pool.owed; rw [hacc]; rfl)) rfl rfl rfl
  | @push conn hacc hlock =>
    have hfree := Pool.locked_eq_false.1 hlock
    refine ⟨?_, fun _ _ => by simp, fun _ hmem => ?_, fun hrun hmem => ?_, fun hrun => ⟨(h.alive hrun).1, by simp⟩⟩
    · have hnew : Pool.owed { s with acceptor := .notifying, pending := s.pending ++ [conn] } = 1 := rfl
      unfold Pool.holders at hfree ⊢
      rw [Nat.add_eq_zero_iff] at hfree
      rw [hnew]
      dsimp only
      rw [hfree.1]
      split <;> decide
    · exact absurd hmem (Pool.not_mem_of_holders hfree rfl)
    · have hle := h.asleep hrun hmem
      have hold : s.owed = 0 := by unfold Pool.owed; rw [hacc]; rfl
      have hnew : Pool.owed { s with acceptor := .notifying, pending := s.pending ++ [conn] } = 1 := rfl
      rw [hnew, List.length_append, List.length_singleton]
      dsimp only
      omega
  | @notifyOne i hacc hi =>
    have howed : s.owed = 1 := if_pos hacc
    have hnew : ({ s with acceptor := .testing }.move i .locking : Pool).owed = 0 := rfl
    have hcount := fun p => Pool.countP_move hi .locking p
    refine ⟨?_, fun hrun hmem => ?_, fun hrun hmem => ?_, fun hrun hmem => ?_, fun hrun => ⟨fun hmem => ?_, ?_⟩⟩
    · have hone := (h.holders_move hi rfl : (s.move i .locking).holders notifyLocked ≤ 1)
      unfold Pool.holders at hone ⊢
      rw [hnew]
      simp only [ite_self]
      exact Nat.le_trans (Nat.le_add_right _ _) hone
    · rcases Pool.mem_move hmem with hold | heq
      · exact h.woken hrun hold
      · cases heq
    · rcases Pool.mem_move hmem with hold | heq
      · exact h.parking hrun hold
      · cases heq
    · -- the worker that is woken makes up for the notification
      have hle := h.asleep hrun (List.mem_of_getElem? hi)
      have hcoming : (s.move i .locking).workers.countP Worker.coming = s.workers.countP Worker.coming + 1 :=
        hcount Worker.coming
      have hgoal : ({ s with acceptor := .testing }.move i .locking : Pool).workers.countP Worker.coming =
          s.workers.countP Worker.coming + 1 := hcoming
      have hpending : ({ s with acceptor := .testing }.move i .locking : Pool).pending = s.pending := rfl
      rw [hgoal, hnew, hpending]
      omega
    · rcases Pool.mem_move hmem with hold | heq
      · exact (h.alive hrun).1 hold
      · cases heq
    · simp [Pool.move]
  | notifyNone hacc hnone =>
    exact h.acceptor (by simp) (fun _ => by simp) (.inr hnone) rfl rfl rfl
  | test hi =>
    refine h.move hi (h.holders_move hi (by split <;> rfl)) (fun hrun => ?_) (fun hrun => ?_) (fun hrun _ => ?_)
      fun hrun => ?_
    all_goals rw [if_pos hrun]
    · exact fun heq => by cases heq
    · exact fun heq => by rcases heq with heq | heq <;> cases heq
    · exact .inl rfl
    · decide
  | lock hi hlock =>
    refine h.move hi (Pool.holders_lock hi (Pool.locked_eq_false.1 hlock)) (fun hrun heq => ?_) (fun hrun heq => ?_)
      (fun hrun _ => ?_) fun hrun => by split <;> decide
    · split at heq
      · rename_i hor; exact hor.resolve_right (by rw [hrun]; decide)
      · cases heq
    · split at heq
      · rcases heq with heq | heq <;> cases heq
      · rename_i hor
        exact not_not.1 fun hne => hor (.inl hne)
    · split
      · exact .inl rfl
      · rename_i hor
        exact .inr (not_not.1 fun hne => hor (.inl hne))
  | leave hi hrun =>
    have hoff : ¬ s.running = true := by rw [hrun]; decide
    exact h.move hi (h.holders_move hi rfl) (fun hon => absurd hon hoff) (fun hon => absurd hon hoff)
      (fun hon => absurd hon hoff) fun hon => absurd hon hoff
  | takeNothing hi hrun hnil =>
    exact h.move hi (h.holders_move hi rfl) (fun _ heq => by cases heq) (fun _ _ => hnil) (fun _ _ => .inr hnil)
      fun _ => by decide
  | @take i conn rest hi hrun hpending =>
    have hfree : (s.move i (.serving conn)).holders notifyLocked = 0 := h.release hi rfl rfl
    have hback : ∀ {w : Worker}, w ≠ .serving conn → w ∈ (s.move i (.serving conn)).workers → w ∈ s.workers := by
      intro w hne hmem
      exact (Pool.mem_move hmem).resolve_right hne
    refine ⟨Nat.le_trans (Nat.le_of_eq hfree) (Nat.zero_le 1), fun _ hmem => ?_, fun _ hmem => ?_, fun _ hmem => ?_,
      fun _ => ⟨fun hmem => ?_, ?_⟩⟩
    · exact absurd hmem (Pool.not_mem_of_holders hfree rfl)
    · exact absurd hmem (Pool.not_mem_of_holders hfree rfl)
    · have hle := h.asleep hrun (hback (by simp) hmem)
      have hcount : (s.move i (.serving conn)).workers.countP Worker.coming + 1 = s.workers.countP Worker.coming :=
        Pool.countP_move hi (.serving conn) Worker.coming
      have howed : s.owed =
          Pool.owed { s.move i (.serving conn) with pending := rest, started := s.started ++ [conn] } := rfl
      rw [hpending, List.length_append, List.length_singleton] at hle
      rw [← howed]
      dsimp only
      omega
    · exact (h.alive hrun).1 (hback (by simp) hmem)
    · exact (h.alive hrun).2
  | park hi =>
    have hmem := List.mem_of_getElem? hi
    exact h.move hi (h.holders_move hi rfl) (fun _ heq => by cases heq) (fun hrun _ => h.parking hrun hmem)
      (fun _ hw => by cases hw) fun _ => by decide
  | wake hi =>
    exact h.move hi (h.holders_move hi rfl) (fun _ heq => by cases heq)
      (fun _ heq => by rcases heq with heq | heq <;> cases heq) (fun _ hw => by cases hw) fun _ => by decide
  | @finish i conn hi =>
    have hmove : (s.move i .testing).Attended notifyLocked :=
      h.move hi (h.holders_move hi rfl) (fun _ heq => by cases heq)
        (fun _ heq => by rcases heq with heq | heq <;> cases heq) (fun _ hw => by cases hw) fun _ => by decide
    exact ⟨hmove.mutex, hmove.woken, hmove.parking, hmove.asleep, hmove.alive⟩
  | stop hst =>
    refine ⟨h.mutex, ?_, ?_, ?_, ?_⟩ <;> exact fun hrun => by cases hrun
  | notifyAll hst =>
    have hback : ∀ {w : Worker}, w ≠ .locking → w ∈ s.workers.map Worker.notified → w ∈ s.workers ∧ w ≠ .asleep := by
      intro w hw hmem
      obtain ⟨x, hx, rfl⟩ := List.mem_map.1 hmem
      unfold Worker.notified at hw ⊢
      split
      · rename_i heq; exact absurd (if_pos heq) hw
      · rename_i hne; exact ⟨hx, hne⟩
    refine ⟨?_, fun hrun hmem => ?_, fun hrun hmem => ?_, fun hrun hmem => ?_, fun hrun => ⟨fun hmem => ?_, ?_⟩⟩
    · have hcount : (s.workers.map Worker.notified).countP Worker.holdsMutex = s.workers.countP Worker.holdsMutex := by
        rw [List.countP_map]
        refine List.countP_congr fun w _ => ?_
        cases w <;> rfl
      have hone := h.mutex
      unfold Pool.holders at hone ⊢
      rw [← hcount] at hone
      exact hone
    · exact h.woken hrun (hback (by decide) hmem).1
    · exact h.parking hrun (hback (by decide) hmem).1
    · exact absurd rfl (hback (by decide) hmem).2
    · exact (h.alive hrun).1 (hback (by decide) hmem).1
    · exact (h.alive hrun).2
  | close hst => exact ⟨h.mutex, h.woken, h.parking, h.asleep, h.alive⟩
  | join hst hacc hall => exact ⟨h.mutex, h.woken, h.parking, h.asleep, h.alive⟩

theorem Pool.run_ok (h : Run (Step notifyLocked) (Pool.start n) es s) :
    s.Conserved ∧ s.Attended notifyLocked ∧ s.workers.length = n := by
  refine @Run.invariant _ _ _ (fun _ s => s.Conserved ∧ s.Attended notifyLocked ∧ s.workers.length = n) _ _ _ h ?_ ?_
  · exact ⟨Pool.conserved_start n, Pool.attended_start n, List.length_replicate⟩
  · rintro - s e s' ⟨hconserved, hattended, hlen⟩ hstep
    exact ⟨hconserved.step hstep, hattended.step hstep, (Pool.length_workers hstep).trans hlen⟩

/-- In every run each connection that was accepted is in one place only: with one worker, done, in the vector or with
the acceptor. None is handled twice, no more are handled at once than there are workers, and who takes a connection
takes the newest: those that stay are older. -/
theorem connections_served_once (h : Run (Step notifyLocked) (Pool.start n) es s) :
    (s.serving ++ (s.closed ++ (s.pending ++ s.acceptor.connection.toList))).Perm (List.range s.accepted) ∧
    (s.serving ++ s.closed).Perm s.started ∧ s.started.Nodup ∧ s.serving.length ≤ n ∧
    ∀ i s', Step notifyLocked s (.take i) s' → s'.started = s.started ∨
      ∃ conn, s'.started = s.started ++ [conn] ∧ conn ∈ s.pending ∧ ∀ older ∈ s'.pending, older < conn := by
  obtain ⟨hconserved, -, hlen⟩ := Pool.run_ok h
  refine ⟨hconserved.places, hconserved.started, ?_, ?_, fun i s' hstep => ?_⟩
  · have hnodup : (s.serving ++ (s.closed ++ (s.pending ++ s.acceptor.connection.toList))).Nodup :=
      hconserved.places.nodup_iff.2 List.nodup_range
    rw [← List.append_assoc] at hnodup
    exact hconserved.started.nodup_iff.1 (List.nodup_append.1 hnodup).1
  · rw [← hlen]
    exact List.length_filterMap_le _ _
  · have horder := hconserved.order
    cases hstep with
    | leave => exact .inl rfl
    | takeNothing => exact .inl rfl
    | @take _ conn rest hi hrun hpending =>
      rw [hpending] at horder
      refine .inr ⟨conn, rfl, by rw [hpending]; simp, fun older holder => ?_⟩
      have hrest := (List.pairwise_append.1 horder).1
      exact (List.pairwise_append.1 hrest).2.2 older holder conn (List.mem_singleton_self conn)

/-- Two connections arrive before the only worker takes one, the second. -/
theorem served_once_two : ∃ es s, Run (Step false) (Pool.start 1) es s ∧ s.started = [1] ∧ s.pending = [0] ∧
    s.serving.length ≤ 1 := by
  have h : Run (Step false) (Pool.start 1) [.testAcceptor, .accept, .push, .notify none, .testAcceptor, .accept, .push,
      .test 0] { Pool.start 1 with
        acceptor := .notifying, workers := [.locking], pending := [0, 1], accepted := 2 } :=
    (((((((Run.nil.snoc (.testAcceptor rfl)).snoc (.accept rfl rfl)).snoc (.push rfl rfl)).snoc
      (.notifyNone rfl (by decide))).snoc (.testAcceptor rfl)).snoc (.accept rfl rfl)).snoc (.push rfl rfl)).snoc
        (.test rfl)
  have h' := (h.snoc (.lock (i := 0) rfl rfl)).snoc (@Step.take false _ 0 1 [0] rfl rfl rfl)
  exact ⟨_, _, h', rfl, rfl, (connections_served_once h').2.2.2.1⟩

/-! ## The pool comes to rest -/

/-- How many steps of its own a worker can still take, at most. -/
def Worker.weight : Worker → Nat
  | .testing => 4
  | .locking => 3
  | .woken => 2
  | .parking => 1
  | _ => 0

/-- The same for the acceptor, with the worker it will wake. -/
def Acceptor.weight : Acceptor → Nat
  | .pushing _ => 6
  | .notifying => 5
  | .testing => 1
  | _ => 0

def Pool.weight (s : Pool) : Nat := (s.workers.map Worker.weight).sum + s.acceptor.weight

theorem Pool.weight_le (hlen : s.workers.length = n) : s.weight ≤ 4 * n + 6 := by
  have hworkers : (s.workers.map Worker.weight).sum ≤ s.workers.length * 4 := by
    have hle := List.sum_le_card_nsmul (s.workers.map Worker.weight) 4 fun x hx => by
      obtain ⟨w, -, rfl⟩ := List.mem_map.1 hx
      cases w <;> simp [Worker.weight]
    simpa using hle
  have hacceptor : s.acceptor.weight ≤ 6 := by
    cases s.acceptor <;> simp [Acceptor.weight]
  unfold Pool.weight
  omega

/-- Nobody can take a step on its own. -/
def Pool.Quiet (notifyLocked : Bool) (s : Pool) : Prop := ∀ e s', Step notifyLocked s e s' → ¬ e.Own

theorem Pool.weight_move {i : Nat} {w : Worker} (hi : s.workers[i]? = some w) (w' : Worker) :
    (s.move i w').weight + w.weight = s.weight + w'.weight := by
  have hsum := @sum_map_set_add _ _ _ _ w' hi Worker.weight
  unfold Pool.weight Pool.move
  dsimp only
  omega

/-- While the server runs, a step of its own brings the pool closer to rest. -/
theorem Pool.Attended.weight_lt (h : s.Attended notifyLocked) (hrun : s.running = true) (hown : e.Own)
    (hstep : Step notifyLocked s e s') : s'.weight < s.weight ∧ s'.running = true := by
  cases hstep with
  | testAcceptor hacc =>
    refine ⟨?_, hrun⟩
    unfold Pool.weight
    rw [hacc, if_pos hrun]
    simp [Acceptor.weight]
  | push hacc _ =>
    refine ⟨?_, hrun⟩
    unfold Pool.weight
    rw [hacc]
    simp [Acceptor.weight]
  | @notifyOne i hacc hi =>
    refine ⟨?_, hrun⟩
    have hsum := @sum_map_set_add _ _ _ _ Worker.locking hi Worker.weight
    unfold Pool.weight Pool.move
    rw [hacc]
    simp only [Acceptor.weight, Worker.weight] at hsum ⊢
    omega
  | notifyNone hacc _ =>
    refine ⟨?_, hrun⟩
    unfold Pool.weight
    rw [hacc]
    simp [Acceptor.weight]
  | test hi =>
    refine ⟨?_, hrun⟩
    have hweight := Pool.weight_move hi (if s.running then .locking else .returned)
    rw [if_pos hrun] at hweight ⊢
    simp only [Worker.weight] at hweight
    omega
  | lock hi _ =>
    refine ⟨?_, hrun⟩
    split
    · have hweight := Pool.weight_move hi .woken
      simp only [Worker.weight] at hweight
      omega
    · have hweight := Pool.weight_move hi .parking
      simp only [Worker.weight] at hweight
      omega
  | leave _ hstopped => rw [hrun] at hstopped; cases hstopped
  | takeNothing hi _ hnil => exact absurd hnil (h.woken hrun (List.mem_of_getElem? hi))
  | @take _ conn _ hi _ _ =>
    refine ⟨?_, hrun⟩
    have hweight := Pool.weight_move hi (.serving conn)
    simp only [Worker.weight] at hweight
    unfold Pool.weight at hweight ⊢
    dsimp only
    omega
  | park hi =>
    refine ⟨?_, hrun⟩
    have hweight := Pool.weight_move hi .asleep
    simp only [Worker.weight] at hweight
    omega
  | accept => cases hown
  | acceptFails => cases hown
  | wake => cases hown
  | finish => cases hown
  | stop => cases hown
  | notifyAll => cases hown
  | close => cases hown
  | join => cases hown

/-- At rest nobody holds the mutex, the acceptor waits in `accept` or is done, and every worker sleeps, handles a
connection or is done. -/
theorem Pool.Quiet.places (h : s.Quiet notifyLocked) :
    (s.acceptor = .accepting ∨ s.acceptor = .returned) ∧
      ∀ w ∈ s.workers, w = .asleep ∨ w = .returned ∨ ∃ conn, w = .serving conn := by
  have hnotify : s.acceptor ≠ .notifying := by
    intro hacc
    by_cases hmem : .asleep ∈ s.workers
    · obtain ⟨i, hi⟩ := List.getElem?_of_mem hmem
      exact h _ _ (.notifyOne hacc hi) trivial
    · exact h _ _ (.notifyNone hacc hmem) trivial
  have hwoken : .woken ∉ s.workers := by
    intro hmem
    obtain ⟨i, hi⟩ := List.getElem?_of_mem hmem
    cases hrun : s.running with
    | false => exact h _ _ (.leave hi hrun) trivial
    | true =>
      rcases List.eq_nil_or_concat s.pending with hnil | ⟨rest, conn, hpending⟩
      · exact h _ _ (.takeNothing hi hrun hnil) trivial
      · exact h _ _ (.take hi hrun (by rw [hpending, List.concat_eq_append])) trivial
  have hparking : .parking ∉ s.workers := by
    intro hmem
    obtain ⟨i, hi⟩ := List.getElem?_of_mem hmem
    exact h _ _ (.park hi) trivial
  have hfree : s.locked notifyLocked = false := by
    rw [Pool.locked_eq_false]
    unfold Pool.holders Pool.owed
    rw [if_neg hnotify, ite_self, Nat.add_zero, List.countP_eq_zero]
    intro w hw hholds
    cases w with
    | woken => exact hwoken hw
    | parking => exact hparking hw
    | _ => cases hholds
  refine ⟨?_, fun w hw => ?_⟩
  · cases hacc : s.acceptor with
    | testing => exact absurd trivial (h _ _ (.testAcceptor hacc))
    | accepting => exact .inl rfl
    | pushing conn => exact absurd trivial (h _ _ (.push hacc hfree))
    | notifying => exact absurd hacc hnotify
    | returned => exact .inr rfl
  · obtain ⟨i, hi⟩ := List.getElem?_of_mem hw
    cases w with
    | testing => exact absurd trivial (h _ _ (.test hi))
    | locking => exact absurd trivial (h _ _ (.lock hi hfree))
    | woken => exact absurd hw hwoken
    | parking => exact absurd hw hparking
    | asleep => exact .inl rfl
    | serving conn => exact .inr (.inr ⟨conn, rfl⟩)
    | returned => exact .inr (.inl rfl)

/-- No wake-up is lost: from any state of a running server the pool comes to rest after at most `4 n + 6` steps of its
own, whatever their order, and when it rests every connection has been taken or every worker is handling one. -/
theorem no_lost_wakeup (h : Run (Step notifyLocked) (Pool.start n) es s) (hrun : s.running = true) {own : List Event}
    (hown : ∀ e ∈ own, e.Own) (h' : Run (Step notifyLocked) s own s') :
    own.length ≤ 4 * n + 6 ∧
      (s'.Quiet notifyLocked → s'.pending = [] ∨ ∀ w ∈ s'.workers, ∃ conn, w = .serving conn) := by
  obtain ⟨-, hattended, hlen⟩ := Pool.run_ok h
  have hinv : own.length + s'.weight ≤ s.weight ∧ s'.running = true ∧ s'.Attended notifyLocked := by
    induction h' with
    | nil => exact ⟨by simp, hrun, hattended⟩
    | @snoc pre s₁ s₂ e _ hstep ih =>
      obtain ⟨hle, hrun₁, hattended₁⟩ := ih fun e he => hown e (List.mem_append_left _ he)
      obtain ⟨hlt, hrun₂⟩ := hattended₁.weight_lt hrun₁ (hown e (by simp)) hstep
      refine ⟨?_, hrun₂, hattended₁.step hstep⟩
      rw [List.length_append, List.length_singleton]
      omega
  obtain ⟨hle, hrun', hattended'⟩ := hinv
  refine ⟨?_, fun hquiet => ?_⟩
  · have hbound := Pool.weight_le hlen
    omega
  · obtain ⟨hacc, hworkers⟩ := hquiet.places
    by_cases hasleep : .asleep ∈ s'.workers
    · -- nobody is on the way any more
      left
      have hpending := hattended'.asleep hrun' hasleep
      have howed : s'.owed = 0 := by
        unfold Pool.owed
        rcases hacc with hacc | hacc <;> rw [hacc] <;> rfl
      have hcoming : s'.workers.countP Worker.coming = 0 := by
        rw [List.countP_eq_zero]
        intro w hw
        rcases hworkers w hw with rfl | rfl | ⟨conn, rfl⟩ <;> simp [Worker.coming]
      rw [howed, hcoming] at hpending
      exact List.eq_nil_of_length_eq_zero (by omega)
    · right
      intro w hw
      rcases hworkers w hw with rfl | rfl | hserving
      · exact absurd hw hasleep
      · exact absurd hw (hattended'.alive hrun').1
      · exact hserving

/-- A connection that comes while the only worker sleeps. -/
theorem no_lost_wakeup_one : ∃ own s', own.length = 5 ∧ own.length ≤ 4 * 1 + 6 ∧ s'.pending = [] ∧
    Run (Step false) { Pool.start 1 with acceptor := .pushing 0, workers := [.asleep], accepted := 1 } own s' := by
  have h : Run (Step false) (Pool.start 1) [.testAcceptor, .accept, .test 0, .lock 0, .park 0]
      { Pool.start 1 with acceptor := .pushing 0, workers := [.asleep], accepted := 1 } :=
    ((((Run.nil.snoc (.testAcceptor rfl)).snoc (.accept rfl rfl)).snoc (.test rfl)).snoc (.lock rfl rfl)).snoc
      (.park rfl)
  have h' := ((((@Run.nil _ _ (Step false) { Pool.start 1 with
      acceptor := .pushing 0, workers := [.asleep], accepted := 1 }).snoc (.push rfl rfl)).snoc
        (.notifyOne (i := 0) rfl rfl)).snoc (.lock (i := 0) rfl rfl)).snoc (@Step.take false _ 0 0 [] rfl rfl rfl)
  have hown : ∀ e ∈ [Event.push, .notify (some 0), .lock 0, .take 0, .testAcceptor], e.Own := by
    simp [Event.Own]
  have h'' := h'.snoc (.testAcceptor rfl)
  exact ⟨_, _, rfl, (no_lost_wakeup h rfl hown h'').1, rfl, h''⟩

end Attended

/-! ## Stop -/

section Stop

variable {notifyLocked : Bool} {n : Nat} {s s' s₁ s₂ : Pool} {e : Event} {pre post : List Event}

/-- `Stop` clears the flag first, and returns after all workers. -/
structure Pool.StopOk (s : Pool) : Prop where
  stopped : s.stopper ≠ .idle → s.running = false
  joined : s.stopper = .returned → ∀ w ∈ s.workers, w = .returned

theorem Pool.StopOk.step (h : s.StopOk) (hstep : Step notifyLocked s e s') : s'.StopOk := by
  obtain ⟨hstopped, hjoined⟩ := h
  -- no worker moves once all have returned
  have hmove : ∀ {i : Nat} {w : Worker} (w' : Worker), s.workers[i]? = some w → w ≠ .returned →
      s.stopper = .returned → ∀ x ∈ s.workers.set i w', x = .returned := by
    intro i w w' hi hne hreturned
    exact absurd (hjoined hreturned w (List.mem_of_getElem? hi)) hne
  cases hstep with
  | testAcceptor => exact ⟨hstopped, hjoined⟩
  | accept => exact ⟨hstopped, hjoined⟩
  | acceptFails => exact ⟨hstopped, hjoined⟩
  | push => exact ⟨hstopped, hjoined⟩
  | notifyOne _ hi => exact ⟨hstopped, hmove _ hi (by simp)⟩
  | notifyNone => exact ⟨hstopped, hjoined⟩
  | test hi => exact ⟨hstopped, hmove _ hi (by simp)⟩
  | lock hi => exact ⟨hstopped, hmove _ hi (by simp)⟩
  | leave hi => exact ⟨hstopped, hmove _ hi (by simp)⟩
  | takeNothing hi => exact ⟨hstopped, hmove _ hi (by simp)⟩
  | take hi => exact ⟨hstopped, hmove _ hi (by simp)⟩
  | park hi => exact ⟨hstopped, hmove _ hi (by simp)⟩
  | wake hi => exact ⟨hstopped, hmove _ hi (by simp)⟩
  | finish hi => exact ⟨hstopped, hmove _ hi (by simp)⟩
  | stop => exact ⟨fun _ => rfl, fun hreturned => by cases hreturned⟩
  | notifyAll hst => exact ⟨fun _ => hstopped (by rw [hst]; decide), fun hreturned => by cases hreturned⟩
  | close hst => exact ⟨fun _ => hstopped (by rw [hst]; decide), fun hreturned => by cases hreturned⟩
  | join hst _ hall => exact ⟨fun _ => hstopped (by rw [hst]; decide), fun _ => hall⟩

theorem Pool.run_stopOk (h : Run (Step notifyLocked) (Pool.start n) pre s) : s.StopOk := by
  refine @Run.invariant _ _ _ (fun _ s => s.StopOk) _ _ _ h
    ⟨fun hne => absurd rfl hne, fun hreturned => by cases hreturned⟩ ?_
  exact fun _ _ _ _ hok hstep => hok.step hstep

/-- After `notify_all` a worker that blocks is one that had not looked at the flag since, and only a notification or a
spurious wake-up gets it back; no connection is taken any more, and those in the vector stay there. -/
structure Pool.Stopping (s : Pool) (post : List Event) (s' : Pool) : Prop where
  running : s'.running = false
  stopper : s'.stopper ≠ .idle ∧ s'.stopper ≠ .stored
  blocking : s'.workers.countP Worker.blocking + post.countP Event.wakes = s.workers.countP Worker.blocking
  started : s'.started = s.started
  pending : s.pending <+: s'.pending

/-- A worker moves, to block only if it was about to. -/
theorem Pool.Stopping.move (h : s.Stopping post s') {i : Nat} {w w' : Worker} (hi : s'.workers[i]? = some w)
    (hw : w'.blocking = w.blocking) (he : e.wakes = false) : s.Stopping (post ++ [e]) (s'.move i w') := by
  refine ⟨h.running, h.stopper, ?_, h.started, h.pending⟩
  have hcount := Pool.countP_move hi w' Worker.blocking
  have hblocking := h.blocking
  rw [hw] at hcount
  rw [List.countP_append, List.countP_singleton, he]
  simp only [Bool.false_eq_true, if_false]
  omega

/-- A step that leaves the workers alone. -/
theorem Pool.Stopping.other (h : s.Stopping post s') {s'' : Pool} (hworkers : s''.workers = s'.workers)
    (hrunning : s''.running = s'.running) (hstopper : s''.stopper ≠ .idle ∧ s''.stopper ≠ .stored)
    (hstarted : s''.started = s'.started) (hpending : s'.pending <+: s''.pending) (he : e.wakes = false) :
    s.Stopping (post ++ [e]) s'' := by
  refine ⟨hrunning.trans h.running, hstopper, ?_, hstarted.trans h.started, h.pending.trans hpending⟩
  rw [hworkers, List.countP_append, List.countP_singleton, he]
  exact h.blocking

theorem Pool.Stopping.step (h : s.Stopping post s') {s'' : Pool} (hstep : Step notifyLocked s' e s'')
    (hwake : ∀ i, e ≠ .wake i) : s.Stopping (post ++ [e]) s'' := by
  cases hstep with
  | testAcceptor => exact h.other rfl rfl h.stopper rfl (List.prefix_refl _) rfl
  | accept => exact h.other rfl rfl h.stopper rfl (List.prefix_refl _) rfl
  | acceptFails => exact h.other rfl rfl h.stopper rfl (List.prefix_refl _) rfl
  | push => exact h.other rfl rfl h.stopper rfl (List.prefix_append _ _) rfl
  | @notifyOne i hacc hi =>
    refine ⟨h.running, h.stopper, ?_, h.started, h.pending⟩
    have hcount : (s'.move i .locking).workers.countP Worker.blocking + 1 = s'.workers.countP Worker.blocking :=
      Pool.countP_move hi .locking Worker.blocking
    have hblocking := h.blocking
    rw [List.countP_append, List.countP_singleton]
    simp only [Event.wakes, if_true, Pool.move] at hcount ⊢
    omega
  | notifyNone => exact h.other rfl rfl h.stopper rfl (List.prefix_refl _) rfl
  | test hi => exact h.move hi (by rw [h.running]; rfl) rfl
  | lock hi => exact h.move hi (by rw [if_pos (.inr h.running)]; rfl) rfl
  | leave hi => exact h.move hi rfl rfl
  | takeNothing hi hrun => rw [h.running] at hrun; cases hrun
  | take hi hrun => rw [h.running] at hrun; cases hrun
  | park hi => exact h.move hi rfl rfl
  | wake => exact absurd rfl (hwake _)
  | @finish i conn hi =>
    have hmove := @Pool.Stopping.move s s' (.finish i) post h i _ .testing hi rfl rfl
    exact ⟨hmove.running, hmove.stopper, hmove.blocking, hmove.started, hmove.pending⟩
  | stop hst => exact absurd hst h.stopper.1
  | notifyAll hst => exact absurd hst h.stopper.2
  | close => exact h.other rfl rfl ⟨by simp, by simp⟩ rfl (List.prefix_refl _) rfl
  | join => exact h.other rfl rfl ⟨by simp, by simp⟩ rfl (List.prefix_refl _) rfl

theorem Pool.Stopping.run (hall : Step notifyLocked s .notifyAll s₁) (hrun : s.running = false)
    (hpost : Run (Step notifyLocked) s₁ post s₂) (hwake : ∀ i, Event.wake i ∉ post) : s₁.Stopping post s₂ := by
  induction hpost with
  | nil =>
    cases hall
    exact ⟨hrun, ⟨by simp, by simp⟩, by simp, rfl, List.prefix_refl _⟩
  | snoc _ hstep ih =>
    refine (ih fun i hi => hwake i (List.mem_append_left _ hi)).step hstep fun i heq => ?_
    exact hwake i (by simp [heq])

/-- When `notify_all` has been called, the workers that still block are those that were about to. -/
theorem Pool.blocking_notified (l : List Worker) :
    (l.map Worker.notified).countP Worker.blocking = l.countP (· = .parking) := by
  rw [List.countP_map]
  refine List.countP_congr fun w _ => ?_
  cases w <;> simp [Worker.notified, Worker.blocking]

/-- `Stop` takes the flag's mutex nowhere, so that a worker which tested the flag before it was cleared and blocks after
`notify_all` is missed. Without spurious wake-ups, when every connection has ended and no thread can go on, `Stop` has
returned exactly if there was no such worker or the acceptor, with a late connection, has woken it. The connections
that were waiting are never handled. -/
theorem stop_returns_iff (h : Run (Step notifyLocked) (Pool.start n) pre s) (hall : Step notifyLocked s .notifyAll s₁)
    (hpost : Run (Step notifyLocked) s₁ post s₂) (hwake : ∀ i, Event.wake i ∉ post)
    (hrest : ∀ e s', Step notifyLocked s₂ e s' → ¬ e.Own ∧ ¬ e.Closing) (hserved : s₂.serving = []) :
    (s₂.stopper = .returned ↔ .parking ∉ s.workers ∨ ∃ i, Event.notify (some i) ∈ post) ∧
      s₂.started = s.started ∧ s.pending <+: s₂.pending := by
  have hrun : s.running = false := by
    refine (Pool.run_stopOk h).stopped ?_
    cases hall with
    | notifyAll hst => rw [hst]; decide
  have hstopping := Pool.Stopping.run hall hrun hpost hwake
  have hafter : s₁.workers.countP Worker.blocking = s.workers.countP (· = .parking) ∧ s₁.started = s.started ∧
      s₁.pending = s.pending := by
    cases hall with
    | notifyAll _ => exact ⟨Pool.blocking_notified s.workers, rfl, rfl⟩
  obtain ⟨hblocking, hstarted, hpending⟩ := hafter
  have hok₂ : s₂.StopOk := Pool.run_stopOk ((h.snoc hall).append hpost)
  have hquiet : s₂.Quiet notifyLocked := fun e s' hstep => (hrest e s' hstep).1
  obtain ⟨hacc, hworkers⟩ := hquiet.places
  refine ⟨?_, hstopping.started.trans hstarted, hpending ▸ hstopping.pending⟩
  -- what is left at rest: sleeping workers, and those that have returned
  have hends : ∀ w ∈ s₂.workers, w = .asleep ∨ w = .returned := by
    intro w hw
    rcases hworkers w hw with hasleep | hreturned | ⟨conn, rfl⟩
    · exact .inl hasleep
    · exact .inr hreturned
    · have hmem : conn ∈ s₂.serving := List.mem_filterMap.2 ⟨.serving conn, hw, rfl⟩
      rw [hserved] at hmem
      cases hmem
  have hreturned : s₂.stopper = .returned ↔ s₂.workers.countP Worker.blocking = 0 := by
    rw [List.countP_eq_zero]
    constructor
    · intro hst w hw
      rw [hok₂.joined hst w hw]
      decide
    · intro hnone
      have hall₂ : ∀ w ∈ s₂.workers, w = .returned := by
        intro w hw
        refine (hends w hw).resolve_left ?_
        rintro rfl
        exact hnone .asleep hw rfl
      have hacc₂ : s₂.acceptor = .returned := by
        refine hacc.resolve_left fun haccepting => ?_
        exact (hrest _ _ (.acceptFails haccepting)).2 trivial
      cases hst : s₂.stopper with
      | idle => exact absurd hst hstopping.stopper.1
      | stored => exact absurd hst hstopping.stopper.2
      | notified => exact absurd trivial (hrest _ _ (.close hst)).2
      | joining => exact absurd trivial (hrest _ _ (.join hst hacc₂ hall₂)).2
      | returned => rfl
  have hone : s.workers.countP (· = .parking) ≤ 1 := by
    have hmutex := (Pool.run_ok h).2.1.mutex
    unfold Pool.holders at hmutex
    have hle : s.workers.countP (· = .parking) ≤ s.workers.countP Worker.holdsMutex := by
      refine List.countP_mono_left fun w _ hw => ?_
      rw [decide_eq_true_eq] at hw
      rw [hw]
      rfl
    omega
  have hsum := hstopping.blocking
  rw [hblocking] at hsum
  rw [hreturned]
  have hparking : .parking ∉ s.workers ↔ s.workers.countP (· = .parking) = 0 := by
    rw [List.countP_eq_zero]
    constructor
    · intro hnot w hw heq
      rw [decide_eq_true_eq] at heq
      exact hnot (heq ▸ hw)
    · exact fun hnone hmem => hnone _ hmem (by simp)
  have hwoken : (∃ i, Event.notify (some i) ∈ post) ↔ 0 < post.countP Event.wakes := by
    rw [List.countP_pos_iff]
    constructor
    · rintro ⟨i, hi⟩
      exact ⟨_, hi, rfl⟩
    · rintro ⟨e, he, hwakes⟩
      cases e with
      | notify woken =>
        cases woken with
        | some i => exact ⟨i, he⟩
        | none => cases hwakes
      | _ => cases hwakes
  rw [hparking, hwoken]
  omega

/-- The only worker is about to block when `Stop` is called, and `Stop` never returns. -/
theorem stop_hangs : ∃ es s, Run (Step false) (Pool.start 1) es s ∧ Event.stop ∈ es ∧
    (∀ e s', Step false s e s' → ¬ e.Own ∧ ¬ e.Closing) ∧ s.stopper ≠ .returned := by
  have h : Run (Step false) (Pool.start 1) [.test 0, .lock 0, .stop]
      { Pool.start 1 with running := false, workers := [.parking], stopper := .stored } :=
    ((Run.nil.snoc (.test rfl)).snoc (.lock rfl rfl)).snoc (.stop rfl)
  have hall : Step false { Pool.start 1 with running := false, workers := [.parking], stopper := .stored } .notifyAll
      { Pool.start 1 with running := false, workers := [.parking], stopper := .notified } := .notifyAll rfl
  have hpost : Run (Step false) { Pool.start 1 with running := false, workers := [.parking], stopper := .notified }
      [.park 0, .testAcceptor, .close] { Pool.start 1 with
        running := false, listening := false, acceptor := .returned, workers := [.asleep], stopper := .joining } :=
    ((Run.nil.snoc (.park rfl)).snoc (.testAcceptor rfl)).snoc (.close rfl)
  have hrest : ∀ e s', Step false { Pool.start 1 with
      running := false, listening := false, acceptor := .returned, workers := [.asleep], stopper := .joining } e s' →
        ¬ e.Own ∧ ¬ e.Closing := by
    have hone : ∀ {i : Nat} {w : Worker}, [Worker.asleep][i]? = some w → w = .asleep := fun hi =>
      List.mem_singleton.1 (List.mem_of_getElem? hi)
    rintro e s' hstep
    cases hstep with
    | test hi | lock hi _ | leave hi _ | takeNothing hi _ _ | take hi _ _ | park hi | finish hi => cases hone hi
    | wake => exact ⟨fun hown => hown, fun hclosing => hclosing⟩
    | testAcceptor hacc | accept hacc _ | acceptFails hacc | push hacc _ | notifyOne hacc _ | notifyNone hacc _ =>
      cases hacc
    | stop hst | notifyAll hst | close hst => cases hst
    | join _ _ hall => cases hall .asleep (List.mem_singleton_self _)
  refine ⟨_, _, (h.snoc hall).append hpost, by simp, hrest, fun hreturned => ?_⟩
  rcases (stop_returns_iff h hall hpost (by simp) hrest rfl).1.1 hreturned with hnot | ⟨i, hi⟩
  · exact hnot (by simp)
  · simp at hi

end Stop

end MiniHadoop.Ipc
