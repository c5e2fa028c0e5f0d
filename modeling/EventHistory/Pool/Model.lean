import EventHistory.Lib.Monitor

/-!
# `ConnectionPool`

The connection pool of `pg_conn_pool.h` as a machine whose steps are the
critical sections on `mutex_`, the waits and wakeups of `cv_`, and the steps
of the code that runs outside the lock (the reconnect of `ReturnConnection`,
`notify_one`, the special members of `ConnectionHandle`). Calls of `Acquire`
and handles are kept in two lists and named by their position.

A connection object is a number; the heap says which ones exist, which are
open and which statements their server session has prepared. A handle keeps
its two members `pool_` (null or this pool) and `conn_`. While a handle is
being destroyed or assigned to it is inside `ReturnConnection`
(`HandleState.returning`), and the source of an assignment is not used by
anybody else until the assignment is over, as the language asks.

Each step outputs what the code reports on `stderr`, and what it pushes.
-/

namespace EventHistory

open Transition

abbrev ConnId := Nat

/-- The `pqxx::connection` objects. -/
structure Heap where
  alive : List ConnId
  isOpen : ConnId → Bool
  prepared : ConnId → List String
  next : ConnId

namespace Heap

/-- `std::make_unique<pqxx::connection>(conn_string_)`: a fresh session has
no prepared statement. The new object is `h.next`. -/
def connect (h : Heap) : Heap :=
  { alive := h.alive ++ [h.next]
    isOpen := Function.update h.isOpen h.next true
    prepared := Function.update h.prepared h.next []
    next := h.next + 1 }

/-- The object is destroyed. -/
def drop (h : Heap) : Option ConnId → Heap
  | some c => { h with alive := h.alive.erase c }
  | none => h

/-- The server or the network ends the session. -/
def close (h : Heap) (c : ConnId) : Heap :=
  { h with isOpen := Function.update h.isOpen c false }

end Heap

/-! ## Calls and handles -/

/-- One call of `Acquire`, with (`timed`) or without a timeout. `woken` is a
waiter that has left the wait set and has to take the lock again. -/
inductive AcquirePc where
  | entered (timed : Bool)
  | asleep (timed : Bool)
  | woken (timed notified : Bool)
  | returned
  | threw
deriving DecidableEq

/-- The call is about to lock `mutex_` and run its predicate. -/
def AcquirePc.looks : AcquirePc → Bool
  | .entered _ | .woken _ _ => true
  | _ => false

def AcquirePc.isAsleep : AcquirePc → Bool
  | .asleep _ => true
  | _ => false

/-- Where a call of `ReturnConnection` is; `conn` is its parameter. -/
inductive ReturnPc where
  | called (conn : Option ConnId)
  | locking (conn : Option ConnId)
  | notifying (pushed : Bool)
  | finished
deriving DecidableEq

/-- What called `ReturnConnection`: the destructor, or the assignment from
another handle, which goes on afterwards. -/
inductive Caller where
  | destructor
  | assignment (other : Nat)
deriving DecidableEq

structure Handle where
  pool : Bool
  conn : Option ConnId
deriving DecidableEq

inductive HandleState where
  | live (handle : Handle)
  | returning (pc : ReturnPc) (caller : Caller)
  | destroyed
deriving DecidableEq

/-- A handle that was moved from. -/
def Handle.empty : Handle := { pool := false, conn := none }

/-- The condition `(pool_ != nullptr) && conn_`. -/
def Handle.returns (h : Handle) : Bool := h.pool && h.conn.isSome

structure Pool where
  /-- `connections_`, the front first -/
  idle : List ConnId
  heap : Heap
  acquires : List AcquirePc := []
  handles : List HandleState := []

/-- What a step reports. -/
inductive Note where
  | pushed (conn : ConnId)
  | reconnected (conn : ConnId)
  | failedToReconnect
  | poolSizeReduced
deriving DecidableEq

namespace Pool

/-- The constructor, when all `n` connections can be made. -/
def construct (n : Nat) : Pool where
  idle := List.range n
  heap :=
    { alive := List.range n
      isOpen := fun c => c < n
      prepared := fun _ => []
      next := n }

/-- Somebody is assigning from handle `h`. -/
def isSource (p : Pool) (h : Nat) : Bool :=
  p.handles.any fun
    | .returning _ (.assignment other) => other = h
    | _ => false

/-- A handle an operation may be applied to. -/
def handle? (p : Pool) (h : Nat) : Option Handle :=
  match p.handles[h]? with
  | some (.live x) => if p.isSource h then none else some x
  | _ => none

def setHandle (p : Pool) (h : Nat) (x : HandleState) : Pool :=
  { p with handles := p.handles.set h x }

def setAcquire (p : Pool) (i : Nat) (x : AcquirePc) : Pool :=
  { p with acquires := p.acquires.set i x }

/-! ## `Acquire` -/

/-- Lock `mutex_` and run the predicate: take the front of the queue, or
release the lock and sleep. A timed wait that has expired throws instead of
sleeping again. -/
def check (p : Pool) (i : Nat) (expired : Bool) : Option Pool :=
  match p.acquires[i]?, p.idle with
  | some (.entered _), c :: rest | some (.woken _ _), c :: rest =>
      some { p with
        idle := rest
        acquires := p.acquires.set i .returned
        handles := p.handles ++ [.live { pool := true, conn := some c }] }
  | some (.entered timed), [] => some (p.setAcquire i (.asleep timed))
  | some (.woken timed _), [] =>
      some (p.setAcquire i (if timed && expired then .threw else .asleep timed))
  | _, _ => none

/-- A waiter leaves the wait set on its own: its time is over, or it wakes
up spuriously. -/
def wake (p : Pool) (i : Nat) : Option Pool :=
  match p.acquires[i]? with
  | some (.asleep timed) => some (p.setAcquire i (.woken timed false))
  | _ => none

/-! ## `ReturnConnection` -/

/-- The test of `is_open` and the reconnect, which may fail. The old object
is destroyed when the new one takes its place; a failure leaves `conn` as it
was. -/
def testOpen (heap : Heap) (conn : Option ConnId) (connects : Bool) :
    Heap × Option ConnId × List Note :=
  if conn.any heap.isOpen then (heap, conn, [])
  else if connects then
    ((heap.connect).drop conn, some heap.next, [.reconnected heap.next])
  else (heap, conn, [.failedToReconnect])

/-- The critical section of `ReturnConnection`. -/
def push (idle : List ConnId) : Option ConnId → List ConnId × Bool × List Note
  | some c => (idle ++ [c], true, [.pushed c])
  | none => (idle, false, [.poolSizeReduced])

/-- `notify_one`: some waiter of the wait set is notified, if there is one. -/
def notify (acquires : List AcquirePc) : Option Nat → Option (List AcquirePc)
  | some i =>
      match acquires[i]? with
      | some (.asleep timed) => some (acquires.set i (.woken timed true))
      | _ => none
  | none => if acquires.any AcquirePc.isAsleep then none else some acquires

/-! ## Steps -/

inductive Act where
  | acquire (timed : Bool)
  | check (i : Nat) (expired : Bool)
  | wake (i : Nat)
  | moveConstruct (h : Nat)
  | moveAssign (h other : Nat)
  | destroy (h : Nat)
  | testOpen (h : Nat) (connects : Bool)
  | push (h : Nat)
  | notify (h : Nat) (waiter : Option Nat)
  | finish (h : Nat)
  | connectionBreaks (c : ConnId)
deriving DecidableEq

/-- The last three lines of the move assignment. Assigning to `conn_`
destroys what it still held. -/
def takeOver (p : Pool) (h : Nat) (old : Option ConnId) (other : Nat) (y : Handle) : Pool :=
  { (p.setHandle h (.live y)).setHandle other (.live .empty) with heap := p.heap.drop old }

def next (p : Pool) : Act → Option Pool
  | .acquire timed => some { p with acquires := p.acquires ++ [.entered timed] }
  | .check i expired => p.check i expired
  | .wake i => p.wake i
  | .moveConstruct h =>
      (p.handle? h).map fun x =>
        { p with handles := p.handles.set h (.live .empty) ++ [.live x] }
  | .moveAssign h other =>
      (p.handle? h).bind fun x =>
        (p.handle? other).map fun y =>
          if h = other then p
          else if x.returns then
            p.setHandle h (.returning (.called x.conn) (.assignment other))
          else p.takeOver h x.conn other y
  | .destroy h =>
      (p.handle? h).map fun x =>
        if x.returns then p.setHandle h (.returning (.called x.conn) .destructor)
        else { p.setHandle h .destroyed with heap := p.heap.drop x.conn }
  | .testOpen h connects =>
      match p.handles[h]? with
      | some (.returning (.called conn) caller) =>
          let (heap, conn, _) := Pool.testOpen p.heap conn connects
          some { p.setHandle h (.returning (.locking conn) caller) with heap }
      | _ => none
  | .push h =>
      match p.handles[h]? with
      | some (.returning (.locking conn) caller) =>
          let (idle, pushed, _) := Pool.push p.idle conn
          some { p.setHandle h (.returning (.notifying pushed) caller) with idle }
      | _ => none
  | .notify h waiter =>
      match p.handles[h]? with
      | some (.returning (.notifying _) caller) =>
          (Pool.notify p.acquires waiter).map fun acquires =>
            { p.setHandle h (.returning .finished caller) with acquires }
      | _ => none
  | .finish h =>
      match p.handles[h]? with
      | some (.returning .finished .destructor) => some (p.setHandle h .destroyed)
      | some (.returning .finished (.assignment other)) =>
          match p.handles[other]? with
          | some (.live y) => some (p.takeOver h none other y)
          | _ => none
      | _ => none
  | .connectionBreaks c => some { p with heap := p.heap.close c }

def notes (p : Pool) : Act → List Note
  | .testOpen h connects =>
      match p.handles[h]? with
      | some (.returning (.called conn) _) => (Pool.testOpen p.heap conn connects).2.2
      | _ => []
  | .push h =>
      match p.handles[h]? with
      | some (.returning (.locking conn) _) => (Pool.push p.idle conn).2.2
      | _ => []
  | _ => []

/-- A pool of `n` connections, as a machine that outputs what it reports. -/
def machine (n : Nat) : Machine Pool Note := .ofFn (· = construct n) next notes

/-! ### The steps, by rule -/

/-- What each step does, with its guard. -/
inductive Step (p : Pool) : Act → Pool → Prop
  | acquire (timed : Bool) :
      Step p (.acquire timed) { p with acquires := p.acquires ++ [.entered timed] }
  | take {i : Nat} {expired : Bool} {a : AcquirePc} {c : ConnId} {rest : List ConnId} :
      p.acquires[i]? = some a → a.looks = true → p.idle = c :: rest →
      Step p (.check i expired) { p with
        idle := rest
        acquires := p.acquires.set i .returned
        handles := p.handles ++ [.live { pool := true, conn := some c }] }
  | sleep {i : Nat} {expired timed : Bool} {a : AcquirePc} :
      p.acquires[i]? = some a → a.looks = true → p.idle = [] →
      Step p (.check i expired) (p.setAcquire i (.asleep timed))
  | giveUp {i : Nat} {notified : Bool} :
      p.acquires[i]? = some (.woken true notified) → p.idle = [] →
      Step p (.check i true) (p.setAcquire i .threw)
  | wake {i : Nat} {timed : Bool} :
      p.acquires[i]? = some (.asleep timed) →
      Step p (.wake i) (p.setAcquire i (.woken timed false))
  | moveConstruct {h : Nat} {x : Handle} :
      p.handle? h = some x →
      Step p (.moveConstruct h)
        { p with handles := p.handles.set h (.live .empty) ++ [.live x] }
  | selfAssign {h : Nat} {x : Handle} :
      p.handle? h = some x → Step p (.moveAssign h h) p
  | assignReturning {h other : Nat} {x y : Handle} :
      h ≠ other → p.handle? h = some x → p.handle? other = some y → x.returns = true →
      Step p (.moveAssign h other)
        (p.setHandle h (.returning (.called x.conn) (.assignment other)))
  | assign {h other : Nat} {x y : Handle} :
      h ≠ other → p.handle? h = some x → p.handle? other = some y → x.returns = false →
      Step p (.moveAssign h other) (p.takeOver h x.conn other y)
  | destroyReturning {h : Nat} {x : Handle} :
      p.handle? h = some x → x.returns = true →
      Step p (.destroy h) (p.setHandle h (.returning (.called x.conn) .destructor))
  | destroy {h : Nat} {x : Handle} :
      p.handle? h = some x → x.returns = false →
      Step p (.destroy h) { p.setHandle h .destroyed with heap := p.heap.drop x.conn }
  | testOpen {h : Nat} {conn : Option ConnId} {caller : Caller} (connects : Bool) :
      p.handles[h]? = some (.returning (.called conn) caller) →
      Step p (.testOpen h connects)
        { p.setHandle h
            (.returning (.locking (Pool.testOpen p.heap conn connects).2.1) caller) with
          heap := (Pool.testOpen p.heap conn connects).1 }
  | push {h : Nat} {conn : Option ConnId} {caller : Caller} :
      p.handles[h]? = some (.returning (.locking conn) caller) →
      Step p (.push h)
        { p.setHandle h (.returning (.notifying (Pool.push p.idle conn).2.1) caller) with
          idle := (Pool.push p.idle conn).1 }
  | notify {h i : Nat} {pushed timed : Bool} {caller : Caller} :
      p.handles[h]? = some (.returning (.notifying pushed) caller) →
      p.acquires[i]? = some (.asleep timed) →
      Step p (.notify h (some i))
        { p.setHandle h (.returning .finished caller) with
          acquires := p.acquires.set i (.woken timed true) }
  | notifyNobody {h : Nat} {pushed : Bool} {caller : Caller} :
      p.handles[h]? = some (.returning (.notifying pushed) caller) →
      (∀ a ∈ p.acquires, a.isAsleep = false) →
      Step p (.notify h none) (p.setHandle h (.returning .finished caller))
  | finish {h : Nat} :
      p.handles[h]? = some (.returning .finished .destructor) →
      Step p (.finish h) (p.setHandle h .destroyed)
  | finishAssign {h other : Nat} {y : Handle} :
      p.handles[h]? = some (.returning .finished (.assignment other)) →
      p.handles[other]? = some (.live y) →
      Step p (.finish h) (p.takeOver h none other y)
  | connectionBreaks (c : ConnId) :
      Step p (.connectionBreaks c) { p with heap := p.heap.close c }

theorem step_of_check {p p' : Pool} {i : Nat} {expired : Bool}
    (h : p.check i expired = some p') : Step p (.check i expired) p' := by
  unfold check at h
  split at h
  · obtain rfl := Option.some.inj h
    exact .take ‹_› rfl ‹_›
  · obtain rfl := Option.some.inj h
    exact .take ‹_› rfl ‹_›
  · obtain rfl := Option.some.inj h
    exact .sleep ‹_› rfl ‹_›
  · rename_i timed notified ha hidle
    obtain rfl := Option.some.inj h
    by_cases hexp : (timed && expired) = true
    · obtain ⟨rfl, rfl⟩ := Bool.and_eq_true _ _ |>.mp hexp
      exact .giveUp ha hidle
    · rw [if_neg hexp]
      exact .sleep ha rfl hidle
  · cases h

theorem step_of_notify {p p' : Pool} {h : Nat} {waiter : Option Nat} {pushed : Bool}
    {caller : Caller} (hh : p.handles[h]? = some (.returning (.notifying pushed) caller))
    (hn : ((notify p.acquires waiter).map fun acquires =>
      { p.setHandle h (.returning .finished caller) with acquires }) = some p') :
    Step p (.notify h waiter) p' := by
  obtain ⟨acquires, ha, rfl⟩ := Option.map_eq_some_iff.mp hn
  unfold notify at ha
  split at ha
  · split at ha
    · obtain rfl := Option.some.inj ha
      exact .notify hh ‹_›
    · cases ha
  · split at ha
    · cases ha
    · rename_i hany
      obtain rfl := Option.some.inj ha
      have hnone := List.any_eq_false.mp (Bool.eq_false_iff.mpr hany)
      exact .notifyNobody hh fun a ha => Bool.eq_false_iff.mpr (hnone a ha)

theorem step_of_next {p p' : Pool} {a : Act} (hn : p.next a = some p') : Step p a p' := by
  cases a with
  | acquire timed =>
      obtain rfl := Option.some.inj hn
      exact .acquire timed
  | check i expired => exact step_of_check hn
  | wake i =>
      simp only [next, wake] at hn
      split at hn
      · obtain rfl := Option.some.inj hn
        exact .wake ‹_›
      · cases hn
  | moveConstruct h =>
      obtain ⟨x, hx, rfl⟩ := Option.map_eq_some_iff.mp hn
      exact .moveConstruct hx
  | moveAssign h other =>
      obtain ⟨x, hx, hn⟩ := Option.bind_eq_some_iff.mp hn
      obtain ⟨y, hy, rfl⟩ := Option.map_eq_some_iff.mp hn
      by_cases heq : h = other
      · subst heq
        rw [if_pos rfl]
        exact .selfAssign hx
      · rw [if_neg heq]
        cases hr : x.returns with
        | true => exact .assignReturning heq hx hy hr
        | false => exact .assign heq hx hy hr
  | destroy h =>
      obtain ⟨x, hx, rfl⟩ := Option.map_eq_some_iff.mp hn
      cases hr : x.returns with
      | true => exact .destroyReturning hx hr
      | false => exact .destroy hx hr
  | testOpen h connects =>
      simp only [next] at hn
      split at hn
      · obtain rfl := Option.some.inj hn
        exact .testOpen connects ‹_›
      · cases hn
  | push h =>
      simp only [next] at hn
      split at hn
      · obtain rfl := Option.some.inj hn
        exact .push ‹_›
      · cases hn
  | notify h waiter =>
      simp only [next] at hn
      split at hn
      · exact step_of_notify ‹_› hn
      · cases hn
  | finish h =>
      simp only [next] at hn
      split at hn
      · obtain rfl := Option.some.inj hn
        exact .finish ‹_›
      · split at hn
        · obtain rfl := Option.some.inj hn
          exact .finishAssign ‹_› ‹_›
        · cases hn
      · cases hn
  | connectionBreaks c =>
      obtain rfl := Option.some.inj hn
      exact .connectionBreaks c

/-! ### Counting handles -/

section Counting

variable {p : Pool} {h other : Nat}

theorem getElem?_of_handle? {x : Handle} (hx : p.handle? h = some x) :
    p.handles[h]? = some (.live x) := by
  unfold handle? at hx
  split at hx
  · split at hx
    · cases hx
    · obtain rfl := Option.some.inj hx
      assumption
  · cases hx

/-- The end of an assignment, counted: what the target was is gone, what the
source had is in the target, and the source is empty. -/
theorem countP_takeOver {a : HandleState} {y : Handle} (hne : h ≠ other)
    (ha : p.handles[h]? = some a) (hy : p.handles[other]? = some (.live y))
    (old : Option ConnId) (f : HandleState → Bool) :
    (p.takeOver h old other y).handles.countP f + (f a).toNat =
      p.handles.countP f + (f (.live .empty)).toNat := by
  have h₁ := countP_set ha f (.live y)
  have hy' : (p.handles.set h (.live y))[other]? = some (.live y) := by
    rw [List.getElem?_set_ne hne]
    exact hy
  have h₂ := countP_set hy' f (.live .empty)
  simp only [takeOver, setHandle]
  omega

theorem countP_moveConstruct {x : Handle} (hx : p.handles[h]? = some (.live x))
    (f : HandleState → Bool) :
    (p.handles.set h (.live .empty) ++ [HandleState.live x]).countP f =
      p.handles.countP f + (f (.live .empty)).toNat := by
  have h₁ := countP_set hx f (.live .empty)
  rw [List.countP_append, List.countP_singleton]
  cases hf : f (.live x) <;> simp [hf] at h₁ ⊢ <;> omega

end Counting

end Pool

end EventHistory
