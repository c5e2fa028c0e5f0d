import Mathlib.Data.Finset.Card
import EventHistory.Pool.Created
import EventHistory.Pool.Drain
import EventHistory.System.EventLog

/-!
# The repository and its connections

`PostgresEventsRepo` over the `ConnectionPool` that `CreatePreparedPool` made,
as the server of `main` runs them. A call of the repository that needs the
database is a call of `Acquire` first, then its transaction on the connection
of the handle, and at its end the destructor of the handle, which runs when
the result is there and before the caller sees it. Statements are executed by
the connection: it has to be open, and its session has to have prepared them.
An exception may come out of any of them, but not out of `Acquire`, which has
no timeout here.
-/

namespace EventHistory

open Transition

/-! ## Calls and connections -/

/-- What a call of the repository has of the pool: a call of `Acquire`, or a
handle, by their positions. -/
inductive ConnUse where
  | nothing
  | waiting (acquire : Nat)
  | holding (handle : Nat)
deriving DecidableEq

structure Pooled (ι : Type) where
  repo : Repository ι := {}
  pool : Pool
  uses : ι → ConnUse := fun _ => .nothing

inductive PooledInput (ι : Type) where
  | repo (i : ι) (input : RepoInput)
  | pool (i : ι) (act : Pool.Act)
  | connectionBreaks (c : ConnId)

/-- The prepared statement of the operation. -/
def ReadOp.statement : ReadOp → String
  | .getEvents _ => "get_events"
  | .getStats => "get_stats"

namespace RepoCall

/-- The call is at its `Acquire`; `SaveEvents` returns before it when there is
nothing to insert. -/
def wants : RepoCall → Bool
  | .saving c =>
      match c.pc with
      | .entered => !c.events.isEmpty
      | _ => false
  | .reading c =>
      match c.pc with
      | .entered => true
      | _ => false
  | .idle => false

/-- A transaction is open, and something was executed in it or will be. -/
def opened : RepoCall → Bool
  | .saving c =>
      match c.pc with
      | .loop _ | .payload _ _ _ => true
      | _ => false
  | .reading c =>
      match c.pc with
      | .executed _ => true
      | _ => false
  | .idle => false

end RepoCall

namespace Pooled

variable {ι : Type} [DecidableEq ι]

/-- The connection of the handle that thread `i` has. -/
def conn? (s : Pooled ι) (i : ι) : Option ConnId :=
  match s.uses i with
  | .holding h =>
      match s.pool.handles[h]? with
      | some (.live x) => x.conn
      | _ => none
  | _ => none

/-- The connection of thread `i` is open. -/
def connected (s : Pooled ι) (i : ι) : Bool :=
  (s.conn? i).any s.pool.heap.isOpen

/-- And its session has prepared the statement. -/
def canExecute (s : Pooled ι) (i : ι) (name : String) : Bool :=
  s.connected i && (s.conn? i).any fun c => (s.pool.heap.prepared c).contains name

/-- The call has nothing of the pool any more. -/
def released (s : Pooled ι) (i : ι) : Bool :=
  match s.uses i with
  | .nothing => true
  | .waiting _ => false
  | .holding h => s.pool.handles[h]? = some .destroyed

/-- Whether a step of `SaveEvents` is possible with the connection of thread
`i`. -/
def allowsSave (s : Pooled ι) (i : ι) (c : SaveCall) : SaveInput → Bool
  | .proceed =>
      match c.pc with
      | .entered => c.events.isEmpty || (s.conn? i).isSome
      | .payload _ _ _ => s.canExecute i "insert_payload"
      | .loop _ => s.connected i
      | _ => false
  | .insertEvent _ => s.canExecute i "insert_event"
  | .fail _ =>
      match c.pc with
      | .entered => false
      | _ => (s.conn? i).isSome
  | .call _ | .leave => false

/-- The same for `GetEvents` and `GetStats`. -/
def allowsRead (s : Pooled ι) (i : ι) (c : ReadCall) : ReadInput → Bool
  | .exec _ => s.canExecute i c.op.statement
  | .commit => s.connected i
  | .fail _ => (s.conn? i).isSome

def allows (s : Pooled ι) (i : ι) : RepoInput → Bool
  | .call _ => true
  | .save input =>
      match s.repo.calls i with
      | .saving c => s.allowsSave i c input
      | _ => false
  | .read input =>
      match s.repo.calls i with
      | .reading c => s.allowsRead i c input
      | _ => false
  | .leave => s.released i

/-- The steps of the pool that thread `i` takes. Its handle is destroyed when
the call has its result. -/
def mine (s : Pooled ι) (i : ι) : Pool.Act → Bool
  | .acquire timed => !timed && s.uses i = .nothing && (s.repo.calls i).wants
  | .check k _ | .wake k => s.uses i = .waiting k
  | .destroy h => s.uses i = .holding h && (s.repo.calls i).result.isSome
  | .testOpen h _ | .push h | .notify h _ | .finish h => s.uses i = .holding h
  | .moveConstruct _ | .moveAssign _ _ | .connectionBreaks _ => false

/-- What thread `i` has of the pool behind a step that led to `pool`. -/
def useAfter (s : Pooled ι) (i : ι) (pool : Pool) : Pool.Act → ConnUse
  | .acquire _ => .waiting s.pool.acquires.length
  | .check _ _ =>
      if pool.handles.length = s.pool.handles.length then s.uses i
      else .holding s.pool.handles.length
  | _ => s.uses i

def next (pg : Pg) (s : Pooled ι) : PooledInput ι → Option (Pooled ι)
  | .repo i input =>
      if s.allows i input then
        (s.repo.next pg (i, input)).map fun repo =>
          match input with
          | .leave => { s with repo, uses := Function.update s.uses i .nothing }
          | _ => { s with repo }
      else none
  | .pool i act =>
      if s.mine i act then
        (s.pool.next act).map fun pool =>
          { s with pool, uses := Function.update s.uses i (s.useAfter i pool act) }
      else none
  | .connectionBreaks c =>
      (s.pool.next (.connectionBreaks c)).map fun pool => { s with pool }

def labels (s : Pooled ι) : PooledInput ι → List (ι × Label RepoOp RepoResult)
  | .repo i input => s.repo.labels (i, input)
  | .pool _ _ | .connectionBreaks _ => []

/-- The database arranges rows as `ORDER BY` allows. -/
def Orders : PooledInput ι → Prop
  | .repo i input => Repository.Orders (i, input)
  | .pool _ _ | .connectionBreaks _ => True

/-- The pool as `CreatePreparedPool` leaves it, and nobody calls. -/
def init (n : Nat) (s : Pooled ι) : Prop :=
  ∃ connects made, Pool.createPreparedPool Pool.prepareStatements connects n = some made
    ∧ s = { pool := made.pool }

/-- All runs of the repository over a pool of `n` connections. -/
def machine (ι : Type) [DecidableEq ι] (pg : Pg) (n : Nat) :
    Machine (Pooled ι) (ι × Label RepoOp RepoResult) :=
  .ofFnWhere (init n) (next pg) labels fun _ => Orders

/-- What each step does, with its guard. -/
inductive Step (pg : Pg) (s : Pooled ι) : PooledInput ι → Pooled ι → Prop
  | repo {i : ι} {input : RepoInput} {repo : Repository ι} :
      s.allows i input = true → s.repo.next pg (i, input) = some repo → input ≠ .leave →
      Step pg s (.repo i input) { s with repo }
  | leave {i : ι} {result : RepoResult} :
      s.released i = true → (s.repo.calls i).result = some result →
      Step pg s (.repo i .leave)
        { s with repo := s.repo.setCall i .idle, uses := Function.update s.uses i .nothing }
  | pool {i : ι} {act : Pool.Act} {pool : Pool} :
      s.mine i act = true → s.pool.next act = some pool →
      Step pg s (.pool i act)
        { s with pool, uses := Function.update s.uses i (s.useAfter i pool act) }
  | connectionBreaks (c : ConnId) :
      Step pg s (.connectionBreaks c) { s with pool := { s.pool with heap := s.pool.heap.close c } }

theorem step_of_next {pg : Pg} {s s' : Pooled ι} {a : PooledInput ι}
    (h : s.next pg a = some s') : Step pg s a s' := by
  cases a with
  | repo i input =>
      simp only [next] at h
      split at h
      next hallows =>
        obtain ⟨r, hr, rfl⟩ := Option.map_eq_some_iff.mp h
        cases input with
        | call op => exact .repo hallows hr (by simp)
        | save input => exact .repo hallows hr (by simp)
        | read input => exact .repo hallows hr (by simp)
        | leave =>
            obtain ⟨result, hresult, rfl⟩ := Repository.next_leave hr
            exact .leave hallows hresult
      next => cases h
  | pool i act =>
      simp only [next] at h
      split at h
      next hmine =>
        obtain ⟨p, hp, rfl⟩ := Option.map_eq_some_iff.mp h
        exact .pool hmine hp
      next => cases h
  | connectionBreaks c =>
      obtain rfl := Option.some.inj h
      exact .connectionBreaks c

/-! ## Calls and what they have -/

/-- The call of `Acquire` at `k` has not returned. -/
def Waits (p : Pool) (k : Nat) : Prop := ∃ a, p.acquires[k]? = some a ∧ a ≠ .returned

/-- A call and what it has of the pool fit together: it is at its `Acquire`,
it has the handle of a connection, or it has its result and the handle is on
its way out. -/
inductive Uses (p : Pool) (c : RepoCall) : ConnUse → Prop
  | nothing : c.opened = false → Uses p c .nothing
  | waiting {k : Nat} : c.wants = true → Waits p k → Uses p c (.waiting k)
  | holding {h : Nat} {conn : ConnId} :
      c ≠ .idle → p.handles[h]? = some (.live { pool := true, conn := some conn }) →
      Uses p c (.holding h)
  | returning {h : Nat} {pc : ReturnPc} :
      c.result.isSome = true → p.handles[h]? = some (.returning pc .destructor) →
      Uses p c (.holding h)
  | gone {h : Nat} :
      c.result.isSome = true → p.handles[h]? = some .destroyed → Uses p c (.holding h)

/-- A step of a call inside the repository. -/
inductive Moves (pg : Pg) (s : Pooled ι) (i : ι) : RepoCall → RepoInput → RepoCall → Prop
  | call (op : RepoOp) : Moves pg s i .idle (.call op) (.start op)
  | save {c c' : SaveCall} {input : SaveInput} {db : Db} :
      s.allowsSave i c input = true → SaveCall.Step pg s.repo.db c input db c' →
      Moves pg s i (.saving c) (.save input) (.saving c')
  | read {c c' : ReadCall} {input : ReadInput} :
      s.allowsRead i c input = true → c.next pg s.repo.db.tables input = some c' →
      Moves pg s i (.reading c) (.read input) (.reading c')

section Calls

variable {pg : Pg} {s : Pooled ι} {i : ι} {c c' : RepoCall} {input : RepoInput} {u : ConnUse}
  {p p' : Pool}

theorem moves_of_next {repo : Repository ι} (hallows : s.allows i input = true)
    (hn : s.repo.next pg (i, input) = some repo) (hleave : input ≠ .leave) :
    ∃ c', repo.calls = Function.update s.repo.calls i c'
      ∧ Moves pg s i (s.repo.calls i) input c' := by
  cases input with
  | call op =>
      cases hc : s.repo.calls i with
      | idle =>
          simp only [Repository.next, hc, Option.some.injEq] at hn
          exact ⟨_, hn ▸ rfl, .call op⟩
      | saving c | reading c => simp [Repository.next, hc] at hn
  | save input =>
      cases hc : s.repo.calls i with
      | saving c =>
          simp only [Repository.next, hc] at hn
          split at hn
          · obtain ⟨⟨db, c'⟩, hq, rfl⟩ := Option.map_eq_some_iff.mp hn
            rw [allows, hc] at hallows
            exact ⟨_, rfl, .save hallows (SaveCall.step_of_next hq)⟩
          · cases hn
      | idle | reading c => simp [Repository.next, hc] at hn
  | read input =>
      cases hc : s.repo.calls i with
      | reading c =>
          simp only [Repository.next, hc] at hn
          obtain ⟨c', hq, rfl⟩ := Option.map_eq_some_iff.mp hn
          rw [allows, hc] at hallows
          exact ⟨_, rfl, .read hallows hq⟩
      | idle | saving c => simp [Repository.next, hc] at hn
  | leave => exact absurd rfl hleave

omit [DecidableEq ι] in
/-- A call that has its result goes no further. -/
theorem Moves.result_eq_none (hm : Moves pg s i c input c') : c.result = none := by
  cases hm with
  | call op => rfl
  | save hallows hs =>
      cases hs with
      | call events hpc | nothing hpc | acquire hpc | acquireThrows what hpc | insertEvent hpc
      | eventRefused id what hpc | insertPayload hpc | payloadRefused what hpc | commit hpc =>
          simp [RepoCall.result, hpc, SavePc.outcome]
      | failed what hpc =>
          rcases hpc with ⟨rest, hpc⟩ | ⟨id, event, rest, hpc⟩
            <;> simp [RepoCall.result, hpc, SavePc.outcome]
      | leave hpc => simp [allowsSave] at hallows
  | @read c _ input hallows hn =>
      unfold ReadCall.next at hn
      split at hn
      next hpc => simp [RepoCall.result, hpc]
      next hpc => simp [RepoCall.result, hpc]
      next hpc => simp [RepoCall.result, hpc]
      next hpc => simp [RepoCall.result, hpc]
      next => cases hn

omit [DecidableEq ι] in
theorem Moves.ne_idle (hm : Moves pg s i c input c') : c' ≠ .idle := by
  cases hm with
  | call op => cases op with
    | saveEvents | read => simp [RepoCall.start]
  | save | read => simp

omit [DecidableEq ι] in
/-- Without a connection, a call can only find that it has nothing to do. -/
theorem Moves.of_no_conn (hm : Moves pg s i c input c') (hconn : s.conn? i = none) :
    c.wants = false ∧ c'.opened = false := by
  cases hm with
  | call op => cases op with
    | saveEvents | read => exact ⟨rfl, rfl⟩
  | save hallows hs =>
      cases hs with
      | nothing hpc hnil => simp [RepoCall.wants, RepoCall.opened, hpc, hnil]
      | acquire hpc hne => simp [allowsSave, hpc, hne, hconn] at hallows
      | insertPayload hpc | payloadRefused what hpc | commit hpc | acquireThrows what hpc =>
          simp [allowsSave, hpc, canExecute, connected, hconn] at hallows
      | insertEvent hpc | eventRefused id what hpc =>
          simp [allowsSave, canExecute, connected, hconn] at hallows
      | failed what hpc =>
          rcases hpc with ⟨rest, hpc⟩ | ⟨id, event, rest, hpc⟩ <;>
            simp [allowsSave, hpc, hconn] at hallows
      | call events hpc | leave hpc => simp [allowsSave] at hallows
  | @read c _ input hallows hn =>
      cases input with
      | exec | commit | fail => simp [allowsRead, canExecute, connected, hconn] at hallows

omit [DecidableEq ι] in
/-- A step of the call itself. -/
theorem Uses.moves (hu : Uses s.pool c (s.uses i)) (hm : Moves pg s i c input c') :
    Uses s.pool c' (s.uses i) := by
  generalize huse : s.uses i = u at hu
  have hnone (h : ∀ h, u ≠ .holding h) : s.conn? i = none := by
    unfold conn?
    rw [huse]
    cases u with
    | nothing | waiting k => rfl
    | holding k => exact absurd rfl (h k)
  cases hu with
  | nothing => exact .nothing (hm.of_no_conn (hnone (by simp))).2
  | waiting hwants => simp [(hm.of_no_conn (hnone (by simp))).1] at hwants
  | holding _ hx => exact .holding hm.ne_idle hx
  | returning hres | gone hres => simp [hm.result_eq_none] at hres

/-- What a call has of the pool stays what it is when others take a step. -/
theorem Uses.frame (hu : Uses p c u) (hwaits : ∀ k, u = .waiting k → Waits p k → Waits p' k)
    (hholds : ∀ h x, u = .holding h → p.handles[h]? = some x → p'.handles[h]? = some x) :
    Uses p' c u := by
  cases hu with
  | nothing hopened => exact .nothing hopened
  | waiting hwants hk => exact .waiting hwants (hwaits _ rfl hk)
  | holding hidle hx => exact .holding hidle (hholds _ _ rfl hx)
  | returning hres hx => exact .returning hres (hholds _ _ rfl hx)
  | gone hres hx => exact .gone hres (hholds _ _ rfl hx)

end Calls

/-! ## Steps of the pool -/

/-- The calls of `Acquire` are the same, and the same ones have returned. -/
structure SameCalls (p p' : Pool) : Prop where
  length : p'.acquires.length = p.acquires.length
  waits : ∀ k, Waits p' k ↔ Waits p k

/-- The steps of the pool that thread `i` takes, and what it has of the pool
then. -/
inductive Mine (s : Pooled ι) (i : ι) : Pool.Act → Pool → ConnUse → Prop
  | acquire :
      s.uses i = .nothing → (s.repo.calls i).wants = true →
      Mine s i (.acquire false) { s.pool with acquires := s.pool.acquires ++ [.entered false] }
        (.waiting s.pool.acquires.length)
  | take {k : Nat} {expired : Bool} {conn : ConnId} {rest : List ConnId} :
      s.uses i = .waiting k → s.pool.idle = conn :: rest →
      Mine s i (.check k expired)
        { s.pool with
          idle := rest
          acquires := s.pool.acquires.set k .returned
          handles := s.pool.handles ++ [.live { pool := true, conn := some conn }] }
        (.holding s.pool.handles.length)
  | stay {k : Nat} {act : Pool.Act} {p : Pool} :
      s.uses i = .waiting k → SameCalls s.pool p → p.handles = s.pool.handles →
      Mine s i act p (.waiting k)
  | release {h : Nat} {act : Pool.Act} {p : Pool} {x y : HandleState} :
      s.uses i = .holding h → (s.repo.calls i).result.isSome = true →
      s.pool.handles[h]? = some x → x ≠ .destroyed →
      (y = .destroyed ∨ ∃ pc, y = .returning pc .destructor) →
      SameCalls s.pool p → p.handles = s.pool.handles.set h y →
      Mine s i act p (.holding h)

section Steps

variable {s : Pooled ι} {i : ι} {p p' : Pool}

theorem SameCalls.refl (h : p'.acquires = p.acquires) : SameCalls p p' where
  length := by rw [h]
  waits k := by rw [Waits, Waits, h]

theorem SameCalls.set {k : Nat} {a b : AcquirePc} (ha : p.acquires[k]? = some a)
    (hane : a ≠ .returned) (hbne : b ≠ .returned) (h : p'.acquires = p.acquires.set k b) :
    SameCalls p p' where
  length := by rw [h, List.length_set]
  waits j := by
    rw [Waits, Waits, h]
    by_cases hjk : k = j
    · subst hjk
      rw [List.getElem?_set_self (List.getElem?_eq_some_iff.mp ha).1]
      exact ⟨fun _ => ⟨a, ha, hane⟩, fun _ => ⟨b, rfl, hbne⟩⟩
    · rw [List.getElem?_set_ne hjk]

theorem ne_returned_of_looks {a : AcquirePc} (h : a.looks = true) : a ≠ .returned := by
  rintro rfl
  cases h

/-- A thread that holds a handle gives it back through the destructor. -/
theorem Uses.not_assigning {c : RepoCall} {h : Nat} {pc : ReturnPc} {caller : Caller}
    (hu : Uses p c (.holding h)) (hx : p.handles[h]? = some (.returning pc caller)) :
    caller = .destructor ∧ c.result.isSome = true := by
  cases hu with
  | holding _ hy | gone _ hy =>
      rw [hx] at hy
      cases hy
  | returning hres hy =>
      rw [hx] at hy
      cases hy
      exact ⟨rfl, hres⟩

omit [DecidableEq ι] in
theorem useAfter_check {k : Nat} {expired : Bool} (h : p.handles = s.pool.handles) :
    s.useAfter i p (.check k expired) = s.uses i :=
  if_pos (congrArg _ h)

omit [DecidableEq ι] in
/-- What the thread has stays what it was while its call of `Acquire` goes on. -/
theorem Mine.of_waiting {k : Nat} {act : Pool.Act} (hk : s.uses i = .waiting k)
    (hsame : SameCalls s.pool p) (hp : p.handles = s.pool.handles) :
    Mine s i act p (s.uses i) :=
  hk.symm ▸ .stay hk hsame hp

omit [DecidableEq ι] in
/-- And while its handle gives the connection back. -/
theorem Mine.of_holding {h : Nat} {act : Pool.Act} {x y : HandleState}
    (hh : s.uses i = .holding h) (hres : (s.repo.calls i).result.isSome = true)
    (hx : s.pool.handles[h]? = some x) (hlive : x ≠ .destroyed)
    (hy : y = .destroyed ∨ ∃ pc, y = .returning pc .destructor) (hsame : SameCalls s.pool p)
    (hp : p.handles = s.pool.handles.set h y) : Mine s i act p (s.uses i) :=
  hh.symm ▸ .release hh hres hx hlive hy hsame hp

omit [DecidableEq ι] in
theorem mine_of_next {act : Pool.Act} (hu : Uses s.pool (s.repo.calls i) (s.uses i))
    (hmine : s.mine i act = true) (hn : s.pool.next act = some p) :
    Mine s i act p (s.useAfter i p act) := by
  cases Pool.step_of_next hn with
  | acquire timed =>
      simp only [mine, Bool.and_eq_true, Bool.not_eq_true', decide_eq_true_eq] at hmine
      obtain ⟨⟨rfl, hnothing⟩, hwants⟩ := hmine
      exact .acquire hnothing hwants
  | take ha hlooks hidle =>
      rw [useAfter, if_neg (by simp)]
      exact .take (of_decide_eq_true hmine) hidle
  | sleep ha hlooks hidle =>
      rw [useAfter_check (by rfl)]
      exact .of_waiting (of_decide_eq_true hmine)
        (.set ha (ne_returned_of_looks hlooks) (by simp) rfl) rfl
  | giveUp ha hidle =>
      rw [useAfter_check (by rfl)]
      exact .of_waiting (of_decide_eq_true hmine) (.set ha (by simp) (by simp) rfl) rfl
  | wake ha =>
      exact Mine.of_waiting (of_decide_eq_true hmine) (.set ha (by simp) (by simp) rfl) rfl
  | moveConstruct | selfAssign | assignReturning | assign | connectionBreaks => cases hmine
  | destroyReturning hx hr =>
      simp only [mine, Bool.and_eq_true, decide_eq_true_eq] at hmine
      obtain ⟨hh, hres⟩ := hmine
      exact Mine.of_holding hh hres (Pool.getElem?_of_handle? hx) (by simp) (.inr ⟨_, rfl⟩)
        (.refl rfl) rfl
  | destroy hx hr =>
      simp only [mine, Bool.and_eq_true, decide_eq_true_eq] at hmine
      obtain ⟨hh, hres⟩ := hmine
      exact Mine.of_holding hh hres (Pool.getElem?_of_handle? hx) (by simp) (.inl rfl)
        (.refl rfl) rfl
  | testOpen connects hx | push hx =>
      have hh := of_decide_eq_true hmine
      obtain ⟨rfl, hres⟩ := (hh ▸ hu).not_assigning hx
      exact Mine.of_holding hh hres hx (by simp) (.inr ⟨_, rfl⟩) (.refl rfl) rfl
  | notify hx ha =>
      have hh := of_decide_eq_true hmine
      obtain ⟨rfl, hres⟩ := (hh ▸ hu).not_assigning hx
      exact Mine.of_holding hh hres hx (by simp) (.inr ⟨_, rfl⟩)
        (.set ha (by simp) (by simp) rfl) rfl
  | notifyNobody hx hnone =>
      have hh := of_decide_eq_true hmine
      obtain ⟨rfl, hres⟩ := (hh ▸ hu).not_assigning hx
      exact Mine.of_holding hh hres hx (by simp) (.inr ⟨_, rfl⟩) (.refl rfl) rfl
  | finish hx =>
      have hh := of_decide_eq_true hmine
      obtain ⟨-, hres⟩ := (hh ▸ hu).not_assigning hx
      exact Mine.of_holding hh hres hx (by simp) (.inl rfl) (.refl rfl) rfl
  | finishAssign hx hy =>
      have hh := of_decide_eq_true hmine
      cases ((hh ▸ hu).not_assigning hx).1

end Steps

/-! ## What holds at any time -/

/-- The pool is sound, its calls have no timeout, and all of them and all
handles belong to one call of the repository each. -/
structure Inv (n : Nat) (s : Pooled ι) : Prop where
  pool : s.pool.Sound n
  untimed : ∀ (k : Nat) (a : AcquirePc), s.pool.acquires[k]? = some a → Pool.untimed a = true
  uses : ∀ i, Uses s.pool (s.repo.calls i) (s.uses i)
  apart : ∀ i j, s.uses i = s.uses j → s.uses i ≠ .nothing → i = j
  waiters : ∀ k, Waits s.pool k → ∃ i, s.uses i = .waiting k
  holders : ∀ (h : Nat) (x : HandleState), s.pool.handles[h]? = some x → x ≠ .destroyed →
    ∃ i, s.uses i = .holding h
  inside : ∀ i c, s.repo.calls i = .saving c → c.pc ≠ .idle ∧ ∀ what, c.pc ≠ .threw what

section Invariant

variable {pg : Pg} {n : Nat} {s s' : Pooled ι} {i : ι} {u : ConnUse}

theorem getElem?_snoc_of_ne {α : Type} {l : List α} {a : α} {k : Nat} (hk : k ≠ l.length) :
    (l ++ [a])[k]? = l[k]? := by
  rcases Nat.lt_or_gt_of_ne hk with hlt | hgt
  · exact List.getElem?_append_left hlt
  · rw [List.getElem?_eq_none_iff.mpr (Nat.le_of_lt hgt), List.getElem?_eq_none_iff.mpr]
    rw [List.length_append, List.length_singleton]
    omega

theorem Waits.lt {p : Pool} {k : Nat} (h : Waits p k) : k < p.acquires.length := by
  obtain ⟨a, ha, -⟩ := h
  exact (List.getElem?_eq_some_iff.mp ha).1

theorem Uses.handle_lt {p : Pool} {c : RepoCall} {h : Nat} (hu : Uses p c (.holding h)) :
    h < p.handles.length := by
  cases hu with
  | holding _ hx | returning _ hx | gone _ hx => exact (List.getElem?_eq_some_iff.mp hx).1

/-- What a thread has anew nobody else has. -/
theorem Inv.apart_update (hs : s.Inv n)
    (hu : u = .nothing ∨ u = s.uses i ∨ ∀ j, s.uses j ≠ u) (j k : ι)
    (hjk : Function.update s.uses i u j = Function.update s.uses i u k)
    (hne : Function.update s.uses i u j ≠ .nothing) : j = k := by
  by_cases hj : j = i
  · by_cases hk : k = i
    · rw [hj, hk]
    · subst hj
      rw [Function.update_self] at hjk hne
      rw [Function.update_of_ne hk] at hjk
      rcases hu with rfl | rfl | hu
      · exact absurd rfl hne
      · exact hs.apart _ _ hjk hne
      · exact absurd hjk.symm (hu k)
  · rw [Function.update_of_ne hj] at hjk hne
    by_cases hk : k = i
    · subst hk
      rw [Function.update_self] at hjk
      rcases hu with rfl | rfl | hu
      · exact absurd hjk hne
      · exact hs.apart _ _ hjk hne
      · exact absurd hjk (hu j)
    · rw [Function.update_of_ne hk] at hjk
      exact hs.apart _ _ hjk hne

omit [DecidableEq ι] in
/-- A call of `SaveEvents` does not end by an exception. -/
theorem Moves.inside {c : RepoCall} {c' : SaveCall} {input : RepoInput}
    (hm : Moves pg s i c input (.saving c')) : c'.pc ≠ .idle ∧ ∀ what, c'.pc ≠ .threw what := by
  generalize hcall : RepoCall.saving c' = call at hm
  cases hm with
  | call op =>
      cases op with
      | saveEvents events =>
          obtain rfl := RepoCall.saving.inj hcall
          simp
      | read op => simp [RepoCall.start] at hcall
  | save hallows hsave =>
      obtain rfl := RepoCall.saving.inj hcall
      cases hsave with
      | acquireThrows what hpc => simp [allowsSave, hpc] at hallows
      | call | nothing | acquire | insertEvent | insertPayload | commit => simp
      | eventRefused | payloadRefused | failed => simp [SaveCall.fail]
      | leave hpc => simp [allowsSave] at hallows
  | read => cases hcall

/-- Thread `i` takes a step: nobody else notices, because what it has of the
pool nobody else has. -/
theorem Inv.update (hs : s.Inv n) {repo : Repository ι} {p : Pool} (hpool : p.Sound n)
    (huntimed : ∀ (k : Nat) (a : AcquirePc), p.acquires[k]? = some a → Pool.untimed a = true)
    (hcalls : ∀ j, j ≠ i → repo.calls j = s.repo.calls j)
    (hinside : ∀ c, repo.calls i = .saving c → c.pc ≠ .idle ∧ ∀ what, c.pc ≠ .threw what)
    (hown : Uses p (repo.calls i) u)
    (hu : u = .nothing ∨ u = s.uses i ∨ ∀ j, s.uses j ≠ u)
    (hwaits : ∀ k, s.uses i ≠ .waiting k → u ≠ .waiting k → (Waits p k ↔ Waits s.pool k))
    (hwaits' : ∀ k, s.uses i = .waiting k → Waits p k → u = .waiting k)
    (hhandles : ∀ h : Nat, s.uses i ≠ .holding h → u ≠ .holding h →
      p.handles[h]? = s.pool.handles[h]?)
    (hhandles' : ∀ (h : Nat) (x : HandleState), s.uses i = .holding h → p.handles[h]? = some x →
      x ≠ .destroyed → u = .holding h) :
    Inv n { repo, pool := p, uses := Function.update s.uses i u } where
  pool := hpool
  untimed := huntimed
  uses j := by
    by_cases hj : j = i
    · subst hj
      simpa using hown
    · have hother (v : ConnUse) (hv : s.uses j = v) (hne : v ≠ .nothing) :
          s.uses i ≠ v ∧ u ≠ v := by
        refine ⟨fun hi => hj (hs.apart j i (hv.trans hi.symm) (hv ▸ hne)), fun huv => ?_⟩
        rcases hu with rfl | rfl | hu
        · exact hne huv.symm
        · exact hj (hs.apart j i (hv.trans huv.symm) (hv ▸ hne))
        · exact hu j (hv.trans huv.symm)
      change Uses p (repo.calls j) (Function.update s.uses i u j)
      rw [hcalls j hj, Function.update_of_ne hj]
      refine (hs.uses j).frame (fun k hk => ?_) fun h x hh hx => ?_
      · obtain ⟨hi, huk⟩ := hother _ hk (by simp)
        exact (hwaits k hi huk).mpr
      · obtain ⟨hi, huh⟩ := hother _ hh (by simp)
        exact (hhandles h hi huh).trans hx
  apart := hs.apart_update hu
  waiters k hk := by
    by_cases huk : u = .waiting k
    · exact ⟨i, (Function.update_self ..).trans huk⟩
    · have hik : s.uses i ≠ .waiting k := fun hi => huk (hwaits' k hi hk)
      obtain ⟨j, hj⟩ := hs.waiters k ((hwaits k hik huk).mp hk)
      have hji : j ≠ i := fun hji => hik (hji ▸ hj)
      exact ⟨j, (Function.update_of_ne hji ..).trans hj⟩
  holders h x hx hne := by
    by_cases huh : u = .holding h
    · exact ⟨i, (Function.update_self ..).trans huh⟩
    · have hih : s.uses i ≠ .holding h := fun hi => huh (hhandles' h x hi hx hne)
      obtain ⟨j, hj⟩ := hs.holders h x ((hhandles h hih huh).symm.trans hx) hne
      have hji : j ≠ i := fun hji => hih (hji ▸ hj)
      exact ⟨j, (Function.update_of_ne hji ..).trans hj⟩
  inside j c hc := by
    by_cases hj : j = i
    · subst hj
      exact hinside c hc
    · exact hs.inside j c ((hcalls j hj).symm.trans hc)

/-- A step of a call inside the repository. -/
theorem Inv.repo (hs : s.Inv n) {input : RepoInput} {repo : Repository ι}
    (hallows : s.allows i input = true) (hn : s.repo.next pg (i, input) = some repo)
    (hleave : input ≠ .leave) : Inv n { s with repo } := by
  obtain ⟨c', hcalls, hm⟩ := moves_of_next hallows hn hleave
  have hself : repo.calls i = c' := by rw [hcalls, Function.update_self]
  have hnext := hs.update (u := s.uses i) hs.pool hs.untimed
    (fun j hj => by rw [hcalls, Function.update_of_ne hj])
    (fun c hc => (hself.symm.trans hc ▸ hm).inside)
    (hself ▸ (hs.uses i).moves hm) (.inr (.inl rfl)) (fun _ _ _ => .rfl) (fun _ hk _ => hk)
    (fun _ _ _ => rfl) fun _ _ hh _ _ => hh
  rwa [Function.update_eq_self] at hnext

theorem Inv.leave (hs : s.Inv n) (hreleased : s.released i = true) :
    Inv n { s with repo := s.repo.setCall i .idle, uses := Function.update s.uses i .nothing } := by
  refine hs.update hs.pool hs.untimed (fun j hj => Function.update_of_ne hj ..)
    (fun c hc => by simp at hc) (by simpa using Uses.nothing rfl) (.inl rfl)
    (fun _ _ _ => .rfl) (fun k hk _ => ?_) (fun _ _ _ => rfl) fun h x hh hx hne => ?_
  · simp [released, hk] at hreleased
  · simp only [released, hh, decide_eq_true_eq] at hreleased
    exact absurd (Option.some.inj (hx.symm.trans hreleased)) hne

omit [DecidableEq ι] in
theorem Inv.untimed_mine (hs : s.Inv n) {act : Pool.Act} {p : Pool}
    (hn : s.pool.next act = some p) (hm : Mine s i act p u) (k : Nat) (b : AcquirePc)
    (hb : p.acquires[k]? = some b) : Pool.untimed b = true := by
  by_cases hk : k < s.pool.acquires.length
  · have ha := List.getElem?_eq_getElem hk
    obtain ⟨b', hb', huntimed⟩ := Pool.keepsUntimed_step hn k _ ha (hs.untimed k _ ha)
    exact Option.some.inj (hb.symm.trans hb') ▸ huntimed
  · have hlt := (List.getElem?_eq_some_iff.mp hb).1
    cases hm with
    | acquire =>
        rw [List.getElem?_append_right (by omega), List.getElem?_singleton] at hb
        split at hb
        · exact Option.some.inj hb ▸ rfl
        · cases hb
    | take => exact absurd (List.length_set ▸ hlt) hk
    | stay _ hsame | release _ _ _ _ _ hsame => exact absurd (hsame.length ▸ hlt) hk

/-- A step of the pool. -/
theorem Inv.mine (hs : s.Inv n) {act : Pool.Act} {p : Pool} (hn : s.pool.next act = some p)
    (hm : Mine s i act p u) :
    Inv n { s with pool := p, uses := Function.update s.uses i u } := by
  have hpool := Pool.sound_step hs.pool (Pool.step_of_next hn)
  have huntimed := hs.untimed_mine hn hm
  have hinside := hs.inside i
  cases hm with
  | acquire hnothing hwants =>
      refine hs.update hpool huntimed (fun _ _ => rfl) hinside
        (.waiting hwants ⟨.entered false, by simp, by simp⟩) (.inr (.inr fun j hj => ?_))
        (fun k _ hk => ?_) (fun k hk => by simp [hnothing] at hk) (fun _ _ _ => rfl)
        fun h x hh => by simp [hnothing] at hh
      · cases hj ▸ hs.uses j with
        | waiting _ hk => exact absurd hk.lt (Nat.lt_irrefl _)
      · have hne : k ≠ s.pool.acquires.length := fun heq => hk (congrArg _ heq.symm)
        simp only [Waits, getElem?_snoc_of_ne hne]
  | @take k expired conn rest hk hidle =>
      have hidle' : s.repo.calls i ≠ .idle := by
        intro hcall
        have := hs.uses i
        rw [hk, hcall] at this
        cases this with
        | waiting hwants => cases hwants
      have hnew : (s.pool.handles ++ [.live { pool := true, conn := some conn }])[
          s.pool.handles.length]? = some (.live { pool := true, conn := some conn }) := by simp
      refine hs.update hpool huntimed (fun _ _ => rfl) hinside (.holding hidle' hnew)
        (.inr (.inr fun j hj => ?_))
        (fun k' hk' _ => ?_) (fun k' hk' hw => ?_) (fun h _ hh => ?_)
        fun h x hh => by simp [hk] at hh
      · exact absurd (hj ▸ hs.uses j).handle_lt (Nat.lt_irrefl _)
      · rw [hk, ne_eq, ConnUse.waiting.injEq] at hk'
        simp only [Waits, List.getElem?_set_ne hk']
      · obtain rfl := ConnUse.waiting.inj (hk.symm.trans hk')
        obtain ⟨a, ha, hane⟩ := hw
        have hlt : k < s.pool.acquires.length :=
          List.length_set ▸ (List.getElem?_eq_some_iff.mp ha).1
        rw [List.getElem?_set_self hlt] at ha
        exact absurd (Option.some.inj ha).symm hane
      · exact getElem?_snoc_of_ne fun heq => hh (congrArg _ heq.symm)
  | stay hk hsame hhandles =>
      have hself := hs.uses i
      rw [hk] at hself
      refine hs.update hpool huntimed (fun _ _ => rfl) hinside (hself.frame
        (fun k _ => (hsame.waits k).mpr) fun h x _ hx => hhandles ▸ hx) (.inr (.inl hk.symm))
        (fun k _ _ => hsame.waits k) (fun k' hk' _ => hk.symm.trans hk')
        (fun h _ _ => by rw [hhandles]) fun h x hh => by simp [hk] at hh
  | @release h _ p x y hh hres hx hne hy hsame hhandles =>
      have hset : p.handles[h]? = some y := by
        rw [hhandles, List.getElem?_set_self (List.getElem?_eq_some_iff.mp hx).1]
      have hown : Uses p (s.repo.calls i) (.holding h) := by
        rcases hy with rfl | ⟨pc, rfl⟩
        · exact .gone hres hset
        · exact .returning hres hset
      refine hs.update hpool huntimed (fun _ _ => rfl) hinside hown (.inr (.inl hh.symm))
        (fun k _ _ => hsame.waits k) (fun k hk => by simp [hh] at hk) (fun h' _ hh' => ?_)
        fun h' x' hh' _ _ => hh.symm.trans hh'
      rw [hhandles, List.getElem?_set_ne fun heq => hh' (congrArg _ heq)]

theorem inv_step {a : PooledInput ι} (hs : s.Inv n) (h : Step pg s a s') : s'.Inv n := by
  cases h with
  | repo hallows hn hleave => exact hs.repo hallows hn hleave
  | leave hreleased hresult => exact hs.leave hreleased
  | pool hmine hn => exact hs.mine hn (mine_of_next (hs.uses _) hmine hn)
  | connectionBreaks c =>
      have hpool : Pool.Step s.pool (.connectionBreaks c) _ := .connectionBreaks c
      exact { hs with
        pool := Pool.sound_step hs.pool hpool
        uses := fun j => (hs.uses j).frame (fun _ _ => id) fun _ _ _ => id }

end Invariant

/-! ### The pool at the beginning -/

section Init

variable {n : Nat}

/-- `PrepareStatements` changes nothing but what the sessions have prepared. -/
theorem onAll_heap (conns : List ConnId) (heap : Heap) :
    (Pool.prepareStatements.onAll heap conns).alive = heap.alive
      ∧ (Pool.prepareStatements.onAll heap conns).next = heap.next := by
  induction conns generalizing heap with
  | nil => exact ⟨rfl, rfl⟩
  | cons c conns ih => exact ih _

/-- The pool between two iterations of the loop of `CreatePreparedPool`. -/
theorem sound_between {heap : Heap} (halive : heap.alive = List.range n) (hnext : heap.next = n)
    (i : Nat) : (Pool.between i (List.range n) heap).Sound n where
  owned := by
    refine ⟨[], ⟨?_, fun c hc => ?_, fun c => ?_, ?_, fun x hx => ?_⟩, rfl⟩
    · exact halive ▸ List.nodup_range
    · change c < heap.next
      rw [hnext]
      exact List.mem_range.mp (halive ▸ hc)
    · simp [Pool.between, halive, List.countP_replicate, HandleState.owns, HandleState.conn]
    · simp [Pool.between, List.countP_replicate, HandleState.owning, HandleState.conn]
    · obtain ⟨-, rfl⟩ := List.mem_replicate.mp hx
      trivial
  wakeup hasleep := by
    simp [Pool.between, Pool.counts, List.countP_replicate, AcquirePc.isAsleep] at hasleep
  sources h pc other hx := by
    have := List.mem_of_getElem? hx
    simp [Pool.between] at this

omit [DecidableEq ι] in
/-- There is one pool to begin with: every connection of it is idle and prepared. -/
theorem eq_of_init {s : Pooled ι} (h : init n s) :
    s = { pool := Pool.between n (List.range n)
            (Pool.prepareStatements.onAll (Pool.construct n).heap (List.range n)) } := by
  obtain ⟨connects, made, hmade, rfl⟩ := h
  obtain ⟨stderr, heq⟩ :=
    Pool.createPreparedPool_eq Pool.prepareStatements_keepsOpen connects n
  obtain rfl := Option.some.inj (hmade.symm.trans heq)
  rfl

omit [DecidableEq ι] in
theorem inv_init {s : Pooled ι} (h : init n s) : s.Inv n := by
  obtain rfl := eq_of_init h
  obtain ⟨halive, hnext⟩ := onAll_heap (List.range n) (Pool.construct n).heap
  exact
    { pool := sound_between halive hnext n
      untimed := fun k a ha => by
        obtain ⟨-, rfl⟩ := List.mem_replicate.mp (List.mem_of_getElem? ha)
        rfl
      uses := fun i => .nothing rfl
      apart := fun i j _ hne => absurd rfl hne
      waiters := fun k ⟨a, ha, hne⟩ =>
        absurd (List.mem_replicate.mp (List.mem_of_getElem? ha)).2 hne
      holders := fun h x hx hne =>
        absurd (List.mem_replicate.mp (List.mem_of_getElem? hx)).2 hne
      inside := fun i c hc => by cases hc }

theorem inv_run {pg : Pg} {s : Pooled ι} {out : List (ι × Label RepoOp RepoResult)}
    (h : (machine ι pg n).Run s out) : s.Inv n :=
  h.invariant (I := fun s _ => s.Inv n) (fun _ hs => inv_init hs)
    fun _ _ _ _ hs ⟨_, _, hn, _⟩ => inv_step hs (step_of_next hn)

end Init

/-! ## What callers can rely on -/

section Callers

variable {pg : Pg} {n : Nat} {s s' : Pooled ι} {i j : ι} {c : ConnId}
  {out o : List (ι × Label RepoOp RepoResult)}

theorem repo_of_next {input : RepoInput} (hn : s.next pg (.repo i input) = some s') :
    s.repo.next pg (i, input) = some s'.repo := by
  simp only [next] at hn
  split at hn
  · obtain ⟨r, hr, rfl⟩ := Option.map_eq_some_iff.mp hn
    cases input with
    | call | save | read | leave => exact hr
  · cases hn

/-- The steps of the pool are none of the repository. -/
theorem repo_step (h : (machine ι pg n).step s o s') :
    (Repository.machine ι pg).Steps s.repo o s'.repo := by
  obtain ⟨a, horders, hn, rfl⟩ := h
  cases a with
  | repo i input => exact .single ⟨(i, input), horders, repo_of_next hn, rfl⟩
  | pool i act =>
      cases step_of_next hn with
      | pool => exact .refl
  | connectionBreaks c =>
      cases step_of_next hn with
      | connectionBreaks => exact .refl

theorem brief_machine (pg : Pg) (n : Nat) : (machine ι pg n).Brief := by
  rintro s o s' ⟨a, horders, hn, rfl⟩
  cases a with
  | repo i input =>
      exact Repository.brief_machine pg s.repo _ s'.repo
        ⟨(i, input), horders, repo_of_next hn, rfl⟩
  | pool | connectionBreaks => simp [labels]

omit [DecidableEq ι] in
theorem repo_of_init (h : init n s) : s.repo = {} := by
  obtain ⟨connects, made, -, rfl⟩ := h
  rfl

theorem repo_run (h : (machine ι pg n).Run s out) : (Repository.machine ι pg).Run s.repo out := by
  obtain ⟨r, hr, rfl⟩ := h.simulate (R := fun s r => r = s.repo)
    (fun s hinit => ⟨s.repo, repo_of_init hinit, rfl⟩)
    fun s r o s' hr hs => ⟨s'.repo, hr ▸ repo_step hs, rfl⟩
  exact hr

theorem simulatedBack (htext : KeepsText pg) (n : Nat) :
    (machine ι pg n).SimulatedBack (eventLog ι pg).atomic
      fun s a => Repository.Simulates s.repo a where
  total s := Repository.exists_simulates s.repo
  init s a hinit ha := (Repository.simulatedBack htext).init s.repo a (repo_of_init hinit) ha
  step _ _ _ _ a' h hs ha' :=
    (Repository.simulatedBack htext).steps (repo_run h) (repo_step hs) a' ha'

/-- **A pool in between changes nothing for the callers.** However many
threads share however few connections, in whatever order they get them and
whichever of them break, the callers see an event log. -/
theorem pooled_linearizable (htext : KeepsText pg) (n : Nat) :
    Linearizable (machine ι pg n) (eventLog ι pg) :=
  linearizable_of_back (simulatedBack htext n)

omit [DecidableEq ι] in
theorem conn?_eq_some :
    s.conn? i = some c ↔ ∃ h x, s.uses i = .holding h
      ∧ s.pool.handles[h]? = some (.live x) ∧ x.conn = some c := by
  unfold conn?
  cases s.uses i with
  | nothing | waiting k => simp
  | holding h =>
      simp only [ConnUse.holding.injEq]
      constructor
      · intro hc
        split at hc
        · exact ⟨h, _, rfl, ‹_›, hc⟩
        · cases hc
      · rintro ⟨h, x, rfl, hx, hc⟩
        rw [hx]
        exact hc

omit [DecidableEq ι] in
/-- A transaction has a connection. -/
theorem Inv.conn_of_opened (hs : s.Inv n) (hi : (s.repo.calls i).opened = true) :
    ∃ c, s.conn? i = some c := by
  have hnone : (s.repo.calls i).result = none ∧ (s.repo.calls i).wants = false := by
    cases hc : s.repo.calls i with
    | idle => exact ⟨rfl, rfl⟩
    | saving c | reading c =>
        rw [hc] at hi
        cases hpc : c.pc <;> simp_all [RepoCall.opened, RepoCall.result, RepoCall.wants,
          SavePc.outcome]
  have hu := hs.uses i
  generalize huse : s.uses i = u at hu
  cases hu with
  | nothing hopened => simp [hi] at hopened
  | waiting hwants => simp [hnone.2] at hwants
  | holding _ hx => exact ⟨_, conn?_eq_some.mpr ⟨_, _, huse, hx, rfl⟩⟩
  | returning hres | gone hres => simp [hnone.1] at hres

omit [DecidableEq ι] in
/-- And nobody else has it. -/
theorem Inv.conn_unique (hs : s.Inv n) (hi : s.conn? i = some c) (hj : s.conn? j = some c) :
    i = j := by
  obtain ⟨h, x, hh, hx, hxc⟩ := conn?_eq_some.mp hi
  obtain ⟨h', y, hh', hy, hyc⟩ := conn?_eq_some.mp hj
  obtain ⟨_, howned, -⟩ := hs.pool.owned
  obtain rfl := howned.owner_unique hx hxc hy hyc
  exact hs.apart i j (hh.trans hh'.symm) (by simp [hh])

omit [DecidableEq ι] in
theorem Inv.conn_busy (hs : s.Inv n) (hi : s.conn? i = some c) : c ∉ s.pool.idle := by
  obtain ⟨h, x, hh, hx, hxc⟩ := conn?_eq_some.mp hi
  obtain ⟨_, howned, -⟩ := hs.pool.owned
  have hplace := howned.place c
  have honce := List.nodup_iff_count_le_one.mp howned.nodup c
  have hhandle : 0 < s.pool.handles.countP (HandleState.owns c) :=
    countP_pos_of_getElem? hx (decide_eq_true hxc)
  exact List.count_eq_zero.mp (by omega)

omit [DecidableEq ι] in
/-- No more transactions are open than the pool has connections. -/
theorem Inv.card_opened (hs : s.Inv n) {T : Finset ι}
    (hT : ∀ i ∈ T, (s.repo.calls i).opened = true) : T.card ≤ n := by
  obtain ⟨out, howned, -⟩ := hs.pool.owned
  have hinj : Set.InjOn s.conn? T := by
    intro i hi j hj hij
    obtain ⟨c, hc⟩ := hs.conn_of_opened (hT i hi)
    exact hs.conn_unique hc (hij ▸ hc)
  have hmaps : ∀ i ∈ T, s.conn? i ∈
      ((s.pool.handles.filter HandleState.owning).map HandleState.conn).toFinset := by
    intro i hi
    obtain ⟨c, hc⟩ := hs.conn_of_opened (hT i hi)
    obtain ⟨h, x, -, hx, hxc⟩ := conn?_eq_some.mp hc
    rw [hc, List.mem_toFinset, List.mem_map]
    refine ⟨.live x, List.mem_filter.mpr ⟨List.mem_of_getElem? hx, ?_⟩, hxc⟩
    simp [HandleState.owning, HandleState.conn, hxc]
  calc T.card
    _ ≤ ((s.pool.handles.filter HandleState.owning).map HandleState.conn).toFinset.card :=
        Finset.card_le_card_of_injOn s.conn? hmaps hinj
    _ ≤ ((s.pool.handles.filter HandleState.owning).map HandleState.conn).length :=
        List.toFinset_card_le _
    _ = s.pool.handles.countP HandleState.owning := by
        rw [List.length_map, List.countP_eq_length_filter]
    _ ≤ n := by
        have := howned.total
        omega

/-- **Transactions have their connections to themselves.** In every reachable
state a call with an open transaction holds a connection, which no other call
holds and which is not in the queue; there are never more transactions than
connections; and no exception gets out of `SaveEvents`. -/
theorem transactions_exclusive (h : (machine ι pg n).Run s out) :
    (∀ i, (s.repo.calls i).opened = true → ∃ c, s.conn? i = some c)
      ∧ (∀ i j c, s.conn? i = some c → s.conn? j = some c → i = j)
      ∧ (∀ i c, s.conn? i = some c → c ∉ s.pool.idle)
      ∧ (∀ T : Finset ι, (∀ i ∈ T, (s.repo.calls i).opened = true) → T.card ≤ n)
      ∧ ∀ i c what, s.repo.calls i = .saving c → c.pc ≠ .threw what := by
  have hs := inv_run h
  exact ⟨fun _ => hs.conn_of_opened, fun _ _ _ => hs.conn_unique, fun _ _ => hs.conn_busy,
    fun _ => hs.card_opened, fun i c what hc => (hs.inside i c hc).2 what⟩

end Callers

/-! ### Two threads and one connection -/

def sampleStart : Pooled Bool where
  pool := Pool.between 1 [0] (Pool.prepareStatements.onAll (Pool.construct 1).heap [0])

theorem init_sampleStart : init 1 sampleStart := ⟨fun _ => true, _, rfl, rfl⟩

/-- Thread `false` saves; thread `true` has to wait for the connection. -/
def sampleWaits : List (PooledInput Bool) :=
  [.repo false (.call (.saveEvents [sampleEvent])), .pool false (.acquire false),
    .pool false (.check 1 false), .repo true (.call (.read (.getEvents (some {})))),
    .pool true (.acquire false), .pool true (.check 2 false), .repo false (.save .proceed),
    .repo false (.save (.insertEvent 1))]

/-- It is given back, and passed on. -/
def samplePassesOn : List (PooledInput Bool) :=
  [.repo false (.save .proceed), .repo false (.save .proceed), .pool false (.destroy 1),
    .pool false (.testOpen 1 true), .pool false (.push 1), .pool false (.notify 1 (some 2)),
    .pool false (.finish 1), .repo false .leave, .pool true (.check 2 false),
    .repo true (.read (.exec (Sql.arrange orderKey))), .repo true (.read .commit),
    .pool true (.destroy 2), .pool true (.testOpen 2 true), .pool true (.push 2),
    .pool true (.notify 2 none), .pool true (.finish 2), .repo true .leave]

def sampleSeen : List (Bool × Label RepoOp RepoResult) :=
  [(false, .call (.saveEvents [sampleEvent])), (true, .call (.read (.getEvents (some {})))),
    (false, .ret (.saved (.returned .ok))),
    (true, .ret (.events (.ok [Repository.sampleBack])))]

theorem sampleRun : ∃ s s' : Pooled Bool, ∃ o o', (machine Bool samplePg 1).Run s o
    ∧ (s.repo.calls false).opened = true ∧ s.uses true = .waiting 2
    ∧ (machine Bool samplePg 1).Steps s o' s' ∧ o ++ o' = sampleSeen := by
  have hadmissible : Admissible (Sql.arrange orderKey) := Sql.arranged_arrange orderKey
  have horders : ∀ a ∈ sampleWaits ++ samplePassesOn, Orders a := by
    simp [sampleWaits, samplePassesOn, Orders, Repository.Orders, hadmissible]
  have hrun := (Machine.Run.start (M := machine Bool samplePg 1) init_sampleStart).steps
    (Machine.steps_of_feed_where (l := sampleWaits)
      (fun a ha _ => horders a (List.mem_append_left _ ha)) rfl)
  exact ⟨_, _, _, _, hrun, rfl, rfl, Machine.steps_of_feed_where (l := samplePassesOn)
    (fun a ha _ => horders a (List.mem_append_right _ ha)) rfl, rfl⟩

theorem pooled_linearizable_sample :
    ∃ a, (eventLog Bool samplePg).atomic.Run a sampleSeen := by
  obtain ⟨s, s', o, o', hrun, -, -, hsteps, hseen⟩ := sampleRun
  exact hseen ▸ pooled_linearizable (fun _ _ => rfl) 1 s' _ (hrun.steps hsteps)

/-- The second thread waits while the first one has the only connection. -/
theorem transactions_exclusive_sample : ∃ s : Pooled Bool, s.uses true = .waiting 2
    ∧ ∃ c, s.conn? false = some c ∧ c ∉ s.pool.idle := by
  obtain ⟨s, -, o, -, hrun, hopened, hwaits, -⟩ := sampleRun
  obtain ⟨hconn, -, hbusy, -⟩ := transactions_exclusive hrun
  obtain ⟨c, hc⟩ := hconn false hopened
  exact ⟨s, hwaits, c, hc, hbusy _ _ hc⟩

end Pooled

end EventHistory
