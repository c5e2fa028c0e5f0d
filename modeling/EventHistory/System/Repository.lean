import EventHistory.Lib.Objects
import EventHistory.Db.Consistency
import EventHistory.Service.OverPostgres

/-!
# `PostgresEventsRepo` as a shared object

The three operations of the repository, called by any number of threads at
the same time. A call of `SaveEvents` is one of `Db.SaveEvents`. `GetEvents`
and `GetStats` are read transactions of one statement: it sees the tables
that are committed when it is executed, and that fixes what the call will
return, unless the commit that follows fails. Both have their `Acquire`
inside the `try` block.

The threads see calls and returns. `log` is a ghost: the events of the
transactions that have committed, in that order and with their threads.
-/

namespace EventHistory

open Transition

/-! ## Read transactions -/

inductive ReadOp where
  | getEvents (filter : Option Dto.EventFilter)
  | getStats

inductive RepoOp where
  | saveEvents (events : List Dto.Event)
  | read (op : ReadOp)

inductive RepoResult where
  | saved (outcome : Outcome)
  | events (result : Result (List Dto.Event))
  | stats (result : Result Dto.Stats)

def RepoResult.success : RepoResult → Bool
  | .saved outcome => outcome.success
  | .events result => result.success
  | .stats result => result.success

namespace ReadOp

/-- The `catch` block. -/
def notOk (op : ReadOp) (what : String) : RepoResult :=
  match op with
  | .getEvents _ => .events (.notOk ("[Postgres] " ++ what))
  | .getStats => .stats (.notOk ("[Postgres] " ++ what))

/-- Execute the statement and read its result. -/
def exec (pg : Pg) (arrange : Arrangement) (tables : Tables) : ReadOp → RepoResult
  | .getEvents filter => .events (EventHistory.getEvents pg arrange tables filter)
  | .getStats => .stats (EventHistory.getStats tables)

theorem notOk_success (op : ReadOp) (what : String) : (op.notOk what).success = false := by
  cases op with
  | getEvents _ | getStats => rfl

end ReadOp

/-- Where a read transaction is; `executed` has its result and commits. -/
inductive ReadPc where
  | entered
  | executed (result : RepoResult)
  | returned (result : RepoResult)

structure ReadCall where
  op : ReadOp
  pc : ReadPc := .entered

inductive ReadInput where
  | exec (arrange : Arrangement)
  | commit
  | fail (what : String)

namespace ReadCall

/-- The statement is executed; an exception of it, or of the loop over the
rows, ends the call. -/
def exec (c : ReadCall) (pg : Pg) (arrange : Arrangement) (tables : Tables) : ReadCall :=
  let result := c.op.exec pg arrange tables
  { c with pc := if result.success then .executed result else .returned result }

def next (pg : Pg) (tables : Tables) (c : ReadCall) (input : ReadInput) : Option ReadCall :=
  match c.pc, input with
  | .entered, .exec arrange => some (c.exec pg arrange tables)
  | .executed result, .commit => some { c with pc := .returned result }
  | .entered, .fail what | .executed _, .fail what =>
      some { c with pc := .returned (c.op.notOk what) }
  | _, _ => none

end ReadCall

/-! ## The threads -/

inductive RepoCall where
  | idle
  | saving (call : SaveCall)
  | reading (call : ReadCall)

inductive RepoInput where
  | call (op : RepoOp)
  | save (input : SaveInput)
  | read (input : ReadInput)
  | leave

/-- The database, the threads, and what has been committed. -/
structure Repository (ι : Type) where
  db : Db := {}
  calls : ι → RepoCall := fun _ => .idle
  log : List (ι × Dto.Event) := []

namespace RepoCall

def start : RepoOp → RepoCall
  | .saveEvents events => .saving { events, pc := .entered }
  | .read op => .reading { op }

/-- What the call comes back with, once it does. -/
def result : RepoCall → Option RepoResult
  | .saving c => c.pc.outcome.map .saved
  | .reading c =>
      match c.pc with
      | .returned result => some result
      | _ => none
  | .idle => none

end RepoCall

namespace Repository

variable {ι : Type} [DecidableEq ι]

def setCall (r : Repository ι) (i : ι) (c : RepoCall) : Repository ι :=
  { r with calls := Function.update r.calls i c }

@[simp] theorem setCall_self (r : Repository ι) (i : ι) (c : RepoCall) :
    (r.setCall i c).calls i = c :=
  Function.update_self ..

/-- Thread `i` takes a step. -/
def next (pg : Pg) (r : Repository ι) : ι × RepoInput → Option (Repository ι)
  | (i, input) =>
      match r.calls i, input with
      | .idle, .call op => some (r.setCall i (.start op))
      | .saving c, .save input =>
          if input.inside then
            (c.next pg r.db input).map fun q =>
              { db := q.1
                calls := Function.update r.calls i (.saving q.2)
                log := r.log ++ (savedEvents (c.finished q.2)).map fun e => (i, e) }
          else none
      | .reading c, .read input =>
          (c.next pg r.db.tables input).map fun c' => r.setCall i (.reading c')
      | c, .leave => c.result.map fun _ => r.setCall i .idle
      | _, _ => none

theorem next_leave {pg : Pg} {r r' : Repository ι} {i : ι} (hn : r.next pg (i, .leave) = some r') :
    ∃ result, (r.calls i).result = some result ∧ r' = r.setCall i .idle := by
  have hres : ((r.calls i).result.map fun _ => r.setCall i .idle) = some r' := by
    cases hc : r.calls i with
    | idle | saving c | reading c => simpa only [next, hc] using hn
  obtain ⟨result, hresult, rfl⟩ := Option.map_eq_some_iff.mp hres
  exact ⟨result, hresult, rfl⟩

def labels (r : Repository ι) : ι × RepoInput → List (ι × Label RepoOp RepoResult)
  | (i, .call op) => [(i, .call op)]
  | (i, .leave) => (r.calls i).result.toList.map fun result => (i, .ret result)
  | _ => []

/-- The database arranges rows as `ORDER BY` allows. -/
def Orders : ι × RepoInput → Prop
  | (_, .read (.exec arrange)) => Admissible arrange
  | _ => True

/-- All runs from empty tables. -/
def machine (ι : Type) [DecidableEq ι] (pg : Pg) :
    Machine (Repository ι) (ι × Label RepoOp RepoResult) :=
  .ofFnWhere (· = {}) (next pg) labels fun _ => Orders

/-- What each step does, with its guard. -/
inductive Step (pg : Pg) (r : Repository ι) :
    List (ι × Label RepoOp RepoResult) → Repository ι → Prop
  | call {i : ι} (op : RepoOp) :
      r.calls i = .idle → Step pg r [(i, .call op)] (r.setCall i (.start op))
  | save {i : ι} {c c' : SaveCall} {input : SaveInput} {db : Db} :
      r.calls i = .saving c → input.inside = true → c.next pg r.db input = some (db, c') →
      Step pg r []
        { db, calls := Function.update r.calls i (.saving c')
          log := r.log ++ (savedEvents (c.finished c')).map fun e => (i, e) }
  | exec {i : ι} {c : ReadCall} {arrange : Arrangement} :
      r.calls i = .reading c → c.pc = .entered → Admissible arrange →
      Step pg r [] (r.setCall i (.reading (c.exec pg arrange r.db.tables)))
  | commit {i : ι} {c : ReadCall} {result : RepoResult} :
      r.calls i = .reading c → c.pc = .executed result →
      Step pg r [] (r.setCall i (.reading { c with pc := .returned result }))
  | fail {i : ι} {c : ReadCall} (what : String) :
      r.calls i = .reading c → (∀ result, c.pc ≠ .returned result) →
      Step pg r [] (r.setCall i (.reading { c with pc := .returned (c.op.notOk what) }))
  | leave {i : ι} {result : RepoResult} :
      (r.calls i).result = some result → Step pg r [(i, .ret result)] (r.setCall i .idle)

theorem step_cases {pg : Pg} {r r' : Repository ι} {o : List (ι × Label RepoOp RepoResult)}
    (h : (machine ι pg).step r o r') : Step pg r o r' := by
  obtain ⟨⟨i, input⟩, horders, hn, rfl⟩ := h
  cases input with
  | call op =>
      cases hc : r.calls i with
      | idle =>
          simp only [next, hc, Option.some.injEq] at hn
          exact hn ▸ .call op hc
      | saving c | reading c => simp [next, hc] at hn
  | save input =>
      cases hc : r.calls i with
      | saving c =>
          simp only [next, hc] at hn
          split at hn
          · obtain ⟨⟨db, c'⟩, hq, rfl⟩ := Option.map_eq_some_iff.mp hn
            exact .save hc ‹_› hq
          · cases hn
      | idle | reading c => simp [next, hc] at hn
  | read input =>
      cases hc : r.calls i with
      | reading c =>
          simp only [next, hc] at hn
          obtain ⟨c', hq, rfl⟩ := Option.map_eq_some_iff.mp hn
          rw [ReadCall.next.eq_def] at hq
          split at hq
          next hpc =>
            obtain rfl := Option.some.inj hq
            exact .exec hc hpc horders
          next hpc =>
            obtain rfl := Option.some.inj hq
            exact .commit hc hpc
          next hpc =>
            obtain rfl := Option.some.inj hq
            exact .fail _ hc (by simp [hpc])
          next hpc =>
            obtain rfl := Option.some.inj hq
            exact .fail _ hc (by simp [hpc])
          next => cases hq
      | idle | saving c => simp [next, hc] at hn
  | leave =>
      obtain ⟨result, hresult, rfl⟩ := next_leave hn
      rw [labels, hresult]
      exact .leave hresult

theorem brief_machine (pg : Pg) : (machine ι pg).Brief := by
  intro r o r' h
  cases step_cases h with
  | call | save | exec | commit | fail | leave => simp

end Repository

end EventHistory
