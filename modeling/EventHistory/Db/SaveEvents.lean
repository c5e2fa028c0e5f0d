import EventHistory.Lib.Machine
import EventHistory.Lib.Serial
import EventHistory.Db.Schema

/-!
# `PostgresEventsRepo::SaveEvents`

The one writer of the tables, as a machine: any number of threads call
`SaveEvents` again and again, interleaved at the statements they execute.
A call keeps the rows of its transaction to itself until it commits, and a
statement sees the committed tables and those rows. An exception inside the
`try` block rolls the transaction back, and the failed `Result` carries its
text. That goes for a `COMMIT` that fails for the client too: it is taken to
have rolled back, not to have been carried out and its answer lost. The sequence
behind `events.id` gives
out no value twice.

The output of the machine are the calls that returned, with their results
and the threads that made them.
-/

namespace EventHistory

open Transition

/-- Where a call is: before `Acquire`, at the head of the loop with the
events still to insert (with none left it commits next), between the two
inserts of one event, and back. -/
inductive SavePc where
  | idle
  | entered
  | loop (rest : List Dto.Event)
  | payload (eventId : Int) (event : Dto.Event) (rest : List Dto.Event)
  | returned (result : VoidResult)
  | threw (what : String)

/-- A thread and its current call. `work` are the rows of its transaction. -/
structure SaveCall where
  events : List Dto.Event := []
  pc : SavePc := .idle
  work : Tables := {}

/-- The committed tables, and the values that the sequence has given out. -/
structure Db where
  tables : Tables := {}
  drawn : List Int := []

/-- A call that returned. -/
structure Finished where
  events : List Dto.Event
  result : VoidResult

inductive SaveInput where
  | call (events : List Dto.Event)
  | proceed
  | insertEvent (id : Int)
  | fail (what : String)
  | leave

/-- The inputs between the call and its return. -/
def SaveInput.inside : SaveInput → Bool
  | .call _ | .leave => false
  | _ => true

namespace SaveCall

/-- The `catch` block, after the destructor of `txn` has rolled back. -/
def fail (c : SaveCall) (what : String) : SaveCall :=
  { c with pc := .returned (.notOk ("[Postgres] " ++ what)), work := {} }

/-- `insert_event` for the next event, with the value of the sequence. -/
def insertEvent (pg : Pg) (db : Db) (c : SaveCall) (event : Dto.Event) (rest : List Dto.Event)
    (id : Int) : SaveCall :=
  match EventHistory.insertEvent pg (db.tables.append c.work) id event.sourceService
      event.timestampUtc (Dto.statusToStr event.status) with
  | .ok row =>
      { c with
        pc := .payload row.id event rest
        work := { c.work with events := c.work.events ++ [row] } }
  | .error e => c.fail (pg.what e)

/-- `insert_payload` for the event just inserted. -/
def insertPayload (pg : Pg) (db : Db) (c : SaveCall) (eventId : Int) (event : Dto.Event)
    (rest : List Dto.Event) : SaveCall :=
  match EventHistory.insertPayload pg (db.tables.append c.work) eventId event.payload.rawLine
      event.payload.parsedIp event.payload.filterDecision event.payload.rejectReason with
  | .ok row =>
      { c with pc := .loop rest, work := { c.work with payloads := c.work.payloads ++ [row] } }
  | .error e => c.fail (pg.what e)

def next (pg : Pg) (db : Db) (c : SaveCall) (input : SaveInput) : Option (Db × SaveCall) :=
  match c.pc, input with
  | .idle, .call events => some (db, { events, pc := .entered })
  | .entered, .proceed =>
      some (db, { c with pc := if c.events.isEmpty then .returned .ok else .loop c.events })
  -- `Acquire` is called outside the try block
  | .entered, .fail what =>
      if c.events.isEmpty then none else some (db, { c with pc := .threw what })
  | .loop (event :: rest), .insertEvent id =>
      if id ∈ db.drawn then none
      else some ({ db with drawn := id :: db.drawn }, c.insertEvent pg db event rest id)
  | .payload eventId event rest, .proceed =>
      some (db, c.insertPayload pg db eventId event rest)
  | .loop [], .proceed =>
      some ({ db with tables := db.tables.append c.work },
        { c with pc := .returned .ok, work := {} })
  | .loop _, .fail what | .payload _ _ _, .fail what => some (db, c.fail what)
  | .returned _, .leave | .threw _, .leave => some (db, {})
  | _, _ => none

/-- What each step does, with its guard. -/
inductive Step (pg : Pg) (db : Db) (c : SaveCall) : SaveInput → Db → SaveCall → Prop
  | call (events : List Dto.Event) :
      c.pc = .idle → Step pg db c (.call events) db { events, pc := .entered }
  | nothing :
      c.pc = .entered → c.events = [] → Step pg db c .proceed db { c with pc := .returned .ok }
  | acquire :
      c.pc = .entered → c.events ≠ [] →
      Step pg db c .proceed db { c with pc := .loop c.events }
  | acquireThrows (what : String) :
      c.pc = .entered → Step pg db c (.fail what) db { c with pc := .threw what }
  | insertEvent {event : Dto.Event} {rest : List Dto.Event} {id : Int} {row : EventRow} :
      c.pc = .loop (event :: rest) → id ∉ db.drawn →
      EventHistory.insertEvent pg (db.tables.append c.work) id event.sourceService
        event.timestampUtc (Dto.statusToStr event.status) = .ok row →
      Step pg db c (.insertEvent id) { db with drawn := id :: db.drawn }
        { c with
          pc := .payload row.id event rest
          work := { c.work with events := c.work.events ++ [row] } }
  | eventRefused {event : Dto.Event} {rest : List Dto.Event} (id : Int) (what : String) :
      c.pc = .loop (event :: rest) →
      Step pg db c (.insertEvent id) { db with drawn := id :: db.drawn } (c.fail what)
  | insertPayload {eventId : Int} {event : Dto.Event} {rest : List Dto.Event}
      {row : PayloadRow} :
      c.pc = .payload eventId event rest →
      EventHistory.insertPayload pg (db.tables.append c.work) eventId event.payload.rawLine
        event.payload.parsedIp event.payload.filterDecision event.payload.rejectReason =
          .ok row →
      Step pg db c .proceed db
        { c with pc := .loop rest, work := { c.work with payloads := c.work.payloads ++ [row] } }
  | payloadRefused {eventId : Int} {event : Dto.Event} {rest : List Dto.Event} (what : String) :
      c.pc = .payload eventId event rest → Step pg db c .proceed db (c.fail what)
  | commit :
      c.pc = .loop [] →
      Step pg db c .proceed { db with tables := db.tables.append c.work }
        { c with pc := .returned .ok, work := {} }
  | failed (what : String) :
      (∃ rest, c.pc = .loop rest) ∨ (∃ eventId event rest, c.pc = .payload eventId event rest) →
      Step pg db c (.fail what) db (c.fail what)
  | leave :
      (∃ result, c.pc = .returned result) ∨ (∃ what, c.pc = .threw what) →
      Step pg db c .leave db {}

theorem step_of_next {pg : Pg} {db db' : Db} {c c' : SaveCall} {input : SaveInput}
    (h : c.next pg db input = some (db', c')) : Step pg db c input db' c' := by
  unfold next at h
  split at h
  · rename_i events hpc
    obtain ⟨rfl, rfl⟩ := Prod.mk.inj (Option.some.inj h)
    exact .call events hpc
  · rename_i hpc
    obtain ⟨rfl, rfl⟩ := Prod.mk.inj (Option.some.inj h)
    by_cases hempty : c.events.isEmpty = true
    · rw [if_pos hempty]
      exact .nothing hpc (List.isEmpty_iff.mp hempty)
    · rw [if_neg hempty]
      exact .acquire hpc fun hnil => hempty (List.isEmpty_iff.mpr hnil)
  · rename_i what hpc
    split at h
    · cases h
    · obtain ⟨rfl, rfl⟩ := Prod.mk.inj (Option.some.inj h)
      exact .acquireThrows what hpc
  · rename_i event rest id hpc
    split at h
    · cases h
    · obtain ⟨rfl, rfl⟩ := Prod.mk.inj (Option.some.inj h)
      unfold insertEvent
      split
      · exact .insertEvent hpc ‹_› ‹_›
      · exact .eventRefused id _ hpc
  · rename_i eventId event rest hpc
    obtain ⟨rfl, rfl⟩ := Prod.mk.inj (Option.some.inj h)
    unfold insertPayload
    split
    · exact .insertPayload hpc ‹_›
    · exact .payloadRefused _ hpc
  · rename_i hpc
    obtain ⟨rfl, rfl⟩ := Prod.mk.inj (Option.some.inj h)
    exact .commit hpc
  · rename_i rest what hpc
    obtain ⟨rfl, rfl⟩ := Prod.mk.inj (Option.some.inj h)
    exact .failed what (Or.inl ⟨rest, hpc⟩)
  · rename_i eventId event rest what hpc
    obtain ⟨rfl, rfl⟩ := Prod.mk.inj (Option.some.inj h)
    exact .failed what (Or.inr ⟨eventId, event, rest, hpc⟩)
  · rename_i result hpc
    obtain ⟨rfl, rfl⟩ := Prod.mk.inj (Option.some.inj h)
    exact .leave (Or.inl ⟨result, hpc⟩)
  · rename_i what hpc
    obtain ⟨rfl, rfl⟩ := Prod.mk.inj (Option.some.inj h)
    exact .leave (Or.inr ⟨what, hpc⟩)
  · cases h

/-- The call has just returned. -/
def finished (c c' : SaveCall) : List Finished :=
  match c.pc, c'.pc with
  | .returned _, _ => []
  | _, .returned result => [⟨c'.events, result⟩]
  | _, _ => []

end SaveCall

/-! ## The threads together -/

/-- The database and the threads that use it. -/
structure Repo (ι : Type) where
  db : Db := {}
  calls : ι → SaveCall := fun _ => {}

namespace Repo

variable {ι : Type} [DecidableEq ι]

/-- Thread `p.1` takes a step with input `p.2`. -/
def next (pg : Pg) (r : Repo ι) (p : ι × SaveInput) : Option (Repo ι) :=
  ((r.calls p.1).next pg r.db p.2).map fun q =>
    { db := q.1, calls := Function.update r.calls p.1 q.2 }

def writes (pg : Pg) (r : Repo ι) (p : ι × SaveInput) : List (ι × Finished) :=
  match (r.calls p.1).next pg r.db p.2 with
  | some q => ((r.calls p.1).finished q.2).map fun f => (p.1, f)
  | none => []

/-- All runs from empty tables. -/
def machine (ι : Type) [DecidableEq ι] (pg : Pg) : Machine (Repo ι) (ι × Finished) :=
  .ofFn (· = {}) (next pg) (writes pg)

/-- A step is one of the thread it names. -/
theorem next_cases {pg : Pg} {r r' : Repo ι} {i : ι} {input : SaveInput}
    (h : r.next pg (i, input) = some r') :
    ∃ db' c', (r.calls i).next pg r.db input = some (db', c')
      ∧ r' = { db := db', calls := Function.update r.calls i c' }
      ∧ r.writes pg (i, input) = ((r.calls i).finished c').map fun f => (i, f) := by
  obtain ⟨⟨db', c'⟩, hc, rfl⟩ := Option.map_eq_some_iff.mp h
  refine ⟨db', c', hc, rfl, ?_⟩
  unfold writes
  rw [hc]

theorem step_cases {pg : Pg} {r r' : Repo ι} {o : List (ι × Finished)}
    (h : (machine ι pg).step r o r') :
    ∃ i input db' c', SaveCall.Step pg r.db (r.calls i) input db' c'
      ∧ r' = { db := db', calls := Function.update r.calls i c' }
      ∧ o = ((r.calls i).finished c').map fun f => (i, f) := by
  obtain ⟨⟨i, input⟩, hn, rfl⟩ := h
  obtain ⟨db', c', hc, rfl, hwrites⟩ := next_cases hn
  exact ⟨i, input, db', c', SaveCall.step_of_next hc, rfl, hwrites⟩

end Repo

/-- The events of the calls that returned success. -/
def savedEvents (out : List Finished) : List Dto.Event :=
  (out.filter (·.result.success)).flatMap (·.events)

@[simp] theorem savedEvents_append (out o : List Finished) :
    savedEvents (out ++ o) = savedEvents out ++ savedEvents o := by
  simp [savedEvents]

theorem savedEvents_singleton (f : Finished) :
    savedEvents [f] = if f.result.success then f.events else [] := by
  cases hs : f.result.success with
  | true => simp [savedEvents, hs]
  | false => simp [savedEvents, hs]

theorem mem_savedEvents {out : List Finished} {e : Dto.Event} :
    e ∈ savedEvents out ↔ ∃ f ∈ out, f.result.success = true ∧ e ∈ f.events := by
  simp [savedEvents, and_assoc]

end EventHistory
