import Mathlib.Algebra.Ring.Nat
import Mathlib.Tactic.ByContra
import EventHistory.Proto

/-!
# The saving handlers of `GrpcEventServiceImpl`

`ValidateEvent`, the two `Validate` overloads, and the handlers `SaveEvent`
and `SaveEventsStream` as step functions. A handler state records the program
point and the local variables; `next` takes the answer of the call the
handler is blocked in (`reader->Read`, `Execute`, `IsCancelled`) and moves to
the next such call. What `Execute` answers is arbitrary, exceptions included:
`SaveEventsStream` turns an exception into its "Fatal error" response, while
one that leaves `SaveEvent` becomes an `UNKNOWN` status in the gRPC runtime.

The counters of the stream handler are 32-bit `int`s (`int32`). Its fields
`received`, `executed` and `readEnded` are ghosts that no branch reads.
-/

namespace EventHistory

open Proto

namespace Grpc

inductive StatusCode where
  | ok
  | cancelled
  | unknown
  | invalidArgument
  | deadlineExceeded
  | unavailable
deriving Repr, DecidableEq

/-- `grpc::Status`. -/
structure Status where
  code : StatusCode
  message : String
deriving Repr, DecidableEq

def Status.ok : Status := ⟨.ok, ""⟩

/-- `grpc::Status::CANCELLED`. -/
def Status.cancelled : Status := ⟨.cancelled, ""⟩

def Status.isOk (s : Status) : Bool := s.code = .ok

@[simp] theorem Status.isOk_ok : Status.ok.isOk = true := rfl

end Grpc

open Grpc (Status)

/-! ## Validation -/

/-- `ValidateEvent`. An enum number outside its declaration passes: only the
zero values are refused. -/
def validateEvent (event : Event) : Status :=
  if event.sourceService ≠ "ipv4_filter" then
    ⟨.invalidArgument, "Unknown source_service."⟩
  else if event.timestampUtc.isEmpty then
    ⟨.invalidArgument, "timestamp_utc is required."⟩
  else if event.status = .unspecified then
    ⟨.invalidArgument, "status must be SUCCESS or ERROR"⟩
  else if event.getPayload.rawLine.isEmpty then
    ⟨.invalidArgument, "payload raw_line is required"⟩
  else if event.getPayload.filterDecision = .unspecified then
    ⟨.invalidArgument, "filter_decision must be 'accepted' or 'rejected'."⟩
  else .ok

/-- The loop of `Validate(SaveEventRequest)`: the first failing status. -/
def validateEvents : List Event → Status
  | [] => .ok
  | e :: es => if (validateEvent e).isOk then validateEvents es else validateEvent e

/-- `Validate(const SaveEventRequest *)`. -/
def validateSaveEventRequest (request : SaveEventRequest) : Status :=
  if request.event.length = 0 then
    ⟨.invalidArgument, "At least one event is required."⟩
  else validateEvents request.event

/-- `Validate(const SaveEventsRequest *)`, the stream message. -/
def validateSaveEventsRequest (request : SaveEventsRequest) : Status :=
  if request.event.isNone then ⟨.invalidArgument, "Event is required."⟩
  else validateEvent request.getEvent

/-- What `ValidateEvent` accepts, field by field. -/
structure ValidEvent (event : Event) : Prop where
  sourceService : event.sourceService = "ipv4_filter"
  timestampUtc : event.timestampUtc.isEmpty = false
  status : event.status ≠ .unspecified
  rawLine : event.getPayload.rawLine.isEmpty = false
  filterDecision : event.getPayload.filterDecision ≠ .unspecified

theorem validateEvent_isOk {event : Event} :
    (validateEvent event).isOk = true ↔ ValidEvent event := by
  unfold validateEvent
  constructor
  · intro h
    split at h <;> try cases h
    split at h <;> try cases h
    split at h <;> try cases h
    split at h <;> try cases h
    split at h <;> try cases h
    rename_i h1 h2 h3 h4 h5
    exact ⟨by simpa using h1, by simpa using h2, h3, by simpa using h4, h5⟩
  · rintro ⟨h1, h2, h3, h4, h5⟩
    simp [h1, h2, h3, h4, h5]

theorem validateEvents_isOk {es : List Event} :
    (validateEvents es).isOk = true ↔ ∀ e ∈ es, ValidEvent e := by
  induction es with
  | nil => simp [validateEvents]
  | cons e es ih =>
      rw [validateEvents, List.forall_mem_cons, ← ih, ← validateEvent_isOk]
      by_cases he : (validateEvent e).isOk = true
      · simp [he]
      · simp [he]

theorem validateSaveEventRequest_isOk {r : SaveEventRequest} :
    (validateSaveEventRequest r).isOk = true ↔
      r.event ≠ [] ∧ ∀ e ∈ r.event, ValidEvent e := by
  rw [validateSaveEventRequest, ← validateEvents_isOk]
  by_cases h : r.event.length = 0
  · have hnil : r.event = [] := List.length_eq_zero_iff.mp h
    simp [hnil, Status.isOk]
  · have hne : r.event ≠ [] := fun h' => h (by simp [h'])
    simp [hne]

/-- Every refusal of the loop is one of `ValidateEvent`. -/
theorem validateEvent_code {event : Event} (h : (validateEvent event).isOk = false) :
    (validateEvent event).code = .invalidArgument := by
  unfold validateEvent at h ⊢
  split_ifs at h ⊢
  all_goals first | rfl | cases h

theorem validateEvents_code {es : List Event} (h : (validateEvents es).isOk = false) :
    (validateEvents es).code = .invalidArgument := by
  induction es with
  | nil => cases h
  | cons e es ih =>
      unfold validateEvents at h ⊢
      split
      · rename_i he
        rw [if_pos he] at h
        exact ih h
      · rename_i he
        exact validateEvent_code (Bool.eq_false_iff.mpr he)

theorem validateSaveEventRequest_code {r : SaveEventRequest}
    (h : (validateSaveEventRequest r).isOk = false) :
    (validateSaveEventRequest r).code = .invalidArgument := by
  unfold validateSaveEventRequest at h ⊢
  split
  · rfl
  · rename_i hne
    rw [if_neg hne] at h
    exact validateEvents_code h

/-- A stream message passes when it carries an event that passes. -/
theorem validateSaveEventsRequest_isOk {r : SaveEventsRequest} :
    (validateSaveEventsRequest r).isOk = true ↔
      ∃ e, r.event = some e ∧ ValidEvent e := by
  unfold validateSaveEventsRequest
  cases h : r.event with
  | none => simp [Status.isOk]
  | some e => simp [SaveEventsRequest.getEvent, h, validateEvent_isOk]

/-- A valid event keeps its decision through the conversion to a DTO unless
its number is undeclared; a valid DTO event is its own wire image. -/
theorem toDtoEvent_toProtoEvent_of_valid {e : Dto.Event}
    (h : ValidEvent (toProtoEvent e)) : toDtoEvent (toProtoEvent e) = e := by
  refine toDtoEvent_toProtoEvent_of_decision ?_
  by_contra hc
  have hu : toProtoFilterDecision e.payload.filterDecision = .unspecified := by
    simp only [not_or] at hc
    rw [toProtoFilterDecision, if_neg hc.1, if_neg hc.2.1]
  exact h.filterDecision hu

/-- A message that validation accepts. -/
def sampleMessage : SaveEventsRequest where
  event := some
    { sourceService := "ipv4_filter"
      timestampUtc := "2026-07-08 11:55:29"
      status := .success
      payload := some
        { rawLine := "192.168.1.25 - GET /index.html"
          parsedIp := some "192.168.1.25"
          filterDecision := .accepted } }

/-- The event it carries. -/
def sampleEvent : Dto.Event := toDtoEvent sampleMessage.getEvent

example : (validateSaveEventsRequest sampleMessage).isOk = true := by decide

/-! ## Answers of the use case -/

/-- How `save_event_use_case_->Execute` comes back. -/
inductive Outcome where
  | returned (result : VoidResult)
  | threw (what : String)
deriving Repr, DecidableEq

/-- Only a returned success counts as executed. -/
def Outcome.success : Outcome → Bool
  | .returned r => r.success
  | .threw _ => false

/-- What the blocking calls of a handler answer. `proceed` is a step of the
handler's own code. -/
inductive Input where
  | read (message : Option SaveEventsRequest)
  | execute (outcome : Outcome)
  | isCancelled (answer : Bool)
  | proceed

/-! ## `SaveEvent` -/

inductive SaveEventCall where
  | received (request : SaveEventRequest)
  | execute (events : List Dto.Event)
  | done (status : Status) (response : SaveEventsResponse)

namespace SaveEventCall

def next : SaveEventCall → Input → Option SaveEventCall
  | .received request, .proceed =>
      if (validateSaveEventRequest request).isOk then
        some (.execute (request.event.map toDtoEvent))
      else some (.done (validateSaveEventRequest request) {})
  | .execute _, .execute (.returned result) =>
      some (.done .ok
        { success := result.success
          message := if result.success then
              "Event(s) received and saved successfully."
            else result.errorMessage })
  -- no try block: the runtime answers for an exception
  | .execute _, .execute (.threw _) =>
      some (.done ⟨.unknown, "Unexpected error in RPC handling"⟩ {})
  | _, _ => none

/-- The events `Execute` has just persisted: all it was given, or none. -/
def writes : SaveEventCall → Input → List Dto.Event
  | .execute events, .execute outcome => if outcome.success then events else []
  | _, _ => []

end SaveEventCall

/-! ## `SaveEventsStream` -/

/-- `BATCH_SIZE`. -/
def batchSize : Nat := 1000

/-- The value a 32-bit `int` holds after an assignment. -/
def int32 (x : Int) : Int := x.bmod (2 ^ 32)

theorem int32_of_lt {n : Nat} (h : n < 2 ^ 31) : int32 n = n := by
  unfold int32
  rw [Int.bmod_eq_of_le] <;> omega

/-- The calls the stream handler blocks in, in program order. `body` is the
loop body up to the batch test; `finalBatch` is the flush after the loop. -/
inductive StreamPc where
  | read
  | body (request : SaveEventsRequest)
  | executeBatch
  | isCancelled
  | finalBatch
  | done (status : Status) (response : SaveEventsResponse)
deriving DecidableEq

structure StreamCall where
  pc : StreamPc := .read
  totalEvents : Int := 0
  savedEvents : Int := 0
  batch : List Dto.Event := []
  /-- ghost: the messages `Read` has delivered -/
  received : List SaveEventsRequest := []
  /-- ghost: what was passed to `Execute`, and whether it succeeded -/
  executed : List (List Dto.Event × Bool) := []
  /-- ghost: `Read` has returned false -/
  readEnded : Bool := false
deriving DecidableEq

namespace StreamCall

/-- Return `status` with the response set to `success` and `message`. -/
def answer (c : StreamCall) (status : Status) (success : Bool)
    (message : String) : StreamCall :=
  { c with pc := .done status { success, message } }

/-- The response after a successful end of the stream. -/
def complete (c : StreamCall) : StreamCall :=
  c.answer .ok true
    ("Saved " ++ toString c.savedEvents ++ "/" ++ toString c.totalEvents ++ " events")

/-- `reader->Read(&request)` returned false: leave the loop. -/
def endLoop (c : StreamCall) : StreamCall :=
  let c := { c with readEnded := true }
  if c.batch.isEmpty then c.complete else { c with pc := .finalBatch }

/-- Validate, convert, buffer and count one message. -/
def loopBody (c : StreamCall) (request : SaveEventsRequest) : StreamCall :=
  let status := validateSaveEventsRequest request
  if status.isOk then
    { c with
      batch := c.batch ++ [toDtoEvent request.getEvent]
      totalEvents := int32 (c.totalEvents + 1)
      pc := if c.batch.length + 1 ≥ batchSize then .executeBatch else .isCancelled }
  else
    c.answer .ok false
      ("Validation failed at event " ++ toString c.totalEvents ++ ": " ++ status.message)

/-- `Execute(batch)` came back: count the saved events, or answer with
`failure` in front of the error. An exception ends in the catch block. -/
def afterExecute (c : StreamCall) (failure : String) (o : Outcome) : StreamCall :=
  let c := { c with executed := c.executed ++ [(c.batch, o.success)] }
  match o with
  | .threw what => c.answer .ok false ("Fatal error: " ++ what)
  | .returned result =>
      if result.success then
        { c with savedEvents := int32 (c.savedEvents + c.batch.length) }
      else c.answer .ok false (failure ++ result.errorMessage)

/-- The full batch inside the loop. -/
def afterBatch (c : StreamCall) (o : Outcome) : StreamCall :=
  let c' := c.afterExecute
    ("Failed to save batch at event " ++ toString c.totalEvents ++ ": ") o
  if o.success then { c' with batch := [], pc := .isCancelled } else c'

/-- The rest of the events after the loop. -/
def afterFinalBatch (c : StreamCall) (o : Outcome) : StreamCall :=
  let c' := c.afterExecute "Failed to save final batch: " o
  if o.success then c'.complete else c'

/-- `context->IsCancelled()` inside the loop. -/
def afterIsCancelled (c : StreamCall) (cancelled : Bool) : StreamCall :=
  if cancelled then
    c.answer .cancelled false
      ("Cancelled by client at " ++ toString c.totalEvents ++ " events")
  else { c with pc := .read }

def next (c : StreamCall) (input : Input) : Option StreamCall :=
  match c.pc, input with
  | .read, .read (some request) =>
      some { c with pc := .body request, received := c.received ++ [request] }
  | .read, .read none => some c.endLoop
  | .body request, .proceed => some (c.loopBody request)
  | .executeBatch, .execute o => some (c.afterBatch o)
  | .isCancelled, .isCancelled b => some (c.afterIsCancelled b)
  | .finalBatch, .execute o => some (c.afterFinalBatch o)
  | _, _ => none

/-- The events the handler's current `Execute` persists: the whole batch
when it succeeds, nothing otherwise. -/
def writes (c : StreamCall) (input : Input) : List Dto.Event :=
  match input with
  | .execute o => if o.success then c.batch else []
  | _ => []

/-- The events of the received messages, as the handler converts them. -/
def events (requests : List SaveEventsRequest) : List Dto.Event :=
  requests.map fun r => toDtoEvent r.getEvent

@[simp] theorem events_append (rs rs' : List SaveEventsRequest) :
    events (rs ++ rs') = events rs ++ events rs' := List.map_append

@[simp] theorem events_length (rs : List SaveEventsRequest) :
    (events rs).length = rs.length := List.length_map ..

/-- Everything passed to `Execute`, in order. -/
def passed (c : StreamCall) : List Dto.Event := (c.executed.map (·.1)).flatten

/-- The batches `Execute` accepted, in order. -/
def accepted (c : StreamCall) : List (List Dto.Event) :=
  (c.executed.filter (·.2)).map (·.1)

end StreamCall

end EventHistory
