import EventHistory.Lib.Text
import EventHistory.Utils
import EventHistory.Rpc.SaveBatch

/-!
# From log entries to events

The configuration of the client, its `EventBuilder`, and the `Save` command
up to `SaveBatch`. What the server's validation asks of an event is settled
by the builder for every log entry but for one field: the source service,
which comes from the environment. `client_accepted_iff` says what has to be
in it.
-/

namespace EventHistory

open CxxText

/-! ## The configuration -/

/-- The variables of the process; `none` where one is unset. -/
abbrev Environment := String → Option String

/-- `AppConfig`, but for the filters of the log library. -/
structure AppConfig where
  serviceName : String
  serverAddress : String
  serverPort : UInt16

def AppConfig.ofEnv (getenv : Environment) : AppConfig where
  serviceName := (getenv "POSTGRES_HOST").getD "ipv4_filter"
  serverAddress := (getenv "SERVER_ADDRESS").getD "history-server"
  serverPort := ((getenv "SERVER_PORT").map fun port => UInt16.ofInt (atoi port)).getD 50051

/-! ## The builder -/

structure EventBuilder where
  srcServiceName : String

namespace EventBuilder

/-- `Build`; `now` is what the clock shows. -/
def build (b : EventBuilder) (localtime : Int → Tm) (now : Int) (logEntry : LogEntry) :
    Option Dto.Event :=
  if logEntry.rawLine.isEmpty then none
  else some
    { sourceService := b.srcServiceName
      timestampUtc := formatTimestamp localtime now
      status := if logEntry.parsedIp.isSome then .success else .error
      payload :=
        { rawLine := logEntry.rawLine
          parsedIp := logEntry.parsedIp.map ipv4AddressToString
          filterDecision := getFilterDecision logEntry.reason
          rejectReason := filterRejectReasonToStr logEntry.reason } }

/-- The events that `SaveEventUseCase::Execute` collects: the log library
passes the entries of the input in batches, and each call of `Build` reads
the clock anew. -/
def collect (b : EventBuilder) (localtime : Int → Tm) (batches : List (List (LogEntry × Int))) :
    List Dto.Event :=
  batches.flatMap fun batch =>
    batch.filterMap fun entry => b.build localtime entry.2 entry.1

variable {b : EventBuilder} {localtime : Int → Tm} {now : Int} {logEntry : LogEntry}
  {e : Dto.Event}

/-- The server refuses a built event for its source service, or not at all. -/
theorem validEvent_of_build (h : b.build localtime now logEntry = some e) :
    ValidEvent (toProtoEvent e) ↔ b.srcServiceName = "ipv4_filter" := by
  unfold build at h
  split at h
  · cases h
  · rename_i hline
    obtain rfl := Option.some.inj h
    refine ⟨fun hvalid => hvalid.sourceService, ?_⟩
    intro hname
    refine ⟨hname, putTime_ne_empty _, ?_, ?_, ?_⟩
    · show toProtoEventStatus (if logEntry.parsedIp.isSome then .success else .error) ≠ _
      split
      · decide
      · decide
    · simpa [toProtoEvent, Proto.Event.getPayload] using hline
    · show toProtoFilterDecision (getFilterDecision logEntry.reason) ≠ _
      rcases getFilterDecision_mem logEntry.reason with hd | hd
      · rw [hd]
        decide
      · rw [hd]
        decide

theorem exists_build (b : EventBuilder) (localtime : Int → Tm) (now : Int)
    (hline : logEntry.rawLine.isEmpty = false) :
    ∃ e, b.build localtime now logEntry = some e := by
  unfold build
  rw [hline, if_neg Bool.false_ne_true]
  exact ⟨_, rfl⟩

/-- All events of a `Save` are valid, or none is. -/
theorem validEvent_of_collect {batches : List (List (LogEntry × Int))}
    (he : e ∈ b.collect localtime batches) :
    ValidEvent (toProtoEvent e) ↔ b.srcServiceName = "ipv4_filter" := by
  obtain ⟨batch, -, he⟩ := List.mem_flatMap.mp he
  obtain ⟨entry, -, he⟩ := List.mem_filterMap.mp he
  exact validEvent_of_build he

end EventBuilder

/-! ## The client and its server -/

/-- The environment leaves the client the name that the server knows. -/
def NamesIpv4Filter (getenv : Environment) : Prop :=
  getenv "POSTGRES_HOST" = none ∨ getenv "POSTGRES_HOST" = some "ipv4_filter"

/-- The builder of `main`. -/
def mainBuilder (getenv : Environment) : EventBuilder :=
  { srcServiceName := (AppConfig.ofEnv getenv).serviceName }

theorem namesIpv4Filter_iff {getenv : Environment} :
    (mainBuilder getenv).srcServiceName = "ipv4_filter" ↔ NamesIpv4Filter getenv := by
  unfold mainBuilder AppConfig.ofEnv NamesIpv4Filter
  cases getenv "POSTGRES_HOST" with
  | none => simp
  | some name => simp

/-- **When the server accepts what its client builds.** For every log entry
with a line, and for every non-empty batch of the `Save` command on either
route: exactly when `POSTGRES_HOST`, where the configuration looks for the
name of the service, is unset or holds that name. -/
theorem client_accepted_iff (getenv : Environment) (localtime : Int → Tm) :
    (∀ now logEntry, logEntry.rawLine.isEmpty = false →
      ((∃ e, (mainBuilder getenv).build localtime now logEntry = some e
        ∧ (validateEvent (toProtoEvent e)).isOk = true) ↔ NamesIpv4Filter getenv))
    ∧ ∀ batches, (mainBuilder getenv).collect localtime batches ≠ [] →
      ((validateSaveEventRequest
          (Session.request ((mainBuilder getenv).collect localtime batches))).isOk = true
        ↔ NamesIpv4Filter getenv)
      ∧ ((∀ e ∈ (mainBuilder getenv).collect localtime batches,
          (validateSaveEventsRequest (Session.message e)).isOk = true)
        ↔ NamesIpv4Filter getenv) := by
  simp only [← namesIpv4Filter_iff]
  refine ⟨?_, ?_⟩
  · intro now logEntry hline
    obtain ⟨e, he⟩ := (mainBuilder getenv).exists_build localtime now hline
    rw [← EventBuilder.validEvent_of_build he, ← validateEvent_isOk]
    constructor
    · rintro ⟨e', he', hvalid⟩
      obtain rfl := Option.some.inj (he.symm.trans he')
      exact hvalid
    · exact fun hvalid => ⟨e, he, hvalid⟩
  · intro batches hne
    have hall : (∀ e ∈ (mainBuilder getenv).collect localtime batches,
        ValidEvent (toProtoEvent e)) ↔ (mainBuilder getenv).srcServiceName = "ipv4_filter" := by
      constructor
      · intro hvalid
        obtain ⟨e, he⟩ := List.exists_mem_of_ne_nil _ hne
        exact (EventBuilder.validEvent_of_collect he).mp (hvalid e he)
      · exact fun hname e he => (EventBuilder.validEvent_of_collect he).mpr hname
    refine ⟨?_, ?_⟩
    · rw [validateSaveEventRequest_isOk, ← hall]
      simp [Session.request, hne]
    · simp only [validateSaveEventsRequest_isOk, Session.message, Option.some.injEq,
        exists_eq_left']
      exact hall

/-- A clock that stands still. -/
def sampleTime : Tm := ⟨126, 6, 8, 11, 55, 29⟩

/-- An address that passed the filter. -/
def sampleEntry : LogEntry := ⟨"192.168.1.25 - GET /index.html", some 0xC0A80119, .none⟩

/-- Where the environment says nothing, the event is accepted. -/
theorem client_accepted_iff_sample :
    ∃ e, (mainBuilder fun _ => none).build (fun _ => sampleTime) 0 sampleEntry = some e
      ∧ (validateEvent (toProtoEvent e)).isOk = true :=
  ((client_accepted_iff (fun _ => none) fun _ => sampleTime).1 0 sampleEntry (by decide)).mpr
    (Or.inl rfl)

/-- An environment that names the database host. -/
def withPostgresHost : Environment
  | "POSTGRES_HOST" => some "postgres"
  | _ => none

/-- With `POSTGRES_HOST=postgres` the client calls itself after the database
host, and its server refuses the event. -/
theorem client_refused :
    ∃ e, (mainBuilder withPostgresHost).build (fun _ => sampleTime) 0 sampleEntry = some e
      ∧ validateEvent (toProtoEvent e) = ⟨.invalidArgument, "Unknown source_service."⟩ :=
  ⟨_, rfl, by decide⟩

end EventHistory
