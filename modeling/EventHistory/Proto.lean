import EventHistory.Entities

/-!
# Wire messages and their conversions

The messages of `proto/event_service.proto` and the converters of
`shared/utils/utils.cc`. Proto3 enums are open, so an enum field is its wire
number, any `Int32`; a submessage and an `optional` field are `Option`, and
reading an unset submessage yields its default instance, as the generated
accessors do. `google::protobuf::util::TimeUtil` is outside the repository
and enters as a parameter of the two filter converters.
-/

namespace EventHistory

namespace Proto

structure EventStatus where
  number : Int32
deriving DecidableEq

namespace EventStatus

def unspecified : EventStatus := ⟨0⟩
def success : EventStatus := ⟨1⟩
def error : EventStatus := ⟨2⟩

end EventStatus

structure FilterDecision where
  number : Int32
deriving DecidableEq

namespace FilterDecision

def unspecified : FilterDecision := ⟨0⟩
def accepted : FilterDecision := ⟨1⟩
def rejected : FilterDecision := ⟨2⟩

end FilterDecision

structure EventPayload where
  rawLine : String := ""
  parsedIp : Option String := none
  filterDecision : FilterDecision := .unspecified
  rejectReason : Option String := none
deriving DecidableEq

structure Event where
  sourceService : String := ""
  timestampUtc : String := ""
  status : EventStatus := .unspecified
  payload : Option EventPayload := none
deriving DecidableEq

/-- The accessor `payload()`: the submessage, or its default instance. -/
def Event.getPayload (e : Event) : EventPayload := e.payload.getD {}

/-- `google.protobuf.Timestamp`. -/
structure Timestamp where
  seconds : Int
  nanos : Int
deriving DecidableEq

structure EventFilter where
  sourceService : Option String := none
  status : Option EventStatus := none
  limit : Option UInt32 := none
  «from» : Option Timestamp := none
  «to» : Option Timestamp := none
  offset : Option UInt32 := none
deriving DecidableEq

structure SaveEventRequest where
  event : List Event := []
deriving DecidableEq

/-- One message of the client stream. -/
structure SaveEventsRequest where
  event : Option Event := none
deriving DecidableEq

/-- The accessor `event()` of a stream message. -/
def SaveEventsRequest.getEvent (r : SaveEventsRequest) : Event :=
  r.event.getD {}

structure SaveEventsResponse where
  success : Bool := false
  message : String := ""
deriving Repr, DecidableEq

structure GetEventsRequest where
  eventFilter : Option EventFilter := none
deriving DecidableEq

/-- The accessor `event_filter()`. -/
def GetEventsRequest.getEventFilter (r : GetEventsRequest) : EventFilter :=
  r.eventFilter.getD {}

structure GetEventsResponse where
  events : List Event := []
  success : Bool := false
  message : String := ""
deriving DecidableEq

structure Stats where
  totalEvents : UInt64 := 0
  successEvents : UInt64 := 0
  errorEvents : UInt64 := 0
deriving DecidableEq

structure GetStatsResponse where
  stats : Option Stats := none
  success : Bool := false
  message : String := ""
deriving DecidableEq

/-- The accessor `stats()`. -/
def GetStatsResponse.getStats (r : GetStatsResponse) : Stats := r.stats.getD {}

end Proto

open Proto

/-! ## Enums -/

def toProtoEventStatus : Dto.Status → EventStatus
  | .unspecified => .unspecified
  | .success => .success
  | .error => .error

/-- The switch of `FromProtoEventStatus`: the two sentinels and every number
without a case fall through to `UNSPECIFIED`. -/
def fromProtoEventStatus (status : EventStatus) : Dto.Status :=
  if status = .unspecified then .unspecified
  else if status = .success then .success
  else if status = .error then .error
  else .unspecified

def toProtoFilterDecision (filterDecision : String) : FilterDecision :=
  if filterDecision = "accepted" then .accepted
  else if filterDecision = "rejected" then .rejected
  else .unspecified

def fromProtoFilterDecision (decision : FilterDecision) : String :=
  if decision = .accepted then "accepted"
  else if decision = .rejected then "rejected"
  else ""

@[simp] theorem fromProtoEventStatus_toProtoEventStatus (s : Dto.Status) :
    fromProtoEventStatus (toProtoEventStatus s) = s := by
  cases s <;> decide

/-- Every other number means UNSPECIFIED. -/
theorem fromProtoEventStatus_of_ne {s : EventStatus} (hs : s ≠ .success) (he : s ≠ .error) :
    fromProtoEventStatus s = .unspecified := by
  rw [fromProtoEventStatus, if_neg hs, if_neg he, ite_self]

@[simp] theorem fromProtoFilterDecision_accepted :
    fromProtoFilterDecision .accepted = "accepted" := by decide

@[simp] theorem fromProtoFilterDecision_rejected :
    fromProtoFilterDecision .rejected = "rejected" := by decide

theorem fromProtoFilterDecision_of_ne {d : FilterDecision}
    (ha : d ≠ .accepted) (hr : d ≠ .rejected) :
    fromProtoFilterDecision d = "" := by
  rw [fromProtoFilterDecision, if_neg ha, if_neg hr]

/-- A decision string survives the wire exactly when it is one of the two
decisions or empty. -/
theorem fromProto_toProtoFilterDecision {s : String} :
    fromProtoFilterDecision (toProtoFilterDecision s) = s ↔
      s = "accepted" ∨ s = "rejected" ∨ s = "" := by
  by_cases ha : s = "accepted"
  · subst ha; simp [toProtoFilterDecision]
  · by_cases hr : s = "rejected"
    · subst hr; simp [toProtoFilterDecision]
    · rw [toProtoFilterDecision, if_neg ha, if_neg hr,
        fromProtoFilterDecision_of_ne (by decide) (by decide)]
      simp [ha, hr, eq_comm]

/-! ## Events -/

def toDtoEvent (protoEvent : Event) : Dto.Event where
  sourceService := protoEvent.sourceService
  timestampUtc := protoEvent.timestampUtc
  status := fromProtoEventStatus protoEvent.status
  payload :=
    { rawLine := protoEvent.getPayload.rawLine
      parsedIp := protoEvent.getPayload.parsedIp
      filterDecision := fromProtoFilterDecision protoEvent.getPayload.filterDecision
      rejectReason := protoEvent.getPayload.rejectReason }

def toProtoEvent (event : Dto.Event) : Event where
  sourceService := event.sourceService
  timestampUtc := event.timestampUtc
  status := toProtoEventStatus event.status
  payload := some
    { rawLine := event.payload.rawLine
      parsedIp := event.payload.parsedIp
      filterDecision := toProtoFilterDecision event.payload.filterDecision
      rejectReason := event.payload.rejectReason }

/-- The event codec loses at most the filter decision. -/
theorem toDtoEvent_toProtoEvent (e : Dto.Event) :
    toDtoEvent (toProtoEvent e) =
      { e with payload :=
        { e.payload with filterDecision :=
          fromProtoFilterDecision (toProtoFilterDecision e.payload.filterDecision) } } := by
  simp [toDtoEvent, toProtoEvent, Event.getPayload]

/-- An event with a decision the wire can carry comes back unchanged. -/
theorem toDtoEvent_toProtoEvent_of_decision {e : Dto.Event}
    (h : e.payload.filterDecision = "accepted" ∨
      e.payload.filterDecision = "rejected" ∨ e.payload.filterDecision = "") :
    toDtoEvent (toProtoEvent e) = e := by
  rw [toDtoEvent_toProtoEvent, fromProto_toProtoFilterDecision.mpr h]

/-! ### Normal forms -/

namespace Proto

/-- The numbers of `EventStatus` that have a name. -/
def EventStatus.declared : List EventStatus := [.unspecified, .success, .error]

def FilterDecision.declared : List FilterDecision := [.unspecified, .accepted, .rejected]

end Proto

theorem toProtoEventStatus_fromProto {status : EventStatus} (h : status ∈ EventStatus.declared) :
    toProtoEventStatus (fromProtoEventStatus status) = status := by
  simp only [EventStatus.declared, List.mem_cons, List.not_mem_nil, or_false] at h
  rcases h with rfl | rfl | rfl
  · decide
  · decide
  · decide

theorem toProtoFilterDecision_fromProto {decision : FilterDecision}
    (h : decision ∈ FilterDecision.declared) :
    toProtoFilterDecision (fromProtoFilterDecision decision) = decision := by
  simp only [FilterDecision.declared, List.mem_cons, List.not_mem_nil, or_false] at h
  rcases h with rfl | rfl | rfl
  · decide
  · decide
  · decide

/-- What `FromProtoFilterDecision` returns survives the wire. -/
theorem fromProtoFilterDecision_carried (decision : FilterDecision) :
    fromProtoFilterDecision decision ∈ ["accepted", "rejected", ""] := by
  by_cases ha : decision = .accepted
  · simp [ha]
  · by_cases hr : decision = .rejected
    · simp [hr]
    · simp [fromProtoFilterDecision_of_ne ha hr]

theorem toDtoEvent_toProtoEvent_iff {e : Dto.Event} :
    toDtoEvent (toProtoEvent e) = e ↔
      e.payload.filterDecision ∈ ["accepted", "rejected", ""] := by
  have hmem : e.payload.filterDecision ∈ ["accepted", "rejected", ""] ↔
      fromProtoFilterDecision (toProtoFilterDecision e.payload.filterDecision) =
        e.payload.filterDecision := by
    rw [fromProto_toProtoFilterDecision]
    simp
  rw [hmem, toDtoEvent_toProtoEvent]
  constructor
  · intro h
    exact congrArg (fun e : Dto.Event => e.payload.filterDecision) h
  · intro h
    rw [h]

/-- An event with a payload and declared enums is in normal form. -/
theorem toProtoEvent_toDtoEvent {p : Event} (hpayload : p.payload.isSome = true)
    (hstatus : p.status ∈ EventStatus.declared)
    (hdecision : p.getPayload.filterDecision ∈ FilterDecision.declared) :
    toProtoEvent (toDtoEvent p) = p := by
  obtain ⟨payload, hpayload⟩ := Option.isSome_iff_exists.mp hpayload
  have hget : p.getPayload = payload := by rw [Event.getPayload, hpayload, Option.getD_some]
  have hrecode : toProtoFilterDecision (fromProtoFilterDecision payload.filterDecision) =
      payload.filterDecision := toProtoFilterDecision_fromProto (hget ▸ hdecision)
  simp only [toProtoEvent, toDtoEvent, toProtoEventStatus_fromProto hstatus, hget, hrecode]
  rw [← hpayload]

/-- **The event codec is a retraction in both directions.** A DTO comes back
from the wire unless its filter decision is one the wire cannot carry, and then
in all other fields; a message with a payload and declared enums comes back,
presence of its optional fields included; and any message is normalised by one
round. -/
theorem eventCodec_retraction :
    (∀ e, toDtoEvent (toProtoEvent e) = e ↔
      e.payload.filterDecision ∈ ["accepted", "rejected", ""])
    ∧ (∀ e, ∃ decision, toDtoEvent (toProtoEvent e) =
        { e with payload := { e.payload with filterDecision := decision } })
    ∧ (∀ p : Event, p.payload.isSome = true → p.status ∈ EventStatus.declared →
        p.getPayload.filterDecision ∈ FilterDecision.declared → toProtoEvent (toDtoEvent p) = p)
    ∧ ∀ p, toProtoEvent (toDtoEvent (toProtoEvent (toDtoEvent p))) =
        toProtoEvent (toDtoEvent p) := by
  refine ⟨fun e => toDtoEvent_toProtoEvent_iff, fun e => ⟨_, toDtoEvent_toProtoEvent e⟩,
    fun p => toProtoEvent_toDtoEvent, ?_⟩
  intro p
  have hdecision : (toDtoEvent p).payload.filterDecision ∈ ["accepted", "rejected", ""] :=
    fromProtoFilterDecision_carried _
  rw [toDtoEvent_toProtoEvent_iff.mpr hdecision]

/-- A rejected line without an address. -/
theorem eventCodec_retraction_sample :
    toProtoEvent (toDtoEvent
      { sourceService := "ipv4_filter", status := .error,
        payload := some { rawLine := "x", filterDecision := .rejected,
                          rejectReason := some "Invalid Format" } }) =
      { sourceService := "ipv4_filter", status := .error,
        payload := some { rawLine := "x", filterDecision := .rejected,
                          rejectReason := some "Invalid Format" } } :=
  eventCodec_retraction.2.2.1 _ rfl (by decide) (by decide)

/-! ## Statistics -/

def toProtoStats (stats : Dto.Stats) : Stats where
  totalEvents := stats.eventsTotal
  successEvents := stats.eventsSuccess
  errorEvents := stats.eventsError

def toDtoStats (protoStats : Stats) : Dto.Stats where
  eventsTotal := protoStats.totalEvents
  eventsSuccess := protoStats.successEvents
  eventsError := protoStats.errorEvents

@[simp] theorem toDtoStats_toProtoStats (stats : Dto.Stats) :
    toDtoStats (toProtoStats stats) = stats := rfl

/-! ## Filters -/

/-- `google::protobuf::util::TimeUtil`: `FromString` fails on text that is
not RFC 3339. -/
structure TimeUtil where
  fromString : String → Option Timestamp
  toString : Timestamp → String

/-- `ToTimestampFromStr`; `error` is the `std::invalid_argument`. -/
def toTimestampFromStr (tu : TimeUtil) (s : String) : Except String Timestamp :=
  match tu.fromString s with
  | some t => .ok t
  | none => .error "Bad string format."

def fromTimestampToStr (tu : TimeUtil) (t : Timestamp) : String := tu.toString t

/-- `FromProtoEventFilter` on a present filter; `std::nullopt` maps to
itself. -/
def fromProtoEventFilter (tu : TimeUtil) :
    Option EventFilter → Option Dto.EventFilter
  | none => none
  | some f => some
      { sourceService := f.sourceService
        status := f.status.map fromProtoEventStatus
        limit := f.limit.map (·.toUInt64)
        «from» := f.from.map (fromTimestampToStr tu)
        «to» := f.«to».map (fromTimestampToStr tu)
        offset := f.offset.map (·.toUInt64) }

/-- `ToProtoEventFilter`: limit and offset are truncated to the 32-bit wire
fields. -/
def toProtoEventFilter (tu : TimeUtil) :
    Option Dto.EventFilter → Except String (Option EventFilter)
  | none => .ok none
  | some f => do
      let pfrom ← f.from.mapM (toTimestampFromStr tu)
      let pto ← f.«to».mapM (toTimestampFromStr tu)
      return some
        { sourceService := f.sourceService
          status := f.status.map toProtoEventStatus
          limit := f.limit.map (·.toUInt32)
          «from» := pfrom
          «to» := pto
          offset := f.offset.map (·.toUInt32) }

end EventHistory
