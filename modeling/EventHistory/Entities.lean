/-!
# Shared entities

The data that both services exchange with their core: `dto::Event`,
`dto::EventFilter`, `dto::Stats` and `shared::Result`
(`shared/core/entities`). `size_t` is `UInt64`; `std::optional` is `Option`;
an exception of a conversion is `Except.error` with its text.
-/

namespace EventHistory

namespace Dto

structure Payload where
  rawLine : String := ""
  parsedIp : Option String := none
  filterDecision : String := ""
  rejectReason : Option String := none
deriving Repr, DecidableEq

/-- `Event::Status`; `unspecified` is commented `ALL` in the source. -/
inductive Status where
  | unspecified
  | success
  | error
deriving Repr, DecidableEq

structure Event where
  sourceService : String := ""
  timestampUtc : String := ""
  status : Status := .unspecified
  payload : Payload := {}
deriving Repr, DecidableEq

structure EventFilter where
  sourceService : Option String := none
  status : Option Status := none
  limit : Option UInt64 := none
  «from» : Option String := none
  «to» : Option String := none
  offset : Option UInt64 := none
deriving Repr, DecidableEq

/-- `EventFilter::Type`. -/
inductive FilterType where
  | srcSrv
  | status
  | limit
  | from
  | to
  | offset
deriving Repr, DecidableEq

/-- `EventFilter::kMap`. -/
def kMap : List (String × FilterType) :=
  [("source_service", .srcSrv), ("status", .status), ("limit", .limit), ("from", .from),
    ("to", .to), ("offset", .offset)]

structure Stats where
  eventsTotal : UInt64 := 0
  eventsSuccess : UInt64 := 0
  eventsError : UInt64 := 0
deriving Repr, DecidableEq

/-- `Event::StatusToStr`. The `throw` after the switch is out of reach of
the three enumerators. -/
def statusToStr : Status → String
  | .unspecified => "unspecified"
  | .success => "success"
  | .error => "error"

/-- `Event::StrToStatus`; `error` is the `std::invalid_argument`. -/
def strToStatus (status : String) : Except String Status :=
  if status = "unspecified" then .ok .unspecified
  else if status = "success" then .ok .success
  else if status = "error" then .ok .error
  else .error "Invalid status str in Event::StrToStatus()."

@[simp] theorem strToStatus_statusToStr (s : Status) :
    strToStatus (statusToStr s) = .ok s := by
  cases s <;> simp [strToStatus, statusToStr]

theorem strToStatus_eq_ok {s : String} {status : Status} :
    strToStatus s = .ok status ↔ s = statusToStr status := by
  constructor
  · intro h
    unfold strToStatus at h
    split at h
    · obtain rfl := Except.ok.inj h
      assumption
    · split at h
      · obtain rfl := Except.ok.inj h
        assumption
      · split at h
        · obtain rfl := Except.ok.inj h
          assumption
        · cases h
  · rintro rfl
    exact strToStatus_statusToStr status

theorem mem_statusNames {s : String} :
    s ∈ ["unspecified", "success", "error"] ↔ ∃ status, strToStatus s = .ok status := by
  simp only [strToStatus_eq_ok, List.mem_cons, List.not_mem_nil, or_false]
  constructor
  · rintro (rfl | rfl | rfl)
    · exact ⟨.unspecified, rfl⟩
    · exact ⟨.success, rfl⟩
    · exact ⟨.error, rfl⟩
  · rintro ⟨status, rfl⟩
    cases status <;> simp [statusToStr]

end Dto

/-- `shared::Result<T>`: a success flag, an error message and, on success,
the data. -/
structure Result (α : Type) where
  success : Bool
  errorMessage : String
  data : Option α
deriving Repr, DecidableEq

namespace Result

variable {α : Type}

def ok (value : α) : Result α :=
  { success := true, errorMessage := "", data := some value }

def notOk (message : String) : Result α :=
  { success := false, errorMessage := message, data := none }

@[simp] theorem ok_success (value : α) : (ok value).success = true := rfl

@[simp] theorem ok_data (value : α) : (ok value).data = some value := rfl

end Result

/-- The specialisation `shared::Result<void>`, which carries no data. -/
structure VoidResult where
  success : Bool
  errorMessage : String
deriving Repr, DecidableEq

namespace VoidResult

def ok : VoidResult := { success := true, errorMessage := "" }

def notOk (message : String) : VoidResult :=
  { success := false, errorMessage := message }

@[simp] theorem ok_success : ok.success = true := rfl

end VoidResult

end EventHistory
