import Mathlib.Logic.Basic
import EventHistory.Entities

/-!
# The database schema

The tables of `schema.sql` and the two `INSERT` statements of
`PrepareStatements`, with the constraints they have to pass. What PostgreSQL
does with a text (its input and output functions, its error messages) is the
parameter `Pg`; what the schema says is checked here. A `NOT NULL` column is
a plain field, any other an `Option`.
-/

namespace EventHistory

/-- Why a statement fails. -/
inductive SqlError where
  | invalidText
  | invalidTimestamp
  | invalidInet
  | valueTooLong (n : Nat)
  | check (constraint : String)
  | unique (constraint : String)
  | foreignKey (constraint : String)
  | outOfRange (type : String)
  | sequenceExhausted
  | parameterCount (supplied required : Nat)
  | negativeLimit
deriving Repr, DecidableEq

/-- The input and output functions of PostgreSQL that the repository meets,
in the settings of its session. `textIn` is what a text parameter arrives as;
a `timestamptz` is its count of microseconds, with the two infinities at the
ends of the range; `inetIn` is the text that the stored address prints as.
`what` is the text of an error. -/
structure Pg where
  textIn : String → Option String
  timestamptzIn : String → Option Int
  timestamptzOut : Int → String
  inetIn : String → Option String
  what : SqlError → String

structure EventRow where
  id : Int
  sourceService : String
  timestampUtc : Option Int
  status : String
deriving Repr, DecidableEq

structure PayloadRow where
  eventId : Int
  rawLine : String
  parsedIp : Option String
  filterDecision : String
  rejectReason : Option String
deriving Repr, DecidableEq

structure Tables where
  events : List EventRow := []
  payloads : List PayloadRow := []
deriving Repr, DecidableEq

namespace Tables

/-- The rows of both, the first in front. -/
def append (t u : Tables) : Tables :=
  { events := t.events ++ u.events, payloads := t.payloads ++ u.payloads }

@[simp] theorem append_empty (t : Tables) : t.append {} = t := by
  simp [append]

theorem append_assoc (t u v : Tables) : (t.append u).append v = t.append (u.append v) := by
  simp [append]

end Tables

/-! ## Columns -/

/-- An assignment to `VARCHAR (n)`: only spaces may be cut off. -/
def varchar (n : Nat) (s : String) : Except SqlError String :=
  if s.length ≤ n then .ok s
  else if (s.toList.drop n).all (· = ' ') then .ok (String.ofList (s.toList.take n))
  else .error (.valueTooLong n)

/-- `CHECK (column IN (...))`. -/
def checkIn (constraint : String) (allowed : List String) (s : String) :
    Except SqlError String :=
  if s ∈ allowed then .ok s else .error (.check constraint)

def orError {α : Type} (e : SqlError) : Option α → Except SqlError α
  | some a => .ok a
  | none => .error e

/-- Fail with `e` where `p` holds. -/
def refuseIf (p : Prop) [Decidable p] (e : SqlError) : Except SqlError Unit :=
  if p then .error e else .ok ()

/-- `CONSTRAINT check_source_service`. -/
def sourceServices : List String := ["calculator", "ipv4_filter"]

/-- `CONSTRAINT check_status`. -/
def statuses : List String := ["success", "error"]

/-- `CONSTRAINT check_filter_decision`. -/
def filterDecisions : List String := ["accepted", "rejected"]

/-! ## `insert_event` and `insert_payload` -/

/-- The last id an `INT` column holds. -/
def maxId : Int := 2147483647

/-- `insert_event`, with the next value of the sequence for the id. The
tables are those the transaction sees. -/
def insertEvent (pg : Pg) (tables : Tables) (id : Int)
    (sourceService timestampUtc status : String) : Except SqlError EventRow := do
  let sourceService ← orError .invalidText (pg.textIn sourceService)
  let timestampUtc ← orError .invalidTimestamp (pg.timestamptzIn timestampUtc)
  let status ← orError .invalidText (pg.textIn status)
  refuseIf (id > maxId) .sequenceExhausted
  let sourceService ← varchar 20 sourceService
  let status ← varchar 10 status
  let sourceService ← checkIn "check_source_service" sourceServices sourceService
  let status ← checkIn "check_status" statuses status
  refuseIf (id ∈ tables.events.map (·.id)) (.unique "events_pkey")
  return { id, sourceService, timestampUtc := some timestampUtc, status }

/-- `insert_payload`. -/
def insertPayload (pg : Pg) (tables : Tables) (eventId : Int) (rawLine : String)
    (parsedIp : Option String) (filterDecision : String) (rejectReason : Option String) :
    Except SqlError PayloadRow := do
  let rawLine ← orError .invalidText (pg.textIn rawLine)
  let parsedIp ← parsedIp.mapM fun ip => orError .invalidInet (pg.inetIn ip)
  let filterDecision ← orError .invalidText (pg.textIn filterDecision)
  let rejectReason ← rejectReason.mapM fun r => orError .invalidText (pg.textIn r)
  let filterDecision ← varchar 10 filterDecision
  let filterDecision ← checkIn "check_filter_decision" filterDecisions filterDecision
  refuseIf (eventId ∈ tables.payloads.map (·.eventId)) (.unique "payloads_pkey")
  refuseIf (eventId ∉ tables.events.map (·.id)) (.foreignKey "fk_events_payloads")
  return { eventId, rawLine, parsedIp, filterDecision, rejectReason }

/-! ### What an insert stores -/

/-- The row keeps the texts of an event: its source and status pass their
checks, and its timestamp is the one the text denotes. -/
structure EventRow.Keeps (pg : Pg) (row : EventRow)
    (sourceService timestampUtc status : String) : Prop where
  sourceService : pg.textIn sourceService = some row.sourceService
  timestampUtc : row.timestampUtc = pg.timestamptzIn timestampUtc
  notNull : row.timestampUtc.isSome = true
  status : pg.textIn status = some row.status
  checkSourceService : row.sourceService ∈ sourceServices
  checkStatus : row.status ∈ statuses

/-- The same for a payload; an absent field is stored as `NULL`. -/
structure PayloadRow.Keeps (pg : Pg) (row : PayloadRow) (rawLine : String)
    (parsedIp : Option String) (filterDecision : String) (rejectReason : Option String) :
    Prop where
  rawLine : pg.textIn rawLine = some row.rawLine
  parsedIp : parsedIp.mapM pg.inetIn = some row.parsedIp
  filterDecision : pg.textIn filterDecision = some row.filterDecision
  rejectReason : rejectReason.mapM pg.textIn = some row.rejectReason
  checkFilterDecision : row.filterDecision ∈ filterDecisions

section Stored

variable {pg : Pg} {tables : Tables}

theorem bind_eq_ok {ε α β : Type} {x : Except ε α} {f : α → Except ε β} {b : β} :
    (x >>= f) = .ok b ↔ ∃ a, x = .ok a ∧ f a = .ok b := by
  cases x with
  | error e => simp [bind, Except.bind]
  | ok a => simp [bind, Except.bind]

theorem orError_eq_ok {α : Type} {e : SqlError} {o : Option α} {a : α} :
    orError e o = .ok a ↔ o = some a := by
  cases o with
  | none => simp [orError]
  | some b => simp [orError]

theorem mapM_orError_eq_ok {α : Type} {f : String → Option α} {e : SqlError}
    {o : Option String} {r : Option α} :
    (o.mapM fun s => orError e (f s)) = Except.ok r ↔ o.mapM f = some r := by
  cases o with
  | none => simp [pure, Except.pure]
  | some s =>
      simp only [Option.mapM_some]
      cases f s with
      | none => simp [orError, Functor.map, Except.map]
      | some t => simp [orError, Functor.map, Except.map]

theorem checkIn_eq_ok {constraint : String} {allowed : List String} {s t : String} :
    checkIn constraint allowed s = .ok t ↔ s ∈ allowed ∧ s = t := by
  unfold checkIn
  by_cases h : s ∈ allowed
  · simp [h]
  · simp [h]

theorem refuseIf_eq_ok {p : Prop} [Decidable p] {e : SqlError} {u : Unit} :
    refuseIf p e = .ok u ↔ ¬p := by
  unfold refuseIf
  by_cases h : p
  · simp [h]
  · simp [h]

/-- A value shorter than its column was stored as it is. -/
theorem varchar_eq_ok {n : Nat} {s t : String} (hlen : t.length < n) :
    varchar n s = .ok t ↔ s = t := by
  unfold varchar
  by_cases hs : s.length ≤ n
  · simp [hs]
  · have hne : s ≠ t := by
      rintro rfl
      omega
    rw [if_neg hs]
    refine iff_of_false ?_ hne
    intro h
    split at h
    · rw [← Except.ok.inj h, String.length_ofList, List.length_take, String.length_toList] at hlen
      omega
    · cases h

theorem length_lt_of_sourceServices : ∀ s ∈ sourceServices, s.length < 20 := by decide

theorem length_lt_of_statuses : ∀ s ∈ statuses, s.length < 10 := by decide

theorem length_lt_of_filterDecisions : ∀ s ∈ filterDecisions, s.length < 10 := by decide

/-- `insert_event` succeeds exactly when the texts can be stored and the id
is free, and returns the row that keeps them. -/
theorem insertEvent_eq_ok {id : Int} {sourceService timestampUtc status : String}
    {row : EventRow} :
    insertEvent pg tables id sourceService timestampUtc status = .ok row ↔
      row.Keeps pg sourceService timestampUtc status ∧ row.id = id ∧ id ≤ maxId
        ∧ id ∉ tables.events.map (·.id) := by
  unfold insertEvent
  simp only [bind_eq_ok, orError_eq_ok, checkIn_eq_ok, refuseIf_eq_ok]
  constructor
  · rintro ⟨s₁, hs₁, t, ht, st₁, hst₁, -, hid, s₂, hs₂, st₂, hst₂, s₃, ⟨hs, rfl⟩, st₃,
      ⟨hst, rfl⟩, -, hfree, hrow⟩
    obtain rfl := (varchar_eq_ok (length_lt_of_sourceServices _ hs)).mp hs₂
    obtain rfl := (varchar_eq_ok (length_lt_of_statuses _ hst)).mp hst₂
    obtain rfl := Except.ok.inj hrow
    exact ⟨⟨hs₁, ht.symm, rfl, hst₁, hs, hst⟩, rfl, by omega, hfree⟩
  · rintro ⟨⟨hs₁, ht, hnotNull, hst₁, hs, hst⟩, rfl, hid, hfree⟩
    obtain ⟨t, htime⟩ := Option.isSome_iff_exists.mp hnotNull
    refine ⟨_, hs₁, t, by rw [← ht, htime], _, hst₁, (), by omega, _,
      (varchar_eq_ok (length_lt_of_sourceServices _ hs)).mpr rfl, _,
      (varchar_eq_ok (length_lt_of_statuses _ hst)).mpr rfl, _, ⟨hs, rfl⟩, _, ⟨hst, rfl⟩, (),
      hfree, ?_⟩
    rw [← htime]
    rfl

theorem insertPayload_eq_ok {eventId : Int} {rawLine filterDecision : String}
    {parsedIp rejectReason : Option String} {row : PayloadRow} :
    insertPayload pg tables eventId rawLine parsedIp filterDecision rejectReason = .ok row ↔
      row.Keeps pg rawLine parsedIp filterDecision rejectReason ∧ row.eventId = eventId
        ∧ eventId ∉ tables.payloads.map (·.eventId) ∧ eventId ∈ tables.events.map (·.id) := by
  unfold insertPayload
  simp only [bind_eq_ok, orError_eq_ok, checkIn_eq_ok, refuseIf_eq_ok, mapM_orError_eq_ok,
    not_not]
  constructor
  · rintro ⟨l₁, hl₁, ip, hip, d₁, hd₁, r, hr, d₂, hd₂, d₃, ⟨hd, rfl⟩, -, hfree, -, hkey, hrow⟩
    obtain rfl := (varchar_eq_ok (length_lt_of_filterDecisions _ hd)).mp hd₂
    obtain rfl := Except.ok.inj hrow
    exact ⟨⟨hl₁, hip, hd₁, hr, hd⟩, rfl, hfree, hkey⟩
  · rintro ⟨⟨hl₁, hip, hd₁, hr, hd⟩, rfl, hfree, hkey⟩
    exact ⟨_, hl₁, _, hip, _, hd₁, _, hr, _,
      (varchar_eq_ok (length_lt_of_filterDecisions _ hd)).mpr rfl, _, ⟨hd, rfl⟩, (), hfree, (),
      hkey, rfl⟩

end Stored

end EventHistory
