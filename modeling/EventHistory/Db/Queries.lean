import Mathlib
import EventHistory.Lib.Paging
import EventHistory.Db.Schema

/-!
# `GetEvents` and `GetStats` of `PostgresEventsRepo`

The two prepared queries over the tables, and the repository functions around
them: binding the parameters of a filter as texts, reading the result by
column position, and turning an exception into a failed `Result`.

PostgreSQL may arrange rows of equal timestamp as it likes, in each execution
anew; `getEvents` takes the arrangement of the execution as an argument, and
`Admissible` says which ones `ORDER BY e.timestamp_utc` allows.
-/

namespace EventHistory

open Sql Paging

/-! ## Parameters -/

/-- The parameters `GetEvents` appends, in order; `none` is `NULL`. -/
def filterParams (filter : Dto.EventFilter) : List (Option String) :=
  [filter.sourceService, filter.from, filter.to, filter.status.map Dto.statusToStr,
    filter.limit.map fun n => toString n.toNat, filter.offset.map fun n => toString n.toNat]

/-- The text of a number that fits `INTEGER`. -/
def int4In (s : String) : Except SqlError Int := do
  let n ← orError .invalidText s.toInt?
  refuseIf (n < -2147483648 ∨ 2147483647 < n) (.outOfRange "integer")
  return n

/-- `LIMIT COALESCE($5, 1e9)`: a `NUMERIC` that has to fit `BIGINT`. -/
def limitOf (param : Option Int) : Except SqlError Nat := do
  let n := param.getD 1000000000
  refuseIf (n < -9223372036854775808 ∨ 9223372036854775807 < n) (.outOfRange "bigint")
  refuseIf (n < 0) .negativeLimit
  return n.toNat

/-- `OFFSET GREATEST(COALESCE($6, 0), 0)`. -/
def offsetOf (param : Option Int) : Nat := (max (param.getD 0) 0).toNat

/-- `get_events` with its parameters bound. -/
structure GetEventsQuery where
  sourceService : Option String
  «from» : Option Int
  «to» : Option Int
  status : Option String
  limit : Nat
  offset : Nat

/-- Executing a prepared statement takes as many parameters as it declares. -/
def bindGetEvents (pg : Pg) (params : List (Option String)) : Except SqlError GetEventsQuery :=
  match params with
  | [p₁, p₂, p₃, p₄, p₅, p₆] => do
      let sourceService ← p₁.mapM fun s => orError .invalidText (pg.textIn s)
      let pfrom ← p₂.mapM fun s => orError .invalidTimestamp (pg.timestamptzIn s)
      let pto ← p₃.mapM fun s => orError .invalidTimestamp (pg.timestamptzIn s)
      let status ← p₄.mapM fun s => orError .invalidText (pg.textIn s)
      let limit ← p₅.mapM fun s => orError .invalidText s.toInt?
      let offset ← p₆.mapM int4In
      let limit ← limitOf limit
      return { sourceService, «from» := pfrom, «to» := pto, status, limit,
               offset := offsetOf offset }
  | _ => .error (.parameterCount params.length 6)

/-! ## Rows -/

/-- A row of `events e LEFT JOIN payloads p ON e.id = p.event_id`. -/
abbrev Joined := EventRow × Option PayloadRow

def joined (tables : Tables) : List Joined :=
  leftJoin (fun e p => e.id = p.eventId) tables.events tables.payloads

/-- The `WHERE` clause of `get_events`. -/
def GetEventsQuery.condition (q : GetEventsQuery) (e : EventRow) : Truth :=
  Sql.and (compare (· = ·) (some e.sourceService) (coalesce q.sourceService (some e.sourceService)))
    (Sql.and (compare (· ≥ ·) e.timestampUtc (coalesce q.from e.timestampUtc))
      (Sql.and (compare (· ≤ ·) e.timestampUtc (coalesce q.«to» e.timestampUtc))
        (compare (· = ·) (some e.status) (coalesce q.status (some e.status)))))

/-- The rows that satisfy the filter. -/
def GetEventsQuery.rows (q : GetEventsQuery) (tables : Tables) : List Joined :=
  (joined tables).filter fun r => holds (q.condition r.1)

/-- What `ORDER BY e.timestamp_utc` compares, `NULL` last. -/
def orderKey (r : Joined) : WithTop Int :=
  match r.1.timestampUtc with
  | some t => t
  | none => ⊤

/-- How one execution arranges the rows. -/
abbrev Arrangement := List Joined → List Joined

def Admissible (arrange : Arrangement) : Prop := ∀ rows, Arranged orderKey rows (arrange rows)

/-! ## Reading the result -/

/-- The columns of a result row, in the order of the `SELECT` list. -/
def columns (pg : Pg) (r : Joined) : List (Option String) :=
  [some (toString r.1.id), some r.1.sourceService, r.1.timestampUtc.map pg.timestamptzOut,
    some r.1.status, r.2.map (·.rawLine), r.2.bind (·.parsedIp), r.2.map (·.filterDecision),
    r.2.bind (·.rejectReason)]

/-- `enum Query` of `GetEvents`. -/
inductive Query where
  | id
  | srcSrvc
  | timestamp
  | status
  | rawLine
  | parsedIp
  | filterDes
  | rejReas

/-- `row[column]`; `none` is a null field. -/
def field (row : List (Option String)) (column : Query) : Option String :=
  (row[column.ctorIdx]?).join

/-- `.as<std::string>()`. -/
def asString : Option String → Except String String
  | some s => .ok s
  | none => .error "Attempt to convert SQL null to std::string."

/-- The loop body of `GetEvents`. -/
def decodeRow (row : List (Option String)) : Except String Dto.Event := do
  let sourceService ← asString (field row .srcSrvc)
  let timestampUtc ← asString (field row .timestamp)
  let status ← Dto.strToStatus (← asString (field row .status))
  let rawLine ← asString (field row .rawLine)
  let parsedIp := field row .parsedIp
  let filterDecision ← asString (field row .filterDes)
  let rejectReason := field row .rejReas
  return { sourceService, timestampUtc, status,
           payload := { rawLine, parsedIp, filterDecision, rejectReason } }

def decode (pg : Pg) (r : Joined) : Except String Dto.Event := decodeRow (columns pg r)

/-! ## `PostgresEventsRepo::GetEvents` and `GetStats` -/

/-- Execute `get_events` and decode the rows it returns. -/
def execGetEvents (pg : Pg) (arrange : Arrangement) (tables : Tables)
    (params : List (Option String)) : Except String (List Dto.Event) :=
  match bindGetEvents pg params with
  | .error e => .error (pg.what e)
  | .ok q => (window q.limit q.offset (arrange (q.rows tables))).mapM (decode pg)

/-- `GetEvents`: without a filter the statement is executed with no
parameter at all. -/
def getEvents (pg : Pg) (arrange : Arrangement) (tables : Tables)
    (filter : Option Dto.EventFilter) : Result (List Dto.Event) :=
  match execGetEvents pg arrange tables ((filter.map filterParams).getD []) with
  | .ok events => .ok events
  | .error what => .notOk ("[Postgres] " ++ what)

/-- `GetStats`; `COUNT(*)` is a `BIGINT` and never `NULL`. -/
def getStats (tables : Tables) : Result Dto.Stats :=
  .ok
    { eventsTotal := .ofNat tables.events.length
      eventsSuccess := .ofNat (tables.events.countP (·.status = "success"))
      eventsError := .ofNat (tables.events.countP (·.status = "error")) }

/-! ## What the filter keeps -/

/-- A row passes when every present field of the filter accepts it; a `NULL`
timestamp passes none. -/
theorem holds_condition (q : GetEventsQuery) (e : EventRow) :
    holds (q.condition e) =
      ((q.sourceService.all fun s => e.sourceService = s)
        && (e.timestampUtc.any fun t => q.from.all fun f => t ≥ f)
        && (e.timestampUtc.any fun t => q.«to».all fun u => t ≤ u)
        && q.status.all fun s => e.status = s) := by
  unfold GetEventsQuery.condition
  rw [holds_and, holds_and, holds_and, holds_compare_coalesce (by simp),
    holds_compare_coalesce (by simp), holds_compare_coalesce (by simp),
    holds_compare_coalesce (by simp)]
  simp [Bool.and_assoc]

/-- Limit and offset do not decide which rows match. -/
theorem rows_withWindow (q : GetEventsQuery) (tables : Tables) (limit offset : Nat) :
    GetEventsQuery.rows { q with limit, offset } tables = q.rows tables := rfl

/-! ## Binding a filter -/

theorem int4In_toString {n : Nat} (h : n < 2147483648) : int4In (toString n) = .ok n := by
  have hint : (toString n).toInt? = some (n : Int) := Nat.toInt?_repr n
  have hrange : ¬((n : Int) < -2147483648 ∨ 2147483647 < (n : Int)) := by omega
  simp only [int4In, bind_eq_ok, orError_eq_ok, refuseIf_eq_ok]
  exact ⟨_, hint, (), hrange, rfl⟩

theorem int4In_toString_of_le {n : Nat} (h : 2147483648 ≤ n) :
    int4In (toString n) = .error (.outOfRange "integer") := by
  have hint : (toString n).toInt? = some (n : Int) := Nat.toInt?_repr n
  have hrange : (n : Int) < -2147483648 ∨ 2147483647 < (n : Int) := by omega
  simp only [int4In, hint, orError, refuseIf, bind, Except.bind]
  rw [if_pos hrange]

theorem limitOf_nat {n : Nat} (h : n ≤ 9223372036854775807) : limitOf (some n) = .ok n := by
  have hrange : ¬((n : Int) < -9223372036854775808 ∨ 9223372036854775807 < (n : Int)) := by omega
  have hsign : ¬(n : Int) < 0 := by omega
  simp only [limitOf, Option.getD_some, bind_eq_ok, refuseIf_eq_ok]
  exact ⟨(), hrange, (), hsign, rfl⟩

/-- A filter whose texts bind still binds with a limit and an offset in
range, and selects the same rows. -/
theorem bind_window {pg : Pg} {filter : Dto.EventFilter} {q : GetEventsQuery}
    (hq : bindGetEvents pg (filterParams { filter with limit := none, offset := none }) = .ok q)
    {limit offset : Nat} (hlimit : limit < 2 ^ 32) (hoffset : offset < 2 ^ 31) :
    bindGetEvents pg (filterParams
      { filter with limit := some (.ofNat limit), offset := some (.ofNat offset) }) =
      .ok { q with limit, offset } := by
  have hl : (UInt64.ofNat limit).toNat = limit := by
    rw [UInt64.toNat_ofNat']
    omega
  have ho : (UInt64.ofNat offset).toNat = offset := by
    rw [UInt64.toNat_ofNat']
    omega
  have hlimitText : (toString limit).toInt? = some (limit : Int) := Nat.toInt?_repr limit
  simp only [bindGetEvents, filterParams, Option.map_none, Option.map_some, Option.mapM_none,
    bind_eq_ok, hl, ho] at hq ⊢
  obtain ⟨s, hs, f, hf, t, ht, st, hst, l, hl', o, ho', m, hm, hpure⟩ := hq
  refine ⟨s, hs, f, hf, t, ht, st, hst, some limit, ?_, some offset, ?_, limit,
    limitOf_nat (by omega), ?_⟩
  · rw [Option.mapM_some, hlimitText]
    rfl
  · rw [Option.mapM_some, int4In_toString (by omega)]
    rfl
  · obtain rfl := Except.ok.inj hpure
    simp [offsetOf]
    rfl

end EventHistory
