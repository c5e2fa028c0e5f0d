import EventHistory.Db.Consistency

/-!
# `GetEvents` implements its filter

What a `dto::EventFilter` asks for is said on the rows of the events table
alone (`Matches`): each present field restricts its own column, and an absent
one nothing. `getEvents_matches` compares the prepared statement with that,
over every store the schema allows and with every combination of fields: the
statement binds, the `COALESCE` conditions keep the matching rows, the join
adds one payload to each, and the columns come back in the event.

`exists_answer` reads it off for the stores of the service: there every row
has its event, so a filter that binds is answered.
-/

namespace EventHistory

open Sql Paging Transition

/-! ## Binding -/

/-- The fields of a filter that PostgreSQL can read. -/
structure Binds (pg : Pg) (filter : Dto.EventFilter) : Prop where
  sourceService : ∀ s, filter.sourceService = some s → (pg.textIn s).isSome = true
  «from» : ∀ s, filter.from = some s → (pg.timestamptzIn s).isSome = true
  «to» : ∀ s, filter.«to» = some s → (pg.timestamptzIn s).isSome = true
  limit : ∀ n, filter.limit = some n → n.toNat ≤ 9223372036854775807
  offset : ∀ n, filter.offset = some n → n.toNat < 2147483648

/-- The limit in effect. -/
def limitIn (filter : Dto.EventFilter) : Nat := (filter.limit.map (·.toNat)).getD 1000000000

/-- The offset in effect. -/
def offsetIn (filter : Dto.EventFilter) : Nat := (filter.offset.map (·.toNat)).getD 0

/-- The query of a filter that binds. -/
def boundQuery (pg : Pg) (filter : Dto.EventFilter) : GetEventsQuery where
  sourceService := filter.sourceService.bind pg.textIn
  «from» := filter.from.bind pg.timestamptzIn
  «to» := filter.«to».bind pg.timestamptzIn
  status := filter.status.map Dto.statusToStr
  limit := limitIn filter
  offset := offsetIn filter

section Binding

variable {pg : Pg} {filter : Dto.EventFilter}

/-- An offset is never negative. -/
theorem offsetIn_eq : offsetIn filter = offsetOf (filter.offset.map fun n => (n.toNat : Int)) := by
  unfold offsetIn offsetOf
  cases filter.offset with
  | none => rfl
  | some n => simp

theorem mapM_param_eq_ok {α : Type} {f : String → Option α} {e : SqlError} {o : Option String}
    {r : Option α} :
    (o.mapM fun s => orError e (f s)) = Except.ok r ↔
      (∀ s, o = some s → (f s).isSome = true) ∧ o.bind f = r := by
  rw [mapM_orError_eq_ok]
  cases o with
  | none => simp
  | some s =>
      rw [Option.mapM_some]
      cases hs : f s with
      | none => simp [hs]
      | some a => simp [hs]

/-- The text of a status arrives as it is. -/
theorem mapM_status_eq_ok (htext : KeepsText pg) {status : Option Dto.Status}
    {r : Option String} :
    ((status.map Dto.statusToStr).mapM fun s => orError .invalidText (pg.textIn s)) =
      Except.ok r ↔ status.map Dto.statusToStr = r := by
  rw [mapM_param_eq_ok]
  cases status with
  | none => simp
  | some s => simp [htext _ (nulFree_statusToStr s)]

theorem mapM_limit_eq_ok {limit : Option UInt64} {r : Option Int} :
    ((limit.map fun n => toString n.toNat).mapM fun s => orError .invalidText s.toInt?) =
      Except.ok r ↔ limit.map (fun n => (n.toNat : Int)) = r := by
  rw [mapM_param_eq_ok]
  cases limit with
  | none => simp
  | some n =>
      have hint : (toString n.toNat).toInt? = some (n.toNat : Int) := Nat.toInt?_repr n.toNat
      simp only [Option.map_some, Option.some.injEq, forall_eq', hint, Option.isSome_some,
        Option.bind_some, true_and]

theorem mapM_offset_eq_ok {offset : Option UInt64} {r : Option Int} :
    (offset.map fun n => toString n.toNat).mapM int4In = .ok r ↔
      (∀ n, offset = some n → n.toNat < 2147483648)
        ∧ offset.map (fun n => (n.toNat : Int)) = r := by
  cases offset with
  | none => simp [pure, Except.pure]
  | some n =>
      rw [Option.map_some, Option.mapM_some]
      by_cases hn : n.toNat < 2147483648
      · rw [int4In_toString hn]
        simp [Functor.map, Except.map, hn]
      · rw [int4In_toString_of_le (Nat.le_of_not_lt hn)]
        simp [Functor.map, Except.map, hn]

theorem limitOf_eq_ok {limit : Option UInt64} {m : Nat} :
    limitOf (limit.map fun n => (n.toNat : Int)) = .ok m ↔
      (∀ n, limit = some n → n.toNat ≤ 9223372036854775807)
        ∧ (limit.map (·.toNat)).getD 1000000000 = m := by
  cases limit with
  | none =>
      have hdefault : limitOf none = .ok 1000000000 := by decide
      simp [hdefault]
  | some n =>
      by_cases hn : n.toNat ≤ 9223372036854775807
      · rw [Option.map_some, limitOf_nat hn]
        simp [hn]
      · have hrange : (n.toNat : Int) < -9223372036854775808
            ∨ 9223372036854775807 < (n.toNat : Int) := by omega
        simp only [Option.map_some, limitOf, Option.getD_some, refuseIf, bind, Except.bind,
          if_pos hrange]
        simp [hn]

/-- A filter binds to its query, or not at all. -/
theorem bindGetEvents_eq_ok (htext : KeepsText pg) {q : GetEventsQuery} :
    bindGetEvents pg (filterParams filter) = .ok q ↔
      Binds pg filter ∧ boundQuery pg filter = q := by
  simp only [bindGetEvents, filterParams, bind_eq_ok]
  constructor
  · rintro ⟨s, hs, f, hf, t, ht, st, hst, l, hl, o, ho, m, hm, hpure⟩
    obtain ⟨hsource, rfl⟩ := mapM_param_eq_ok.mp hs
    obtain ⟨hfrom, rfl⟩ := mapM_param_eq_ok.mp hf
    obtain ⟨hto, rfl⟩ := mapM_param_eq_ok.mp ht
    obtain rfl := (mapM_status_eq_ok htext).mp hst
    obtain rfl := mapM_limit_eq_ok.mp hl
    obtain ⟨hoffset, rfl⟩ := mapM_offset_eq_ok.mp ho
    obtain ⟨hlimit, rfl⟩ := limitOf_eq_ok.mp hm
    refine ⟨⟨hsource, hfrom, hto, hlimit, hoffset⟩, ?_⟩
    rw [← Except.ok.inj hpure, boundQuery, offsetIn_eq]
    rfl
  · rintro ⟨⟨hsource, hfrom, hto, hlimit, hoffset⟩, rfl⟩
    refine ⟨_, mapM_param_eq_ok.mpr ⟨hsource, rfl⟩, _, mapM_param_eq_ok.mpr ⟨hfrom, rfl⟩, _,
      mapM_param_eq_ok.mpr ⟨hto, rfl⟩, _, (mapM_status_eq_ok htext).mpr rfl, _,
      mapM_limit_eq_ok.mpr rfl, _, mapM_offset_eq_ok.mpr ⟨hoffset, rfl⟩, _,
      limitOf_eq_ok.mpr ⟨hlimit, rfl⟩, ?_⟩
    rw [boundQuery, offsetIn_eq]
    rfl

end Binding

/-! ## What a filter asks for -/

/-- The row satisfies every field present in the filter. A text is compared
as it arrives; the bounds are inclusive. -/
def Matches (pg : Pg) (filter : Dto.EventFilter) (row : EventRow) : Prop :=
  (∀ s ∈ filter.sourceService, pg.textIn s = some row.sourceService)
  ∧ (∀ s ∈ filter.from, ∃ a ∈ pg.timestamptzIn s, ∃ t ∈ row.timestampUtc, a ≤ t)
  ∧ (∀ s ∈ filter.«to», ∃ b ∈ pg.timestamptzIn s, ∃ t ∈ row.timestampUtc, t ≤ b)
  ∧ ∀ s ∈ filter.status, row.status = Dto.statusToStr s

instance (pg : Pg) (filter : Dto.EventFilter) (row : EventRow) :
    Decidable (Matches pg filter row) :=
  inferInstanceAs (Decidable (_ ∧ _ ∧ _ ∧ _))

/-- The rows of the events table that a filter asks for. -/
def matching (pg : Pg) (tables : Tables) (filter : Dto.EventFilter) : List EventRow :=
  tables.events.filter fun row => Matches pg filter row

/-- In the order of their timestamps. -/
def EventRow.NotAfter (a b : EventRow) : Prop :=
  ∀ t ∈ a.timestampUtc, ∀ u ∈ b.timestampUtc, t ≤ u

/-- An event with the fields of a row and of its payload. -/
structure StoredAs (pg : Pg) (tables : Tables) (row : EventRow) (event : Dto.Event) : Prop where
  sourceService : event.sourceService = row.sourceService
  timestampUtc : row.timestampUtc.map pg.timestamptzOut = some event.timestampUtc
  status : row.status = Dto.statusToStr event.status
  payload : ∃ p ∈ tables.payloads, p.eventId = row.id ∧ event.payload =
    { rawLine := p.rawLine, parsedIp := p.parsedIp, filterDecision := p.filterDecision,
      rejectReason := p.rejectReason }

section Matching

variable {pg : Pg} {tables : Tables} {filter : Dto.EventFilter}

/-- The `WHERE` clause of a bound filter keeps the rows it asks for. -/
theorem holds_boundQuery (hbinds : Binds pg filter) {row : EventRow}
    (hnotNull : row.timestampUtc.isSome = true) :
    holds ((boundQuery pg filter).condition row) = decide (Matches pg filter row) := by
  obtain ⟨t, ht⟩ := Option.isSome_iff_exists.mp hnotNull
  rw [holds_condition, Bool.eq_iff_iff]
  simp only [Bool.and_eq_true, decide_eq_true_eq, boundQuery, ht, Option.any_some, and_assoc]
  refine and_congr ?_ (and_congr ?_ (and_congr ?_ ?_))
  · cases hs : filter.sourceService with
    | none => simp
    | some s =>
        obtain ⟨u, hu⟩ := Option.isSome_iff_exists.mp (hbinds.sourceService s hs)
        simp [hu, eq_comm]
  · cases hs : filter.from with
    | none => simp
    | some s =>
        obtain ⟨a, ha⟩ := Option.isSome_iff_exists.mp (hbinds.from s hs)
        simp [ha, ht]
  · cases hs : filter.«to» with
    | none => simp
    | some s =>
        obtain ⟨b, hb⟩ := Option.isSome_iff_exists.mp (hbinds.to s hs)
        simp [hb, ht]
  · cases filter.status with
    | none => simp
    | some status => simp

/-- The payload that the join finds for a row. -/
def payloadOf (tables : Tables) (row : EventRow) : Option PayloadRow :=
  tables.payloads.find? fun p => row.id = p.eventId

/-- A row of the events table as the join shows it. -/
def withPayload (tables : Tables) (row : EventRow) : Joined := (row, payloadOf tables row)

/-- The rows of the query are the matching ones, each with its payload. -/
theorem rows_boundQuery (hkey : (tables.payloads.map (·.eventId)).Nodup)
    (htime : ∀ row ∈ tables.events, row.timestampUtc.isSome = true) (hbinds : Binds pg filter) :
    (boundQuery pg filter).rows tables =
      (matching pg tables filter).map (withPayload tables) := by
  have hjoined : joined tables = tables.events.map (withPayload tables) :=
    leftJoin_unique hkey
  rw [GetEventsQuery.rows, hjoined, List.filter_map, matching]
  congr 1
  refine List.filter_congr ?_
  intro row hrow
  exact holds_boundQuery hbinds (htime row hrow)

theorem asString_eq_ok {field : Option String} {s : String} :
    asString field = .ok s ↔ field = some s := by
  cases field with
  | none => simp [asString]
  | some t => simp [asString]

/-- The result columns in the places of `enum Query`. -/
theorem decode_eq_ok {r : Joined} {event : Dto.Event} :
    decode pg r = .ok event ↔ ∃ t p status, r.1.timestampUtc = some t ∧ r.2 = some p
      ∧ Dto.strToStatus r.1.status = .ok status
      ∧ event =
        { sourceService := r.1.sourceService
          timestampUtc := pg.timestamptzOut t
          status
          payload :=
            { rawLine := p.rawLine
              parsedIp := p.parsedIp
              filterDecision := p.filterDecision
              rejectReason := p.rejectReason } } := by
  simp only [decode, decodeRow, bind_eq_ok, asString_eq_ok]
  constructor
  · rintro ⟨source, hsource, time, htime, st, hst, status, hstatus, line, hline, decision,
      hdecision, hevent⟩
    obtain ⟨t, ht, rfl⟩ := Option.map_eq_some_iff.mp htime
    obtain ⟨p, hp, rfl⟩ := Option.map_eq_some_iff.mp hline
    obtain rfl : r.1.sourceService = source := Option.some.inj hsource
    obtain rfl : r.1.status = st := Option.some.inj hst
    have hpayload : r.2 = some p := hp
    obtain rfl : p.filterDecision = decision := by
      have hcolumn : r.2.map (·.filterDecision) = some decision := hdecision
      rw [hpayload] at hcolumn
      exact Option.some.inj hcolumn
    refine ⟨t, p, status, ht, hpayload, hstatus, ?_⟩
    rw [← Except.ok.inj hevent]
    simp [field, columns, Query.ctorIdx, hpayload]
  · rintro ⟨t, p, status, ht, hp, hstatus, rfl⟩
    refine ⟨_, rfl, pg.timestamptzOut t, ?_, _, rfl, status, hstatus, p.rawLine, ?_,
      p.filterDecision, ?_, ?_⟩
    · simp [field, columns, Query.ctorIdx, ht]
    · simp [field, columns, Query.ctorIdx, hp]
    · simp [field, columns, Query.ctorIdx, hp]
    · simp [field, columns, Query.ctorIdx, hp, pure, Except.pure]

/-- A row decodes to the event it is stored for, given its payload. -/
theorem decode_withPayload (hkey : (tables.payloads.map (·.eventId)).Nodup) {row : EventRow}
    {event : Dto.Event} :
    decode pg (withPayload tables row) = .ok event ↔ StoredAs pg tables row event := by
  have hfind : ∀ p, payloadOf tables row = some p ↔ p ∈ tables.payloads ∧ p.eventId = row.id := by
    intro p
    unfold payloadOf
    constructor
    · intro h
      exact ⟨List.mem_of_find?_eq_some h, by simpa [eq_comm] using List.find?_some h⟩
    · rintro ⟨hp, hid⟩
      rw [← List.head?_filter, ← hid, filter_eq_of_nodup hkey hp]
      rfl
  simp only [decode_eq_ok, withPayload, Dto.strToStatus_eq_ok, hfind]
  constructor
  · rintro ⟨t, p, status, ht, ⟨hp, hid⟩, hstatus, rfl⟩
    exact ⟨rfl, by rw [ht]; rfl, hstatus, p, hp, hid, rfl⟩
  · rintro ⟨hsource, htime, hstatus, p, hp, hid, hpayload⟩
    obtain ⟨t, ht, htime⟩ := Option.map_eq_some_iff.mp htime
    refine ⟨t, p, event.status, ht, ⟨hp, hid⟩, hstatus, ?_⟩
    rw [← hpayload, ← hsource, htime]

theorem mapM_eq_ok {α β ε : Type} {f : α → Except ε β} {l : List α} {r : List β} :
    l.mapM f = .ok r ↔ List.Forall₂ (fun a b => f a = .ok b) l r := by
  induction l generalizing r with
  | nil =>
      rw [List.mapM_nil, List.forall₂_nil_left_iff]
      exact ⟨fun h => (Except.ok.inj h).symm, fun h => h ▸ rfl⟩
  | cons a l ih =>
      rw [List.mapM_cons, List.forall₂_cons_left_iff]
      simp only [bind_eq_ok, ih]
      constructor
      · rintro ⟨b, hb, bs, hbs, hr⟩
        exact ⟨b, bs, hb, hbs, (Except.ok.inj hr).symm⟩
      · rintro ⟨b, bs, hb, hbs, rfl⟩
        exact ⟨b, hb, bs, hbs, rfl⟩

theorem getEvents_eq_ok {arrange : Arrangement} {events : List Dto.Event} :
    getEvents pg arrange tables (some filter) = .ok events ↔
      ∃ q, bindGetEvents pg (filterParams filter) = .ok q
        ∧ (window q.limit q.offset (arrange (q.rows tables))).mapM (decode pg) = .ok events := by
  unfold getEvents execGetEvents
  rw [Option.map_some, Option.getD_some]
  cases hbind : bindGetEvents pg (filterParams filter) with
  | error e => simp [Result.ok, Result.notOk]
  | ok q =>
      simp only [Except.ok.injEq, exists_eq_left']
      cases (window q.limit q.offset (arrange (q.rows tables))).mapM (decode pg) with
      | error what => simp [Result.ok, Result.notOk]
      | ok es => simp [Result.ok]

/-- The rows of a filter as one execution arranges them. -/
theorem exists_arranged (pg : Pg) (filter : Dto.EventFilter) {arrange : Arrangement}
    (harr : Admissible arrange) :
    ∃ rows : List EventRow,
      arrange ((matching pg tables filter).map (withPayload tables)) = rows.map (withPayload tables)
      ∧ rows.Perm (matching pg tables filter) ∧ rows.Pairwise EventRow.NotAfter := by
  obtain ⟨rows, hrows, harranged⟩ := (harr _).exists_map
    (f := withPayload tables) (g := Prod.fst) (fun _ => rfl) (l := matching pg tables filter)
  refine ⟨rows, hrows, harranged.perm, harranged.sorted.imp ?_⟩
  intro a b hab t ht u hu
  simp only [Function.comp, withPayload, orderKey, Option.mem_def.mp ht,
    Option.mem_def.mp hu] at hab
  exact WithTop.coe_le_coe.mp hab

/-- `GetEvents` with a filter: nothing unless it binds, and then its page of
the sorted rows, if each of them has an event. -/
theorem getEvents_page (filter : Dto.EventFilter) (htext : KeepsText pg)
    (hkey : (tables.payloads.map (·.eventId)).Nodup)
    (htime : ∀ row ∈ tables.events, row.timestampUtc.isSome = true)
    {arrange : Arrangement} (harr : Admissible arrange) :
    ∃ rows : List EventRow,
      rows.Perm (matching pg tables filter) ∧ rows.Pairwise EventRow.NotAfter
      ∧ ∀ events, getEvents pg arrange tables (some filter) = .ok events ↔
          Binds pg filter ∧ List.Forall₂ (StoredAs pg tables)
            ((rows.drop (offsetIn filter)).take (limitIn filter)) events := by
  obtain ⟨rows, hrows, hperm, hsorted⟩ := exists_arranged pg filter harr
  refine ⟨rows, hperm, hsorted, ?_⟩
  intro events
  simp only [getEvents_eq_ok, bindGetEvents_eq_ok htext, and_assoc, exists_and_left,
    exists_eq_left']
  refine and_congr_right ?_
  intro hbinds
  have hwindow : window (limitIn filter) (offsetIn filter) (rows.map (withPayload tables)) =
      ((rows.drop (offsetIn filter)).take (limitIn filter)).map (withPayload tables) := by
    rw [window, List.map_take, List.map_drop]
  rw [rows_boundQuery hkey htime hbinds, hrows, boundQuery, hwindow, mapM_eq_ok,
    List.forall₂_map_left_iff]
  simp only [decode_withPayload hkey]

/-- **`GetEvents` implements its filter.** Over every store whose payloads
have their primary key and whose events have a timestamp, and for every
filter whose bounds parse and whose limit and offset fit `INTEGER`: the rows
that satisfy all present fields, sorted by timestamp, cut at the offset and
the limit, row by row in the events returned. Nothing is returned if
`source_service` is no text to PostgreSQL or a row of the page has no event. -/
theorem getEvents_matches (htext : KeepsText pg)
    (hkey : (tables.payloads.map (·.eventId)).Nodup)
    (htime : ∀ row ∈ tables.events, row.timestampUtc.isSome = true)
    (hfrom : ∀ s, filter.from = some s → (pg.timestamptzIn s).isSome = true)
    (hto : ∀ s, filter.«to» = some s → (pg.timestamptzIn s).isSome = true)
    (hlimit : ∀ n, filter.limit = some n → n.toNat < 2 ^ 31)
    (hoffset : ∀ n, filter.offset = some n → n.toNat < 2 ^ 31)
    {arrange : Arrangement} (harr : Admissible arrange) :
    ∃ rows : List EventRow,
      rows.Perm (matching pg tables filter) ∧ rows.Pairwise EventRow.NotAfter
      ∧ ∀ events, getEvents pg arrange tables (some filter) = .ok events ↔
          (∀ s, filter.sourceService = some s → (pg.textIn s).isSome = true)
          ∧ List.Forall₂ (StoredAs pg tables)
              ((rows.drop (offsetIn filter)).take (limitIn filter)) events := by
  obtain ⟨rows, hperm, hsorted, hpage⟩ := getEvents_page filter htext hkey htime harr
  refine ⟨rows, hperm, hsorted, ?_⟩
  intro events
  rw [hpage]
  refine and_congr_left' ?_
  refine ⟨fun h => h.sourceService, fun h => ⟨h, hfrom, hto, ?_, hoffset⟩⟩
  intro n hn
  have hsmall := hlimit n hn
  omega

end Matching

/-- A filter with all its fields, for the second of two events. -/
def sampleFilter : Dto.EventFilter :=
  { sourceService := some "ipv4_filter", status := some .success, limit := some 1
    «from» := some "2026-07-08 00:00:00+00", «to» := some "2026-07-09 00:00:00+00"
    offset := some 1 }

theorem getEvents_matches_sample :
    ∃ rows : List EventRow,
      rows.Perm sampleTables.events ∧ rows.Pairwise EventRow.NotAfter
      ∧ ∀ events, getEvents samplePg (Sql.arrange orderKey) sampleTables (some sampleFilter) =
          .ok events →
        List.Forall₂ (StoredAs samplePg sampleTables) ((rows.drop 1).take 1) events := by
  have hone : ∀ n : UInt64, some 1 = some n → n.toNat < 2 ^ 31 := by
    intro n hn
    rw [← Option.some.inj hn]
    decide
  obtain ⟨rows, hperm, hsorted, hpage⟩ := @getEvents_matches samplePg sampleTables
    sampleFilter (fun _ _ => rfl) (by decide) (by decide) (fun _ _ => rfl) (fun _ _ => rfl) hone
    hone _ (arranged_arrange orderKey)
  exact ⟨rows, hperm, hsorted, fun events h => ((hpage events).mp h).2⟩

/-! ## Stores of the service -/

theorem exists_forall₂ {α β : Type} {R : α → β → Prop} {l : List α} (h : ∀ a ∈ l, ∃ b, R a b) :
    ∃ r, List.Forall₂ R l r := by
  induction l with
  | nil => exact ⟨[], .nil⟩
  | cons a l ih =>
      obtain ⟨b, hb⟩ := h a List.mem_cons_self
      obtain ⟨r, hr⟩ := ih fun a' ha' => h a' (List.mem_cons_of_mem a ha')
      exact ⟨b :: r, .cons hb hr⟩

section Reachable

variable {ι : Type} {pg : Pg} {tables : Tables} {filter : Dto.EventFilter}
  {r : Repo ι} {out : List (ι × Finished)}

/-- A row of a saved event. -/
theorem Tables.Holds.row {events : List Dto.Event} (h : tables.Holds pg events) {row : EventRow}
    (hrow : row ∈ tables.events) :
    row.timestampUtc.isSome = true ∧ row.status ∈ statuses
      ∧ ∃ event, StoredAs pg tables row event := by
  obtain ⟨pairs, rfl, hkeeps⟩ := h
  obtain ⟨p, hp, rfl⟩ := List.mem_map.mp hrow
  obtain ⟨e, he⟩ := exists_keeps hkeeps hp
  obtain ⟨t, ht⟩ := Option.isSome_iff_exists.mp he.event.notNull
  obtain ⟨status, -, hstatus⟩ := exists_status he.event.checkStatus
  refine ⟨he.event.notNull, he.event.checkStatus,
    { sourceService := p.1.sourceService, timestampUtc := pg.timestamptzOut t, status
      payload :=
        { rawLine := p.2.rawLine, parsedIp := p.2.parsedIp
          filterDecision := p.2.filterDecision, rejectReason := p.2.rejectReason } }, ?_⟩
  exact ⟨rfl, by rw [ht]; rfl, hstatus, p.2, List.mem_map_of_mem hp, he.key.symm, rfl⟩

theorem data_eq_some {arrange : Arrangement} {param : Option Dto.EventFilter}
    {events : List Dto.Event} :
    (getEvents pg arrange tables param).data = some events ↔
      getEvents pg arrange tables param = .ok events := by
  unfold getEvents
  split
  · simp [Result.ok]
  · simp [Result.ok, Result.notOk]

/-- What a bound filter returns from such a store. -/
theorem exists_answer (htext : KeepsText pg) (hr : r.Inv pg out) (hbinds : Binds pg filter)
    {arrange : Arrangement} (harr : Admissible arrange) :
    ∃ events, getEvents pg arrange r.db.tables (some filter) = .ok events
      ∧ events.length =
          min (limitIn filter) ((matching pg r.db.tables filter).length - offsetIn filter) := by
  have hkey : (r.db.tables.payloads.map (·.eventId)).Nodup := by
    rw [hr.stored.keys]
    exact hr.distinct.committed
  obtain ⟨rows, hperm, -, hpage⟩ := getEvents_page filter htext hkey
    (fun row hrow => (hr.stored.row hrow).1) harr
  have hstored : ∀ row ∈ (rows.drop (offsetIn filter)).take (limitIn filter),
      ∃ event, StoredAs pg r.db.tables row event := by
    intro row hrow
    have hmem := hperm.mem_iff.mp (List.mem_of_mem_drop (List.mem_of_mem_take hrow))
    exact (hr.stored.row (List.mem_filter.mp hmem).1).2.2
  obtain ⟨events, hevents⟩ := exists_forall₂ hstored
  refine ⟨events, (hpage events).mpr ⟨hbinds, hevents⟩, ?_⟩
  rw [← hevents.length_eq, List.length_take, List.length_drop, hperm.length_eq]

theorem no_answer (htext : KeepsText pg) (hbinds : ¬Binds pg filter) {arrange : Arrangement} :
    (getEvents pg arrange tables (some filter)).data = none := by
  rw [Option.eq_none_iff_forall_ne_some]
  intro events hdata
  obtain ⟨q, hq, -⟩ := getEvents_eq_ok.mp (data_eq_some.mp hdata)
  exact hbinds ((bindGetEvents_eq_ok htext).mp hq).1

end Reachable

end EventHistory
