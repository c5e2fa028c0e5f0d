import EventHistory.Db.Pagination
import EventHistory.Db.SaveEvents

/-!
# The two tables stay in step

The invariant of all runs of `SaveEvents`: the tables are a list of pairs of
rows, one pair for each event of the calls that returned success, and both
rows of a pair keep their event. A transaction is such a list too, but for
the events row that waits for its payload between the two inserts.

The queries are read off it: the join of the tables is the list of pairs, so
`GetEvents` decodes every row, and `GetStats` counts what `GetEvents` returns.
-/

namespace EventHistory

open Sql Paging Transition Serial

/-! ## Pairs of rows -/

/-- The two rows keep an event. -/
structure Keeps (pg : Pg) (p : EventRow × PayloadRow) (e : Dto.Event) : Prop where
  event : p.1.Keeps pg e.sourceService e.timestampUtc (Dto.statusToStr e.status)
  payload : p.2.Keeps pg e.payload.rawLine e.payload.parsedIp e.payload.filterDecision
    e.payload.rejectReason
  key : p.1.id = p.2.eventId

namespace Tables

def ofPairs (pairs : List (EventRow × PayloadRow)) : Tables where
  events := pairs.map (·.1)
  payloads := pairs.map (·.2)

/-- The tables hold these events, in order. -/
def Holds (pg : Pg) (t : Tables) (events : List Dto.Event) : Prop :=
  ∃ pairs, t = ofPairs pairs ∧ List.Forall₂ (Keeps pg) pairs events

def ids (t : Tables) : List Int := t.events.map (·.id)

variable {pg : Pg} {t u : Tables} {events events' : List Dto.Event}

theorem holds_nil : Holds pg {} [] := ⟨[], rfl, .nil⟩

theorem Holds.append (ht : t.Holds pg events) (hu : u.Holds pg events') :
    (t.append u).Holds pg (events ++ events') := by
  obtain ⟨ps, rfl, hps⟩ := ht
  obtain ⟨qs, rfl, hqs⟩ := hu
  refine ⟨ps ++ qs, ?_, List.rel_append hps hqs⟩
  simp [ofPairs, append]

theorem holds_singleton {p : EventRow × PayloadRow} {e : Dto.Event} (h : Keeps pg p e) :
    Holds pg { events := [p.1], payloads := [p.2] } [e] :=
  ⟨[p], rfl, .cons h .nil⟩

/-- The rows of these events have come behind those of `t`. -/
def Gained (pg : Pg) (t t' : Tables) (events : List Dto.Event) : Prop :=
  ∃ rows, t' = t.append rows ∧ rows.Holds pg events

theorem Gained.refl : Gained pg t t [] := ⟨{}, (append_empty t).symm, holds_nil⟩

theorem gained_append {t' : Tables} :
    Gained pg t t' (events ++ events') ↔
      ∃ t₁, Gained pg t t₁ events ∧ Gained pg t₁ t' events' := by
  constructor
  · rintro ⟨rows, rfl, pairs, rfl, hkeeps⟩
    have htake := List.forall₂_take_append pairs events events' hkeeps
    have hdrop := List.forall₂_drop_append pairs events events' hkeeps
    refine ⟨_, ⟨_, rfl, _, rfl, htake⟩, _, ?_, _, rfl, hdrop⟩
    rw [append_assoc]
    simp [append, ofPairs]
  · rintro ⟨t₁, ⟨rows, rfl, hrows⟩, rows', rfl, hrows'⟩
    exact ⟨rows.append rows', append_assoc .., hrows.append hrows'⟩

end Tables

/-! ## The invariant -/

/-- The rows of a transaction, by program point. -/
def SaveCall.Inv (pg : Pg) (c : SaveCall) : Prop :=
  match c.pc with
  | .loop rest => ∃ done, c.events = done ++ rest ∧ c.work.Holds pg done
  | .payload eventId event rest => ∃ done row t,
      c.events = done ++ event :: rest ∧ Tables.Holds pg t done
        ∧ c.work = { t with events := t.events ++ [row] } ∧ row.id = eventId
        ∧ row.Keeps pg event.sourceService event.timestampUtc (Dto.statusToStr event.status)
  | _ => c.work = {}

/-- Who has which id. -/
def Repo.keys {ι : Type} (r : Repo ι) : Keys ι Int where
  committed := r.db.tables.ids
  pending i := (r.calls i).work.ids
  drawn := r.db.drawn

structure Repo.Inv {ι : Type} (pg : Pg) (r : Repo ι) (out : List (ι × Finished)) : Prop where
  stored : r.db.tables.Holds pg (savedEvents (out.map (·.2)))
  calls : ∀ i, (r.calls i).Inv pg
  distinct : Distinct r.keys

/-! ### Steps -/

section Step

variable {pg : Pg} {db db' : Db} {c c' : SaveCall} {input : SaveInput}

theorem SaveCall.inv_fail (what : String) : (c.fail what).Inv pg := rfl

/-- A transaction keeps what it has handled so far. -/
theorem SaveCall.inv_step (hc : c.Inv pg) (h : Step pg db c input db' c') : c'.Inv pg := by
  unfold Inv at hc
  cases h with
  | call events hpc => exact rfl
  | nothing hpc hempty =>
      rw [hpc] at hc
      exact hc
  | acquire hpc hne =>
      rw [hpc] at hc
      exact ⟨[], rfl, hc ▸ Tables.holds_nil⟩
  | acquireThrows what hpc =>
      rw [hpc] at hc
      exact hc
  | @insertEvent event rest id row hpc hnew hrow =>
      rw [hpc] at hc
      obtain ⟨done, hevents, hwork⟩ := hc
      exact ⟨done, row, c.work, hevents, hwork, rfl, rfl, (insertEvent_eq_ok.mp hrow).1⟩
  | eventRefused id what hpc => exact inv_fail what
  | @insertPayload eventId event rest row hpc hrow =>
      rw [hpc] at hc
      obtain ⟨done, erow, t, hevents, ht, hwork, hid, hkeeps⟩ := hc
      obtain ⟨hpayload, hkey, -, -⟩ := insertPayload_eq_ok.mp hrow
      refine ⟨done ++ [event], by rw [hevents, List.append_assoc]; rfl, ?_⟩
      have hpair : Keeps pg (erow, row) event := ⟨hkeeps, hpayload, hid.trans hkey.symm⟩
      rw [hwork]
      exact ht.append (Tables.holds_singleton hpair)
  | payloadRefused what hpc => exact inv_fail what
  | commit hpc => exact rfl
  | failed what hpc => exact inv_fail what
  | leave hpc => exact rfl

/-- A call that fails saves nothing. -/
theorem SaveCall.finished_fail (hpc : ∀ result, c.pc ≠ .returned result) (what : String) :
    savedEvents (c.finished (c.fail what)) = [] := by
  cases h : c.pc with
  | returned result => exact absurd h (hpc result)
  | _ =>
      rw [finished, h]
      rfl

/-- Only a commit changes the tables, and then by the events of its call. -/
theorem SaveCall.gained_step (hc : c.Inv pg) (h : Step pg db c input db' c') :
    Tables.Gained pg db.tables db'.tables (savedEvents (c.finished c')) := by
  have hquiet : db'.tables = db.tables → savedEvents (c.finished c') = [] →
      Tables.Gained pg db.tables db'.tables (savedEvents (c.finished c')) := by
    intro htables hnone
    rw [htables, hnone]
    exact .refl
  cases h with
  | call events hpc => exact hquiet rfl (by rw [finished, hpc]; rfl)
  | nothing hpc hempty =>
      refine hquiet rfl ?_
      rw [finished, hpc, hempty]
      rfl
  | acquire hpc hne => exact hquiet rfl (by rw [finished, hpc]; rfl)
  | acquireThrows what hpc => exact hquiet rfl (by rw [finished, hpc]; rfl)
  | insertEvent hpc hnew hrow => exact hquiet rfl (by rw [finished, hpc]; rfl)
  | eventRefused id what hpc => exact hquiet rfl (finished_fail (by simp [hpc]) what)
  | insertPayload hpc hrow => exact hquiet rfl (by rw [finished, hpc]; rfl)
  | payloadRefused what hpc => exact hquiet rfl (finished_fail (by simp [hpc]) what)
  | commit hpc =>
      unfold Inv at hc
      rw [hpc] at hc
      obtain ⟨done, hevents, hwork⟩ := hc
      rw [List.append_nil] at hevents
      have hsaved : savedEvents (c.finished { c with pc := .returned .ok, work := {} }) =
          done := by
        rw [finished, hpc, ← hevents]
        exact List.append_nil _
      rw [hsaved]
      exact ⟨c.work, rfl, hwork⟩
  | failed what hpc =>
      refine hquiet rfl (finished_fail ?_ what)
      intro result
      rcases hpc with ⟨rest, hpc⟩ | ⟨eventId, event, rest, hpc⟩
      · simp [hpc]
      · simp [hpc]
  | leave hpc =>
      refine hquiet rfl ?_
      rcases hpc with ⟨result, hpc⟩ | ⟨what, hpc⟩
      · rw [finished, hpc]
        rfl
      · rw [finished, hpc]
        rfl

end Step

section Run

variable {ι : Type} [DecidableEq ι] {pg : Pg} {r r' : Repo ι} {out o : List (ι × Finished)}
  {i : ι}

theorem Repo.keys_update (r : Repo ι) (i : ι) (db : Db) (c : SaveCall) :
    Repo.keys { db, calls := Function.update r.calls i c } =
      { committed := db.tables.ids
        pending := Function.update r.keys.pending i c.work.ids
        drawn := db.drawn } := by
  unfold keys
  congr 1
  funext j
  exact Function.apply_update (fun _ c => c.work.ids) r.calls i c j

/-- A thread that keeps the ids of its transaction. -/
theorem Repo.keys_same {c : SaveCall} (hwork : c.work.ids = (r.calls i).work.ids) :
    Repo.keys { db := r.db, calls := Function.update r.calls i c } = r.keys := by
  rw [keys_update, hwork]
  have hself : Function.update r.keys.pending i (r.calls i).work.ids = r.keys.pending :=
    Function.update_eq_self i r.keys.pending
  rw [hself]
  rfl

/-- The ids of the events rows: each step draws one, commits or rolls back
those of its transaction, or leaves them alone. -/
theorem Repo.Inv.distinct_step {input : SaveInput} {db' : Db} {c' : SaveCall}
    (hr : r.Inv pg out) (h : SaveCall.Step pg r.db (r.calls i) input db' c') :
    Distinct (Repo.keys { db := db', calls := Function.update r.calls i c' }) := by
  have hc := hr.calls i
  have hd := hr.distinct
  have hsame : ∀ c, c.work.ids = (r.calls i).work.ids →
      Distinct (Repo.keys { db := r.db, calls := Function.update r.calls i c }) := by
    intro c hwork
    rw [keys_same hwork]
    exact hd
  have hfail : ∀ what, Distinct (Repo.keys
      { db := r.db, calls := Function.update r.calls i ((r.calls i).fail what) }) := by
    intro what
    rw [keys_update]
    exact hd.rollback
  unfold SaveCall.Inv at hc
  cases h with
  | call events hpc =>
      rw [hpc] at hc
      exact hsame _ (by rw [hc])
  | nothing hpc hempty => exact hsame _ rfl
  | acquire hpc hne => exact hsame _ rfl
  | acquireThrows what hpc => exact hsame _ rfl
  | @insertEvent event rest id row hpc hnew hrow =>
      obtain ⟨-, hid, -, -⟩ := insertEvent_eq_ok.mp hrow
      have hdraw := hd.draw (i := i) hnew
      rw [keys_update]
      have hids : Tables.ids { (r.calls i).work with events := (r.calls i).work.events ++ [row] } =
          r.keys.pending i ++ [id] := by
        rw [← hid]
        exact List.map_append
      rw [hids]
      exact hdraw
  | eventRefused id what hpc =>
      rw [keys_update]
      exact (hd.skip id).rollback
  | insertPayload hpc hrow => exact hsame _ rfl
  | payloadRefused what hpc => exact hfail what
  | commit hpc =>
      rw [keys_update]
      have hids : (r.db.tables.append (r.calls i).work).ids =
          r.keys.committed ++ r.keys.pending i := List.map_append
      rw [hids]
      exact hd.commit
  | failed what hpc => exact hfail what
  | leave hpc =>
      rw [keys_update]
      exact hd.rollback

/-- What a step adds to the tables is what it reports. -/
theorem Repo.Inv.gained_step (hr : r.Inv pg out) (h : (machine ι pg).step r o r') :
    Tables.Gained pg r.db.tables r'.db.tables (savedEvents (o.map (·.2))) := by
  obtain ⟨i, input, db', c', hs, rfl, rfl⟩ := step_cases h
  have hout : (((r.calls i).finished c').map fun f => (i, f)).map (·.2) =
      (r.calls i).finished c' := by
    simp
  rw [hout]
  exact SaveCall.gained_step (hr.calls i) hs

theorem Repo.Inv.step (hr : r.Inv pg out) (h : (machine ι pg).step r o r') :
    r'.Inv pg (out ++ o) := by
  refine ⟨?_, ?_, ?_⟩
  · obtain ⟨rows, htables, hrows⟩ := hr.gained_step h
    rw [htables, List.map_append, savedEvents_append]
    exact hr.stored.append hrows
  · obtain ⟨i, input, db', c', hs, rfl, rfl⟩ := step_cases h
    intro j
    by_cases hj : j = i
    · subst hj
      simp only [Function.update_self]
      exact SaveCall.inv_step (hr.calls j) hs
    · simp only [Function.update_of_ne hj]
      exact hr.calls j
  · obtain ⟨i, input, db', c', hs, rfl, rfl⟩ := step_cases h
    exact hr.distinct_step hs

theorem Repo.inv_run (h : (machine ι pg).Run r out) : r.Inv pg out := by
  refine h.invariant (I := fun r out => r.Inv pg out) ?_ ?_
  · rintro r rfl
    exact ⟨Tables.holds_nil, fun _ => rfl, Distinct.initial⟩
  · intro r out o r' hr hs
    exact hr.step hs

end Run

/-! ## Reading the tables -/

/-- Text without a NUL byte. -/
def NulFree (s : String) : Prop := Char.ofNat 0 ∉ s.toList

instance (s : String) : Decidable (NulFree s) := inferInstanceAs (Decidable (_ ∉ _))

/-- Text without a NUL byte is stored as it is. -/
def KeepsText (pg : Pg) : Prop := ∀ s, NulFree s → pg.textIn s = some s

theorem nulFree_statusToStr (status : Dto.Status) : NulFree (Dto.statusToStr status) := by
  cases status <;> decide

/-- `GetEvents` succeeds and returns `n` events, however it arranges them. -/
def Reads (pg : Pg) (tables : Tables) (filter : Dto.EventFilter) (n : Nat) : Prop :=
  ∀ arrange, Admissible arrange →
    ∃ events, getEvents pg arrange tables (some filter) = .ok events ∧ events.length = n

section Read

variable {pg : Pg} {pairs : List (EventRow × PayloadRow)} {events : List Dto.Event}

/-- One row of the join. -/
def pairRow (p : EventRow × PayloadRow) : Joined := (p.1, some p.2)

theorem exists_keeps {p : EventRow × PayloadRow} (h : List.Forall₂ (Keeps pg) pairs events)
    (hp : p ∈ pairs) : ∃ e, Keeps pg p e := by
  induction h with
  | nil => cases hp
  | cons hkeeps _ ih =>
      rcases List.mem_cons.mp hp with rfl | hp
      · exact ⟨_, hkeeps⟩
      · exact ih hp

/-- A list of pairs has the same keys in both tables. -/
theorem Tables.Holds.keys {t : Tables} (h : t.Holds pg events) :
    t.payloads.map (·.eventId) = t.ids := by
  obtain ⟨pairs, rfl, hkeeps⟩ := h
  simp only [Tables.ids, Tables.ofPairs, List.map_map]
  refine List.map_congr_left ?_
  intro p hp
  obtain ⟨e, he⟩ := exists_keeps hkeeps hp
  exact he.key.symm

/-- Tables that hold events join pair by pair. -/
theorem joined_ofPairs (h : List.Forall₂ (Keeps pg) pairs events)
    (hnodup : (Tables.ofPairs pairs).ids.Nodup) :
    joined (.ofPairs pairs) = pairs.map pairRow := by
  refine leftJoin_pairs ?_ ?_
  · intro p hp
    obtain ⟨e, he⟩ := exists_keeps h hp
    exact he.key
  · rwa [Tables.ids, Tables.ofPairs, List.map_map] at hnodup

/-- A status that passes the check is the text of one of two statuses. -/
theorem exists_status {s : String} (h : s ∈ statuses) :
    ∃ status, status ≠ .unspecified ∧ s = Dto.statusToStr status := by
  rcases List.mem_cons.mp h with rfl | h
  · exact ⟨.success, Dto.Status.noConfusion, rfl⟩
  · exact ⟨.error, Dto.Status.noConfusion, List.mem_singleton.mp h⟩

/-- Both rows of an event decode: no column that is read is `NULL`. -/
theorem decode_pairRow {p : EventRow × PayloadRow} {t : Int} {status : Dto.Status}
    (ht : p.1.timestampUtc = some t) (hstatus : p.1.status = Dto.statusToStr status) :
    decode pg (pairRow p) = .ok
      { sourceService := p.1.sourceService
        timestampUtc := pg.timestamptzOut t
        status
        payload :=
          { rawLine := p.2.rawLine
            parsedIp := p.2.parsedIp
            filterDecision := p.2.filterDecision
            rejectReason := p.2.rejectReason } } := by
  have hdecode : Dto.strToStatus p.1.status = .ok status := by
    rw [hstatus, Dto.strToStatus_statusToStr]
  have hcolumns : columns pg (pairRow p) =
      [some (toString p.1.id), some p.1.sourceService, some (pg.timestamptzOut t),
        some p.1.status, some p.2.rawLine, p.2.parsedIp, some p.2.filterDecision,
        p.2.rejectReason] := by
    simp only [columns, pairRow, ht, Option.map_some, Option.bind_some]
  rw [decode, hcolumns]
  simp only [decodeRow, field, asString, Query.ctorIdx]
  simp [hdecode, bind, Except.bind, pure, Except.pure]

theorem isOk_decode {p : EventRow × PayloadRow} (h : List.Forall₂ (Keeps pg) pairs events)
    (hp : p ∈ pairs) : (decode pg (pairRow p)).isOk = true := by
  obtain ⟨e, he⟩ := exists_keeps h hp
  obtain ⟨t, ht⟩ := Option.isSome_iff_exists.mp he.event.notNull
  obtain ⟨status, -, hstatus⟩ := exists_status he.event.checkStatus
  rw [decode_pairRow ht hstatus]
  rfl

/-- The filter on the status alone. -/
def statusFilter (status : Option Dto.Status) : Dto.EventFilter := { status }

/-- Its rows: an open timestamp condition drops only a `NULL`, and no row has
one. -/
theorem rows_status {q : GetEventsQuery} (h : List.Forall₂ (Keeps pg) pairs events)
    (hnodup : (Tables.ofPairs pairs).ids.Nodup) (hsource : q.sourceService = none)
    (hfrom : q.from = none) (hto : q.«to» = none) :
    q.rows (.ofPairs pairs) =
      (pairs.filter fun p => q.status.all fun s => p.1.status = s).map pairRow := by
  unfold GetEventsQuery.rows
  rw [joined_ofPairs h hnodup, List.filter_map]
  congr 1
  refine List.filter_congr ?_
  intro p hp
  obtain ⟨e, he⟩ := exists_keeps h hp
  obtain ⟨t, ht⟩ := Option.isSome_iff_exists.mp he.event.notNull
  simp only [Function.comp, pairRow, holds_condition, hsource, hfrom, hto, ht]
  simp

/-- The rows of a store that a status filter keeps. -/
def statusRows (pairs : List (EventRow × PayloadRow)) (status : Option Dto.Status) :
    List Joined :=
  (pairs.filter fun p => status.all fun s => p.1.status = Dto.statusToStr s).map pairRow

/-- `GetEvents` with such a filter returns all its rows, decoded. -/
theorem getEvents_status (htext : KeepsText pg) (h : List.Forall₂ (Keeps pg) pairs events)
    (hnodup : (Tables.ofPairs pairs).ids.Nodup) (hlen : pairs.length ≤ 1000000000)
    {arrange : Arrangement} (harr : Admissible arrange) (status : Option Dto.Status) :
    getEvents pg arrange (.ofPairs pairs) (some (statusFilter status)) =
      .ok ((arrange (statusRows pairs status)).map (eventOf pg)) := by
  let q : GetEventsQuery := ⟨none, none, none, status.map Dto.statusToStr, 1000000000, 0⟩
  have hbind : bindGetEvents pg (filterParams (statusFilter status)) = .ok q := by
    cases status with
    | none => rfl
    | some s =>
        have hs : pg.textIn (Dto.statusToStr s) = some (Dto.statusToStr s) :=
          htext _ (nulFree_statusToStr s)
        simp only [bindGetEvents, filterParams, statusFilter, Option.map_some, Option.map_none,
          Option.mapM_some, Option.mapM_none, hs]
        rfl
  have hrows : q.rows (.ofPairs pairs) = statusRows pairs status := by
    rw [rows_status h hnodup rfl rfl rfl]
    simp only [q, statusRows, Option.all_map]
  have hperm := (harr (statusRows pairs status)).perm
  have hwindow : window q.limit q.offset (arrange (statusRows pairs status)) =
      arrange (statusRows pairs status) := by
    refine List.take_of_length_le ?_
    rw [List.drop_zero, hperm.length_eq, statusRows, List.length_map]
    exact (List.length_filter_le _ _).trans hlen
  have hok : ∀ r ∈ arrange (statusRows pairs status), (decode pg r).isOk = true := by
    intro r hr
    obtain ⟨p, hp, rfl⟩ := List.mem_map.mp (hperm.mem_iff.mp hr)
    exact isOk_decode h (List.mem_filter.mp hp).1
  simp only [getEvents, execGetEvents, Option.map_some, Option.getD_some, hbind, hrows, hwindow,
    mapM_decode hok]

theorem reads_status (htext : KeepsText pg) (h : List.Forall₂ (Keeps pg) pairs events)
    (hnodup : (Tables.ofPairs pairs).ids.Nodup) (hlen : pairs.length ≤ 1000000000)
    (status : Option Dto.Status) :
    Reads pg (.ofPairs pairs) (statusFilter status)
      (pairs.countP fun p => status.all fun s => p.1.status = Dto.statusToStr s) := by
  intro arrange harr
  refine ⟨_, getEvents_status htext h hnodup hlen harr status, ?_⟩
  rw [List.length_map, (harr _).perm.length_eq, statusRows, List.length_map,
    List.countP_eq_length_filter]

/-- The id of an event is in one row of each table. -/
theorem countP_key {p : EventRow × PayloadRow} (h : List.Forall₂ (Keeps pg) pairs events)
    (hnodup : (Tables.ofPairs pairs).ids.Nodup) (hp : p ∈ pairs) :
    (Tables.ofPairs pairs).payloads.countP (·.eventId = p.1.id) = 1
      ∧ (Tables.ofPairs pairs).events.countP (·.id = p.1.id) = 1 := by
  rw [Tables.ids, Tables.ofPairs, List.map_map] at hnodup
  have hone : pairs.countP (fun q => q.1.id = p.1.id) = 1 := by
    have hfilter := filter_eq_of_nodup hnodup hp
    rw [List.countP_eq_length_filter, ← List.length_singleton (a := p), ← hfilter]
    congr 1
    exact List.filter_congr fun q _ => by simp [eq_comm]
  refine ⟨?_, ?_⟩
  · rw [Tables.ofPairs, List.countP_map, ← hone]
    refine List.countP_congr ?_
    intro q hq
    obtain ⟨e, he⟩ := exists_keeps h hq
    simp [he.key]
  · rw [Tables.ofPairs, List.countP_map, ← hone]
    rfl

/-- The two statuses are all there are. -/
theorem countP_statuses (h : List.Forall₂ (Keeps pg) pairs events) :
    pairs.length = pairs.countP (fun p => p.1.status = "success")
      + pairs.countP fun p => p.1.status = "error" := by
  have hother : ∀ p ∈ pairs, (p.1.status = "error" ↔ ¬p.1.status = "success") := by
    intro p hp
    obtain ⟨e, he⟩ := exists_keeps h hp
    rcases List.mem_cons.mp he.event.checkStatus with hs | hs
    · simp [hs]
    · simp [List.mem_singleton.mp hs]
  rw [List.length_eq_countP_add_countP (fun p => decide (p.1.status = "success"))]
  congr 1
  refine List.countP_congr ?_
  intro p hp
  simp [hother p hp]

/-- `GetStats` counts what `GetEvents` returns. -/
theorem getStats_reads (htext : KeepsText pg) (h : List.Forall₂ (Keeps pg) pairs events)
    (hnodup : (Tables.ofPairs pairs).ids.Nodup) (hlen : pairs.length ≤ 1000000000) :
    ∃ stats, getStats (.ofPairs pairs) = .ok stats
      ∧ stats.eventsTotal.toNat = stats.eventsSuccess.toNat + stats.eventsError.toNat
      ∧ Reads pg (.ofPairs pairs) {} stats.eventsTotal.toNat
      ∧ Reads pg (.ofPairs pairs) { status := some .success } stats.eventsSuccess.toNat
      ∧ Reads pg (.ofPairs pairs) { status := some .error } stats.eventsError.toNat := by
  have hpairs : (Tables.ofPairs pairs).events.length = pairs.length := List.length_map ..
  have hcount : ∀ s : String, (Tables.ofPairs pairs).events.countP (·.status = s) =
      pairs.countP fun p => p.1.status = s := fun s => List.countP_map
  have hnat : ∀ n, n ≤ pairs.length → (UInt64.ofNat n).toNat = n := by
    intro n hn
    rw [UInt64.toNat_ofNat']
    exact Nat.mod_eq_of_lt (by omega)
  refine ⟨_, rfl, ?_⟩
  simp only [hpairs, hcount, hnat _ (Nat.le_refl _), hnat _ List.countP_le_length]
  refine ⟨countP_statuses h, ?_, ?_, ?_⟩
  · have hall := reads_status htext h hnodup hlen none
    simp only [Option.all_none, List.countP_true] at hall
    exact hall
  · exact reads_status htext h hnodup hlen (some .success)
  · exact reads_status htext h hnodup hlen (some .error)

end Read

/-! ## Statistics and histories agree -/

/-- **The tables and the statistics stay consistent.** In every reachable
state, whatever the threads have saved, lost or not yet committed: each
events row has exactly one payloads row and conversely; and on a store of at
most 10^9 events, `GetEvents` succeeds with an empty filter and with each
status, and `GetStats` counts what it returns, the total being the sum. -/
theorem tables_consistent {ι : Type} [DecidableEq ι] {pg : Pg} (htext : KeepsText pg)
    {r : Repo ι} {out : List (ι × Finished)} (h : (Repo.machine ι pg).Run r out) :
    (∀ e ∈ r.db.tables.events, r.db.tables.payloads.countP (·.eventId = e.id) = 1)
    ∧ (∀ p ∈ r.db.tables.payloads, r.db.tables.events.countP (·.id = p.eventId) = 1)
    ∧ (r.db.tables.events.length ≤ 1000000000 → ∃ stats, getStats r.db.tables = .ok stats
        ∧ stats.eventsTotal.toNat = stats.eventsSuccess.toNat + stats.eventsError.toNat
        ∧ Reads pg r.db.tables {} stats.eventsTotal.toNat
        ∧ Reads pg r.db.tables { status := some .success } stats.eventsSuccess.toNat
        ∧ Reads pg r.db.tables { status := some .error } stats.eventsError.toNat) := by
  have hr := Repo.inv_run h
  obtain ⟨pairs, htables, hkeeps⟩ := hr.stored
  have hnodup : (Tables.ofPairs pairs).ids.Nodup := htables ▸ hr.distinct.committed
  rw [htables]
  refine ⟨?_, ?_, ?_⟩
  · intro e he
    obtain ⟨p, hp, rfl⟩ := List.mem_map.mp he
    exact (countP_key hkeeps hnodup hp).1
  · intro payload hpayload
    obtain ⟨p, hp, rfl⟩ := List.mem_map.mp hpayload
    obtain ⟨e, he⟩ := exists_keeps hkeeps hp
    rw [← he.key]
    exact (countP_key hkeeps hnodup hp).2
  · intro hlen
    rw [Tables.ofPairs, List.length_map] at hlen
    exact getStats_reads htext hkeeps hnodup hlen

/-- One thread has saved an event, the other one is between its two inserts:
its events row is not there to be read. -/
theorem tables_consistent_sample :
    ∃ r out, (Repo.machine Bool samplePg).Run r out ∧ (r.calls true).work.events.length = 1
      ∧ r.db.tables.events.length = 1
      ∧ ∃ stats, getStats r.db.tables = .ok stats
        ∧ Reads samplePg r.db.tables {} stats.eventsTotal.toNat := by
  have hrun := (Machine.Run.start (M := Repo.machine Bool samplePg) rfl).steps
    (Machine.steps_of_feed
      (l := [(false, .call [firstEvent]), (true, .call [firstEvent]), (false, .proceed),
        (true, .proceed), (false, .insertEvent 1), (true, .insertEvent 2), (false, .proceed),
        (false, .proceed)]) rfl)
  obtain ⟨stats, hstats, -, hall, -⟩ :=
    (tables_consistent (fun _ _ => rfl) hrun).2.2 (by decide)
  exact ⟨_, _, hrun, rfl, rfl, stats, hstats, hall⟩

end EventHistory
