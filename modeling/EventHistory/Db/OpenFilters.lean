import EventHistory.Db.Filtering
import EventHistory.Proto

/-!
# Filters that restrict nothing

There are three ways to ask for every event: no filter, a filter with no
fields, and the status UNSPECIFIED, declared as "ALL". Only the second one is
answered as it says.

UNSPECIFIED is no absent field: it is bound like the other two statuses, and
no stored row has it. `unspecified_iff` says when nobody can tell. Without a
filter the statement lacks its parameters; `noFilterAgrees_iff` says when an
empty filter fails too.
-/

namespace EventHistory

open Sql Paging Transition

/-! ## The status UNSPECIFIED -/

section Unspecified

variable {ι : Type} {pg : Pg} {tables : Tables} {filter : Dto.EventFilter} {r : Repo ι}
  {out : List (ι × Finished)}

/-- What a call may return, or `none` for a failure: the events of one time come
in any order. -/
def MayReturn (pg : Pg) (tables : Tables) (filter : Dto.EventFilter)
    (data : Option (List Dto.Event)) : Prop :=
  ∃ arrange, Admissible arrange ∧ (getEvents pg arrange tables (some filter)).data = data

/-- Each call may return what the other may. -/
def SameAnswers (pg : Pg) (tables : Tables) (filter filter' : Dto.EventFilter) : Prop :=
  ∀ data, MayReturn pg tables filter data ↔ MayReturn pg tables filter' data

/-- A call whose events do not depend on the order. -/
theorem mayReturn_iff {data data' : Option (List Dto.Event)}
    (h : ∀ arrange, Admissible arrange →
      (getEvents pg arrange tables (some filter)).data = data) :
    MayReturn pg tables filter data' ↔ data = data' := by
  constructor
  · rintro ⟨arrange, harr, hdata⟩
    exact (h arrange harr).symm.trans hdata
  · rintro rfl
    exact ⟨_, arranged_arrange orderKey, h _ (arranged_arrange orderKey)⟩

/-- With the zero status of the wire, or a number it does not declare, a
filter returns what it returns without a status. -/
def UnspecifiedMeansAll (pg : Pg) (tables : Tables) (filter : Dto.EventFilter) : Prop :=
  ∀ status : Proto.EventStatus, status ≠ .success → status ≠ .error →
    SameAnswers pg tables { filter with status := some (fromProtoEventStatus status) }
      { filter with status := none }

theorem binds_withStatus {status : Option Dto.Status} :
    Binds pg { filter with status } ↔ Binds pg filter :=
  ⟨fun h => ⟨h.sourceService, h.from, h.to, h.limit, h.offset⟩,
    fun h => ⟨h.sourceService, h.from, h.to, h.limit, h.offset⟩⟩

/-- No stored row has the status "unspecified". -/
theorem matching_unspecified (hr : r.Inv pg out) :
    matching pg r.db.tables { filter with status := some .unspecified } = [] := by
  rw [matching, List.filter_eq_nil_iff]
  intro row hrow hmatches
  have hstatus := (of_decide_eq_true hmatches).2.2.2 _ rfl
  have hcheck := (hr.stored.row hrow).2.1
  rw [hstatus] at hcheck
  exact absurd hcheck (by decide)

/-- So a filter that asks for it returns nothing. -/
theorem getEvents_unspecified [DecidableEq ι] (htext : KeepsText pg) (hr : r.Inv pg out)
    (hbinds : Binds pg filter) {arrange : Arrangement} (harr : Admissible arrange) :
    getEvents pg arrange r.db.tables (some { filter with status := some .unspecified }) =
      .ok [] := by
  obtain ⟨events, hevents, hlen⟩ := exists_answer htext hr (binds_withStatus.mpr hbinds) harr
  rw [matching_unspecified hr, List.length_nil, Nat.zero_sub, Nat.min_zero,
    List.length_eq_zero_iff] at hlen
  rw [hevents, hlen]

/-- Whether the other filter may return something else is all that matters. -/
theorem unspecifiedMeansAll_iff [DecidableEq ι] (htext : KeepsText pg) (hr : r.Inv pg out)
    (hbinds : Binds pg filter) :
    UnspecifiedMeansAll pg r.db.tables filter ↔
      ∀ data, some [] = data ↔ MayReturn pg r.db.tables { filter with status := none } data := by
  have hnone : ∀ arrange, Admissible arrange →
      (getEvents pg arrange r.db.tables
        (some { filter with status := some .unspecified })).data = some [] :=
    fun arrange harr => data_eq_some.mpr (getEvents_unspecified htext hr hbinds harr)
  constructor
  · intro hmeans data
    have hsame := hmeans .unspecified (by decide) (by decide) data
    rw [show fromProtoEventStatus .unspecified = .unspecified by decide] at hsame
    exact (mayReturn_iff hnone).symm.trans hsame
  · intro hpage status hs he data
    rw [fromProtoEventStatus_of_ne hs he, mayReturn_iff hnone]
    exact hpage data

/-- Its page is empty, in any order of the events, only for want of events. -/
theorem emptyPage_iff [DecidableEq ι] (htext : KeepsText pg) (hr : r.Inv pg out)
    (hbinds : Binds pg filter) :
    (∀ data, some [] = data ↔ MayReturn pg r.db.tables { filter with status := none } data) ↔
      limitIn filter = 0
        ∨ (matching pg r.db.tables { filter with status := none }).length ≤ offsetIn filter := by
  have hall : ∀ arrange, Admissible arrange → ∃ events,
      getEvents pg arrange r.db.tables (some { filter with status := none }) = .ok events
      ∧ events.length = min (limitIn filter)
        ((matching pg r.db.tables { filter with status := none }).length - offsetIn filter) :=
    fun arrange harr => exists_answer htext hr (binds_withStatus.mpr hbinds) harr
  constructor
  · intro hpage
    obtain ⟨arrange, harr, hdata⟩ := (hpage (some [])).mp rfl
    obtain ⟨events, hevents, hlen⟩ := hall arrange harr
    rw [hevents] at hdata
    rw [Option.some.inj hdata, List.length_nil] at hlen
    omega
  · intro hempty data
    refine (mayReturn_iff fun arrange harr => ?_).symm
    obtain ⟨events, hevents, hlen⟩ := hall arrange harr
    have hzero : events = [] := by
      rw [← List.length_eq_zero_iff, hlen]
      omega
    exact data_eq_some.mpr (hzero ▸ hevents)

/-- **When UNSPECIFIED means all.** In every reachable store: exactly when
nothing is to be told apart, because the filter does not bind either way, its
limit is zero, or its offset is behind all rows that match its other
fields. -/
theorem unspecified_iff [DecidableEq ι] (htext : KeepsText pg) (h : (Repo.machine ι pg).Run r out) :
    UnspecifiedMeansAll pg r.db.tables filter ↔
      ¬Binds pg filter ∨ limitIn filter = 0
        ∨ (matching pg r.db.tables { filter with status := none }).length ≤ offsetIn filter := by
  have hr := Repo.inv_run h
  by_cases hbinds : Binds pg filter
  · rw [unspecifiedMeansAll_iff htext hr hbinds, emptyPage_iff htext hr hbinds]
    exact (or_iff_right (not_not.mpr hbinds)).symm
  · refine iff_of_true ?_ (Or.inl hbinds)
    intro status hs he data
    have hfails : ∀ (status : Option Dto.Status) (arrange : Arrangement), Admissible arrange →
        (getEvents pg arrange r.db.tables (some { filter with status })).data = none :=
      fun status arrange _ => no_answer htext (mt binds_withStatus.mp hbinds)
    rw [mayReturn_iff (hfails _), mayReturn_iff (hfails _)]

end Unspecified

/-- A store with one event. -/
theorem exists_oneEvent : ∃ r out, (Repo.machine Unit samplePg).Run r out
    ∧ r.db.tables = ⟨[⟨1, "ipv4_filter", some 0, "success"⟩],
        [⟨1, "first", none, "accepted", none⟩]⟩ := by
  have hrun := (Machine.Run.start (M := Repo.machine Unit samplePg) rfl).steps
    (Machine.steps_of_feed
      (l := [((), .call [firstEvent]), ((), .proceed), ((), .insertEvent 1), ((), .proceed),
        ((), .proceed)]) rfl)
  exact ⟨_, _, hrun, rfl⟩

/-- Behind its last row nobody can tell. -/
theorem unspecified_iff_sample : ∃ r out, (Repo.machine Unit samplePg).Run r out
    ∧ UnspecifiedMeansAll samplePg r.db.tables { offset := some 1 } := by
  obtain ⟨r, out, hrun, htables⟩ := exists_oneEvent
  refine ⟨r, out, hrun, (unspecified_iff (fun _ _ => rfl) hrun).mpr (Or.inr (Or.inr ?_))⟩
  rw [htables]
  decide

/-- Asked for all statuses, the store returns none of the events that it
returns without a status. -/
theorem unspecified_returns_nothing : ∃ r out, (Repo.machine Unit samplePg).Run r out
    ∧ (getEvents samplePg (Sql.arrange orderKey) r.db.tables
        (some { status := some .unspecified })).data = some []
    ∧ (getEvents samplePg (Sql.arrange orderKey) r.db.tables (some {})).data = some [firstEvent]
    ∧ ¬UnspecifiedMeansAll samplePg r.db.tables {} := by
  obtain ⟨r, out, hrun, htables⟩ := exists_oneEvent
  have hnone : (getEvents samplePg (Sql.arrange orderKey) r.db.tables
      (some { status := some .unspecified })).data = some [] := by
    rw [htables]
    decide
  have hall : (getEvents samplePg (Sql.arrange orderKey) r.db.tables (some {})).data =
      some [firstEvent] := by
    rw [htables]
    decide
  refine ⟨r, out, hrun, hnone, hall, ?_⟩
  intro hmeans
  have hbinds : Binds samplePg {} := by constructor <;> intro _ h <;> cases h
  have hsame := (unspecifiedMeansAll_iff (fun _ _ => rfl) (Repo.inv_run hrun) hbinds).mp hmeans
  exact absurd ((hsame (some [firstEvent])).mpr ⟨_, arranged_arrange orderKey, hall⟩) (by decide)

/-! ## No filter -/

section NoFilter

variable {pg : Pg} {tables : Tables}

/-- `GetEvents` without a filter and with an empty one succeed together, and
return the same events but for the order. -/
def NoFilterAgrees (pg : Pg) (tables : Tables) : Prop :=
  ∀ arrange arrange', Admissible arrange → Admissible arrange' →
    (getEvents pg arrange tables none).success = (getEvents pg arrange' tables (some {})).success
    ∧ ∀ events events', (getEvents pg arrange tables none).data = some events →
        (getEvents pg arrange' tables (some {})).data = some events' → events.Perm events'

/-- The statement is executed without its six parameters. -/
theorem getEvents_none (arrange : Arrangement) :
    getEvents pg arrange tables none = .notOk ("[Postgres] " ++ pg.what (.parameterCount 0 6)) :=
  rfl

/-- The rows that have a timestamp. -/
def timedRows (tables : Tables) : List Joined :=
  (joined tables).filter fun r => r.1.timestampUtc.isSome

/-- A row with a payload, and with a status that `StrToStatus` knows. -/
def readable (r : Joined) : Bool :=
  r.2.isSome && decide (r.1.status ∈ ["unspecified", "success", "error"])

theorem isOk_decode_eq_readable {r : Joined} (hr : r ∈ timedRows tables) :
    (decode pg r).isOk = readable r := by
  obtain ⟨t, ht⟩ := Option.isSome_iff_exists.mp (List.mem_filter.mp hr).2
  have hisOk : (decode pg r).isOk = true ↔ ∃ event, decode pg r = .ok event := by
    cases decode pg r with
    | error what => simp [Except.isOk, Except.toBool]
    | ok event => simp [Except.isOk, Except.toBool]
  rw [Bool.eq_iff_iff, hisOk, readable, Bool.and_eq_true, decide_eq_true_eq,
    Dto.mem_statusNames, Option.isSome_iff_exists]
  simp only [decode_eq_ok]
  constructor
  · rintro ⟨event, _, p, status, -, hp, hstatus, -⟩
    exact ⟨⟨p, hp⟩, status, hstatus⟩
  · rintro ⟨⟨p, hp⟩, status, hstatus⟩
    exact ⟨_, t, p, status, ht, hp, hstatus, rfl⟩

/-- An empty filter takes the first 10^9 of them. -/
theorem getEvents_empty {arrange : Arrangement} (harr : Admissible arrange) :
    (getEvents pg arrange tables (some {})).success = true ↔
      ∀ r ∈ (arrange (timedRows tables)).take 1000000000, readable r = true := by
  have hrows : (boundQuery pg {}).rows tables = timedRows tables := by
    refine List.filter_congr ?_
    intro r hr
    rw [holds_condition]
    cases r.1.timestampUtc with
    | none => rfl
    | some t => rfl
  have hbind : bindGetEvents pg (filterParams {}) = .ok (boundQuery pg {}) := rfl
  have hwindow : window (boundQuery pg {}).limit (boundQuery pg {}).offset
      (arrange ((boundQuery pg {}).rows tables)) =
        (arrange (timedRows tables)).take 1000000000 := by
    rw [hrows]
    rfl
  have hdecode : (∀ r ∈ (arrange (timedRows tables)).take 1000000000, readable r = true) ↔
      ∀ r ∈ (arrange (timedRows tables)).take 1000000000, (decode pg r).isOk = true := by
    refine forall₂_congr ?_
    intro r hr
    have hmem := (harr (timedRows tables)).perm.mem_iff.mp (List.mem_of_mem_take hr)
    rw [isOk_decode_eq_readable hmem]
  rw [hdecode]
  unfold getEvents execGetEvents
  rw [Option.map_some, Option.getD_some, hbind]
  simp only [hwindow]
  constructor
  · intro h
    cases hmapM : ((arrange (timedRows tables)).take 1000000000).mapM (decode pg) with
    | error what =>
        rw [hmapM] at h
        cases h
    | ok events => exact isOk_of_mapM hmapM
  · intro h
    rw [mapM_decode h]
    rfl

/-- **When no filter agrees with an empty one.** Exactly when the empty one
fails too, in every execution: some row that cannot be read has fewer than
10^9 others that can up to its timestamp. -/
theorem noFilterAgrees_iff :
    NoFilterAgrees pg tables ↔
      ∃ r ∈ timedRows tables, readable r = false
        ∧ (timedRows tables).countP
            (fun x => readable x && decide (orderKey x ≤ orderKey r)) < 1000000000 := by
  have htake : NoFilterAgrees pg tables ↔ ∀ a, Arranged orderKey (timedRows tables) a →
      ∃ r ∈ a.take 1000000000, readable r = false := by
    constructor
    · intro hagrees a ha
      obtain ⟨arrange, hadm, rfl⟩ := exists_admissible ha
      have hsame := (hagrees arrange arrange hadm hadm).1
      by_contra hall
      have hok : (getEvents pg arrange tables (some {})).success = true := by
        rw [getEvents_empty hadm]
        intro r hr
        by_contra hfails
        exact hall ⟨r, hr, Bool.not_eq_true _ ▸ hfails⟩
      rw [hok] at hsame
      cases hsame
    · intro hfails arrange arrange' hadm hadm'
      refine ⟨?_, fun events events' hnone => by cases hnone⟩
      obtain ⟨r, hr, hfail⟩ := hfails _ (hadm' (timedRows tables))
      have hfailed : (getEvents pg arrange' tables (some {})).success = false := by
        rw [← Bool.not_eq_true, getEvents_empty hadm']
        intro hok
        rw [hok r hr] at hfail
        cases hfail
      rw [getEvents_none, hfailed]
      rfl
  rw [htake]
  constructor
  · exact count_of_forall_take
  · rintro ⟨r, hr, hfails, hcount⟩ a ha
    exact exists_take_of_count hr hfails hcount ha

/-- In the stores of the service they never agree. -/
theorem not_noFilterAgrees {ι : Type} [DecidableEq ι] (htext : KeepsText pg) {r : Repo ι}
    {out : List (ι × Finished)} (h : (Repo.machine ι pg).Run r out) :
    ¬NoFilterAgrees pg r.db.tables := by
  intro hagrees
  have hsorted := arranged_arrange (κ := WithTop Int) orderKey
  have hbinds : Binds pg {} := by constructor <;> intro _ h <;> cases h
  obtain ⟨events, hevents, -⟩ := exists_answer htext (Repo.inv_run h) hbinds hsorted
  have hsame := (hagrees _ _ hsorted hsorted).1
  rw [hevents] at hsame
  cases hsame

/-- Not even on empty tables. -/
theorem noFilter_fails_on_empty : ¬NoFilterAgrees samplePg {} := by
  intro hagrees
  have hsame := (hagrees _ _ (arranged_arrange orderKey) (arranged_arrange orderKey)).1
  exact absurd hsame (by decide)

end NoFilter

end EventHistory
