import EventHistory.Db.Consistency
import EventHistory.Service.Handlers

/-!
# The validator and the constraints of the schema

`ValidateEvent` looks at wire numbers, `schema.sql` at the texts they are
converted to. An event is `Storable` when its texts pass the columns, and
`NeverRefused` when no transaction of any run fails on a constraint at one of
its two inserts. The keys never refuse an insert: the invariant of
`Db.Consistency` keeps them distinct. So what is left are the columns, and
`storable_iff` says which validated events pass them: those with a declared
number in both enum fields. Any other number is accepted by the validator and
converted to a text that its column refuses.
-/

namespace EventHistory

open Proto Transition Serial

/-! ## What the constraints refuse -/

/-- The errors of a length, a `CHECK` or a key. A `NOT NULL` is never in
question: both statements bind a text to each such column. -/
def SqlError.isConstraint : SqlError → Bool
  | .valueTooLong _ | .check _ | .unique _ | .foreignKey _ => true
  | _ => false

/-- The texts of an event pass the columns they are inserted into. -/
structure Storable (event : Dto.Event) : Prop where
  sourceServiceLength : event.sourceService.length ≤ 20
  checkSourceService : event.sourceService ∈ sourceServices
  statusLength : (Dto.statusToStr event.status).length ≤ 10
  checkStatus : Dto.statusToStr event.status ∈ statuses
  filterDecisionLength : event.payload.filterDecision.length ≤ 10
  checkFilterDecision : event.payload.filterDecision ∈ filterDecisions

/-- The checks leave room in every column. -/
theorem storable_of_checks {event : Dto.Event} (hsource : event.sourceService ∈ sourceServices)
    (hstatus : Dto.statusToStr event.status ∈ statuses)
    (hdecision : event.payload.filterDecision ∈ filterDecisions) : Storable event :=
  ⟨(length_lt_of_sourceServices _ hsource).le, hsource, (length_lt_of_statuses _ hstatus).le,
    hstatus, (length_lt_of_filterDecisions _ hdecision).le, hdecision⟩

section Refused

variable {pg : Pg} {tables : Tables} {error : SqlError}

theorem bind_eq_error {α β : Type} {x : Except SqlError α} {f : α → Except SqlError β} :
    (x >>= f) = .error error ↔ x = .error error ∨ ∃ a, x = .ok a ∧ f a = .error error := by
  cases x with
  | error e => simp [bind, Except.bind]
  | ok a => simp [bind, Except.bind]

/-- Reading a parameter fails on its text, not on a constraint. -/
theorem orError_refused {α : Type} {e : SqlError} {o : Option α} (he : e.isConstraint = false)
    (h : orError e o = .error error) : error.isConstraint = false := by
  cases o with
  | none =>
      obtain rfl := Except.error.inj h
      exact he
  | some a => cases h

theorem mapM_orError_refused {f : String → Option String} {e : SqlError} {o : Option String}
    (he : e.isConstraint = false)
    (h : (o.mapM fun s => orError e (f s)) = .error error) : error.isConstraint = false := by
  cases o with
  | none => cases h
  | some s =>
      rw [Option.mapM_some] at h
      cases hf : f s with
      | none =>
          rw [hf] at h
          obtain rfl := Except.error.inj h
          exact he
      | some t =>
          rw [hf] at h
          cases h

theorem refuseIf_eq_error {p : Prop} [Decidable p] {e : SqlError} :
    refuseIf p e = .error error ↔ p ∧ e = error := by
  unfold refuseIf
  by_cases h : p
  · simp [h]
  · simp [h]

/-- The text of an allowed value passes its column and its check. -/
theorem column_of_mem {n : Nat} (constraint : String) {allowed : List String} {s : String}
    (hlength : ∀ s ∈ allowed, s.length < n) (hs : s ∈ allowed) :
    varchar n s = .ok s ∧ checkIn constraint allowed s = .ok s :=
  ⟨(varchar_eq_ok (hlength s hs)).mpr rfl, checkIn_eq_ok.mpr ⟨hs, rfl⟩⟩

/-- With checked texts, `insert_event` fails on no constraint but the primary
key. -/
theorem insertEvent_refused {id : Int} {sourceService timestampUtc status : String}
    (hsource : pg.textIn sourceService = some sourceService)
    (hstatus : pg.textIn status = some status)
    (hcheckSource : sourceService ∈ sourceServices) (hcheckStatus : status ∈ statuses)
    (h : insertEvent pg tables id sourceService timestampUtc status = .error error)
    (hconstraint : error.isConstraint = true) : id ∈ tables.ids := by
  obtain ⟨hvarSource, hinSource⟩ := column_of_mem "check_source_service"
    length_lt_of_sourceServices hcheckSource
  obtain ⟨hvarStatus, hinStatus⟩ := column_of_mem "check_status"
    length_lt_of_statuses hcheckStatus
  unfold insertEvent at h
  simp only [hsource, hstatus, bind_eq_error, orError, refuseIf_eq_error, hvarSource, hvarStatus,
    hinSource, hinStatus, Except.ok.injEq, reduceCtorEq, false_or, exists_eq_left',
    refuseIf_eq_ok] at h
  rcases h with htime | ⟨t, -, ⟨-, rfl⟩ | ⟨-, -, ⟨hmem, -⟩ | ⟨-, -, hpure⟩⟩⟩
  · rw [orError_refused rfl htime] at hconstraint
    cases hconstraint
  · cases hconstraint
  · exact hmem
  · cases hpure

/-- With a checked decision, `insert_payload` fails on no constraint but the
keys. -/
theorem insertPayload_refused {eventId : Int} {rawLine filterDecision : String}
    {parsedIp rejectReason : Option String}
    (hdecision : pg.textIn filterDecision = some filterDecision)
    (hcheck : filterDecision ∈ filterDecisions)
    (h : insertPayload pg tables eventId rawLine parsedIp filterDecision rejectReason =
      .error error)
    (hconstraint : error.isConstraint = true) :
    eventId ∈ tables.payloads.map (·.eventId) ∨ eventId ∉ tables.ids := by
  obtain ⟨hvar, hin⟩ := column_of_mem "check_filter_decision"
    length_lt_of_filterDecisions hcheck
  unfold insertPayload at h
  simp only [bind_eq_error] at h
  rcases h with hline | ⟨l, -, hip | ⟨ip, -, hd | ⟨d, hd, hreason | ⟨r, -, h⟩⟩⟩⟩
  · rw [orError_refused rfl hline] at hconstraint
    cases hconstraint
  · rw [mapM_orError_refused rfl hip] at hconstraint
    cases hconstraint
  · rw [orError_refused rfl hd] at hconstraint
    cases hconstraint
  · rw [mapM_orError_refused rfl hreason] at hconstraint
    cases hconstraint
  · rw [orError_eq_ok, hdecision, Option.some_inj] at hd
    simp only [← hd, hvar, hin, Except.ok.injEq, reduceCtorEq, false_or, exists_eq_left',
      refuseIf_eq_error] at h
    rcases h with ⟨hmem, -⟩ | ⟨-, -, ⟨hfree, -⟩ | ⟨-, -, hpure⟩⟩
    · exact Or.inl hmem
    · exact Or.inr hfree
    · cases hpure

end Refused

/-! ## Transactions that fail on a constraint -/

/-- The error of a statement, if it fails. -/
def refusedWith {α : Type} : Except SqlError α → Option SqlError
  | .error e => some e
  | .ok _ => none

theorem refusedWith_eq_some {α : Type} {x : Except SqlError α} {e : SqlError} :
    refusedWith x = some e ↔ x = .error e := by
  cases x with
  | error e' => simp [refusedWith]
  | ok a => simp [refusedWith]

namespace SaveCall

/-- The event whose rows the call inserts. -/
def inserting (c : SaveCall) : Option Dto.Event :=
  match c.pc with
  | .loop (event :: _) => some event
  | .payload _ event _ => some event
  | _ => none

/-- The error of the statement that the call executes on an input. -/
def refusal (pg : Pg) (db : Db) (c : SaveCall) (input : SaveInput) : Option SqlError :=
  match c.pc, input with
  | .loop (event :: _), .insertEvent id =>
      refusedWith (EventHistory.insertEvent pg (db.tables.append c.work) id event.sourceService
        event.timestampUtc (Dto.statusToStr event.status))
  | .payload eventId event _, .proceed =>
      refusedWith (EventHistory.insertPayload pg (db.tables.append c.work) eventId
        event.payload.rawLine event.payload.parsedIp event.payload.filterDecision
        event.payload.rejectReason)
  | _, _ => none

theorem refusal_of_insertEvent {pg : Pg} {db : Db} {c : SaveCall} {event : Dto.Event}
    {rest : List Dto.Event} {id : Int} {error : SqlError} (hpc : c.pc = .loop (event :: rest))
    (h : EventHistory.insertEvent pg (db.tables.append c.work) id event.sourceService
      event.timestampUtc (Dto.statusToStr event.status) = .error error) :
    c.refusal pg db (.insertEvent id) = some error := by
  unfold refusal
  rw [hpc]
  exact refusedWith_eq_some.mpr h

theorem refusal_of_insertPayload {pg : Pg} {db : Db} {c : SaveCall} {eventId : Int}
    {event : Dto.Event} {rest : List Dto.Event} {error : SqlError}
    (hpc : c.pc = .payload eventId event rest)
    (h : EventHistory.insertPayload pg (db.tables.append c.work) eventId event.payload.rawLine
      event.payload.parsedIp event.payload.filterDecision event.payload.rejectReason =
        .error error) :
    c.refusal pg db .proceed = some error := by
  unfold refusal
  rw [hpc]
  exact refusedWith_eq_some.mpr h

end SaveCall

/-- In no run, whatever else the threads save and whichever batch the event
is in, does one of its inserts fail on a constraint. -/
def NeverRefused (ι : Type) [DecidableEq ι] (pg : Pg) (event : Dto.Event) : Prop :=
  ∀ (r : Repo ι) (out : List (ι × Finished)), (Repo.machine ι pg).Run r out →
    ∀ i input error, (r.calls i).inserting = some event →
      ((r.calls i).next pg r.db input).isSome = true →
      (r.calls i).refusal pg r.db input = some error → error.isConstraint = false

section Run

variable {ι : Type} {pg : Pg} {r : Repo ι} {out : List (ι × Finished)} {i : ι}

/-- The ids a transaction sees. -/
theorem Repo.ids_append (r : Repo ι) (i : ι) :
    (r.db.tables.append (r.calls i).work).ids = r.keys.visible i := List.map_append

/-- The sequence never gives out an id that is in use. -/
theorem Repo.Inv.fresh (hr : r.Inv pg out) {id : Int} (hnew : id ∉ r.db.drawn) :
    id ∉ (r.db.tables.append (r.calls i).work).ids := by
  rw [Repo.ids_append]
  exact fun hmem => hnew (hr.distinct.drawn i id hmem)

/-- Between the two inserts of an event, its id is in the one table and not
in the other. -/
theorem Repo.Inv.halfway (hr : r.Inv pg out) {eventId : Int} {event : Dto.Event}
    {rest : List Dto.Event} (hpc : (r.calls i).pc = .payload eventId event rest) :
    eventId ∈ (r.db.tables.append (r.calls i).work).ids
      ∧ eventId ∉ (r.db.tables.append (r.calls i).work).payloads.map (·.eventId) := by
  have hc := hr.calls i
  unfold SaveCall.Inv at hc
  rw [hpc] at hc
  obtain ⟨done, row, t, -, ht, hwork, rfl, -⟩ := hc
  have hnodup := hr.distinct.nodup i
  have hids : (r.db.tables.append (r.calls i).work).ids =
      (r.db.tables.ids ++ t.ids) ++ [row.id] := by
    rw [hwork, List.append_assoc]
    simp [Tables.append, Tables.ids]
  rw [← Repo.ids_append, hids] at hnodup
  rw [hids]
  refine ⟨List.mem_append_right _ (List.mem_singleton_self _), ?_⟩
  have hpayloads : (r.db.tables.append (r.calls i).work).payloads.map (·.eventId) =
      r.db.tables.ids ++ t.ids := by
    rw [hwork, ← hr.stored.keys, ← ht.keys]
    exact List.map_append
  rw [hpayloads]
  intro hmem
  exact List.disjoint_of_nodup_append hnodup hmem (List.mem_singleton_self _)

/-- A statement that fails is one of the two inserts of the event, and the keys
are not what it fails on. -/
theorem Repo.Inv.refused_cases (hr : r.Inv pg out) {event : Dto.Event} {input : SaveInput}
    {error : SqlError} (hinserting : (r.calls i).inserting = some event)
    (hnext : ((r.calls i).next pg r.db input).isSome = true)
    (hrefusal : (r.calls i).refusal pg r.db input = some error) :
    (∃ id, input = .insertEvent id ∧ id ∉ (r.db.tables.append (r.calls i).work).ids
        ∧ insertEvent pg (r.db.tables.append (r.calls i).work) id event.sourceService
          event.timestampUtc (Dto.statusToStr event.status) = .error error)
      ∨ ∃ eventId, eventId ∈ (r.db.tables.append (r.calls i).work).ids
        ∧ eventId ∉ (r.db.tables.append (r.calls i).work).payloads.map (·.eventId)
        ∧ insertPayload pg (r.db.tables.append (r.calls i).work) eventId event.payload.rawLine
          event.payload.parsedIp event.payload.filterDecision event.payload.rejectReason =
            .error error := by
  unfold SaveCall.inserting at hinserting
  unfold SaveCall.refusal at hrefusal
  split at hrefusal
  · rename_i event' rest id hpc
    rw [hpc] at hinserting
    obtain rfl := Option.some.inj hinserting
    have hnew : id ∉ r.db.drawn := by
      intro hdrawn
      simp [SaveCall.next, hpc, hdrawn] at hnext
    exact Or.inl ⟨id, rfl, hr.fresh (i := i) hnew, refusedWith_eq_some.mp hrefusal⟩
  · rename_i eventId event' rest hpc
    rw [hpc] at hinserting
    obtain rfl := Option.some.inj hinserting
    obtain ⟨hevents, hpayloads⟩ := hr.halfway hpc
    exact Or.inr ⟨eventId, hevents, hpayloads, refusedWith_eq_some.mp hrefusal⟩
  · cases hrefusal

/-- An event that passes the columns passes the keys as well. -/
theorem neverRefused_of_storable [DecidableEq ι] (htext : KeepsText pg) {event : Dto.Event}
    (h : Storable event) (hnul : NulFree event.sourceService)
    (hdecision : NulFree event.payload.filterDecision) : NeverRefused ι pg event := by
  intro r out hrun i input error hinserting hnext hrefusal
  cases hconstraint : error.isConstraint with
  | false => rfl
  | true =>
      exfalso
      rcases (Repo.inv_run hrun).refused_cases hinserting hnext hrefusal with
        ⟨id, -, hfree, herror⟩ | ⟨eventId, hevents, hpayloads, herror⟩
      · exact hfree (insertEvent_refused (htext _ hnul) (htext _ (nulFree_statusToStr _))
          h.checkSourceService h.checkStatus herror hconstraint)
      · rcases insertPayload_refused (htext _ hdecision) h.checkFilterDecision herror hconstraint
          with hmem | hfree
        · exact hpayloads hmem
        · exact hfree hevents

end Run

/-! ## Which validated events can be stored -/

/-- Both enum fields hold a declared value other than the zero one. -/
structure Declared (event : Event) : Prop where
  status : event.status = .success ∨ event.status = .error
  filterDecision : event.getPayload.filterDecision = .accepted
    ∨ event.getPayload.filterDecision = .rejected

theorem statusToStr_mem_statuses {s : EventStatus} :
    Dto.statusToStr (fromProtoEventStatus s) ∈ statuses ↔ s = .success ∨ s = .error := by
  unfold fromProtoEventStatus
  split
  · rename_i h
    subst h
    decide
  · split
    · rename_i h
      subst h
      decide
    · split
      · rename_i h
        subst h
        decide
      · rename_i hsuccess herror
        refine iff_of_false (by decide) ?_
        exact not_or.mpr ⟨hsuccess, herror⟩

theorem fromProtoFilterDecision_mem {d : FilterDecision} :
    fromProtoFilterDecision d ∈ filterDecisions ↔ d = .accepted ∨ d = .rejected := by
  by_cases ha : d = .accepted
  · subst ha
    decide
  · by_cases hr : d = .rejected
    · subst hr
      decide
    · rw [fromProtoFilterDecision_of_ne ha hr]
      exact iff_of_false (by decide) (not_or.mpr ⟨ha, hr⟩)

/-- A filter decision is one of three texts. -/
theorem nulFree_fromProtoFilterDecision (d : FilterDecision) :
    NulFree (fromProtoFilterDecision d) := by
  unfold fromProtoFilterDecision
  split
  · decide
  · split
    · decide
    · decide

/-- **Which validated events can be stored.** The rows of a validated event
satisfy the constraints, and no run has a transaction that fails on a
constraint at one of its inserts, exactly when both enum numbers are
declared. -/
theorem storable_iff {ι : Type} [DecidableEq ι] {pg : Pg} (htext : KeepsText pg) {event : Event}
    (hvalid : (validateEvent event).isOk = true) :
    Storable (toDtoEvent event) ∧ NeverRefused ι pg (toDtoEvent event) ↔ Declared event := by
  have hv := validateEvent_isOk.mp hvalid
  have hsource : (toDtoEvent event).sourceService = "ipv4_filter" := hv.sourceService
  constructor
  · rintro ⟨hstorable, -⟩
    exact ⟨statusToStr_mem_statuses.mp hstorable.checkStatus,
      fromProtoFilterDecision_mem.mp hstorable.checkFilterDecision⟩
  · intro hdeclared
    have hstorable : Storable (toDtoEvent event) := by
      refine storable_of_checks ?_ (statusToStr_mem_statuses.mpr hdeclared.status)
        (fromProtoFilterDecision_mem.mpr hdeclared.filterDecision)
      rw [hsource]
      decide
    refine ⟨hstorable, neverRefused_of_storable htext hstorable ?_ ?_⟩
    · rw [hsource]
      decide
    · exact nulFree_fromProtoFilterDecision _

theorem storable_iff_sample :
    Storable sampleEvent ∧ NeverRefused Unit samplePg sampleEvent :=
  (@storable_iff Unit _ samplePg (fun _ _ => rfl) sampleMessage.getEvent (by decide)).mpr
    ⟨by decide, by decide⟩

/-- An event whose status a newer client numbered 3. -/
def undeclared : Event := { sampleMessage.getEvent with status := ⟨3⟩ }

/-- The validator accepts it and its texts parse, but "unspecified", which the
status is converted to, is one character too long for its column: the event
inserted before it in the same transaction is lost as well. -/
theorem undeclared_refused :
    (validateEvent undeclared).isOk = true
    ∧ (samplePg.timestamptzIn (toDtoEvent undeclared).timestampUtc).isSome = true
    ∧ ((toDtoEvent undeclared).payload.parsedIp.mapM samplePg.inetIn).isSome = true
    ∧ ¬Storable (toDtoEvent undeclared)
    ∧ ¬NeverRefused Unit samplePg (toDtoEvent undeclared)
    ∧ ∃ r, (Repo.machine Unit samplePg).Run r
        [((), ⟨[sampleEvent, toDtoEvent undeclared], .notOk "[Postgres] error"⟩)]
      ∧ r.db.tables = {} := by
  have hstorable : ¬Storable (toDtoEvent undeclared) := fun h => absurd h.checkStatus (by decide)
  have hrun := (Machine.Run.start (M := Repo.machine Unit samplePg) rfl).steps
    (Machine.steps_of_feed
      (l := [((), .call [sampleEvent, toDtoEvent undeclared]), ((), .proceed),
        ((), .insertEvent 1), ((), .proceed)]) rfl)
  have hfails := hrun.steps (Machine.steps_of_feed (l := [((), .insertEvent 2)]) rfl)
  refine ⟨by decide, rfl, rfl, hstorable, ?_, _, hfails, rfl⟩
  intro h
  exact absurd (h _ _ hrun () (.insertEvent 2) (.valueTooLong 10) rfl rfl rfl) (by decide)

end EventHistory
