import EventHistory.Db.Constraints
import EventHistory.Service.OverPostgres

/-!
# Which events are saved

One event that the tables do not take costs the whole batch of its call. An
event is `Insertable` when there are two rows that keep its texts; their keys
are no obstacle, in no run. So a `SaveEvents` that nothing fails from outside
succeeds exactly when all of its events are insertable
(`saved_iff_insertable`), and that is what the handlers of the two saving
calls answer (`answered_iff_insertable`).
-/

namespace EventHistory

open Proto Transition Serial

/-- There are rows that keep the texts of the event, whatever their keys. -/
structure Insertable (pg : Pg) (e : Dto.Event) : Prop where
  event : ∃ row : EventRow, row.Keeps pg e.sourceService e.timestampUtc (Dto.statusToStr e.status)
  payload : ∃ row : PayloadRow,
    row.Keeps pg e.payload.rawLine e.payload.parsedIp e.payload.filterDecision
      e.payload.rejectReason

/-- Nothing from outside fails the call, and the sequence is not exhausted. -/
def SaveInput.harmless : SaveInput → Bool
  | .fail _ => false
  | .insertEvent id => id ≤ maxId
  | _ => true

/-- The runs in which these threads are left alone; to the others anything may
happen. -/
def Repo.undisturbed (ι : Type) [DecidableEq ι] (pg : Pg) (alone : ι → Prop) :
    Machine (Repo ι) (ι × Finished) :=
  .ofFnWhere (· = {}) (next pg) (writes pg) fun _ p => alone p.1 → p.2.harmless = true

section Insertable

variable {pg : Pg} {tables : Tables} {events : List Dto.Event} {event : Dto.Event}

/-- What the tables hold could be inserted. -/
theorem Tables.Holds.insertable (h : tables.Holds pg events) (he : event ∈ events) :
    Insertable pg event := by
  obtain ⟨pairs, -, hkeeps⟩ := h
  have hboth := hkeeps.flip.imp fun e p (hp : Keeps pg p e) =>
    And.intro (⟨⟨p.1, hp.event⟩, p.2, hp.payload⟩ : Insertable pg e) hp
  exact ((List.forall₂_and_left _ _).mp hboth).1 event he

/-- A storable event is insertable when PostgreSQL can read its texts. -/
theorem Storable.insertable (htext : KeepsText pg) (h : Storable event)
    (hsource : NulFree event.sourceService)
    (htime : (pg.timestamptzIn event.timestampUtc).isSome = true)
    (hline : NulFree event.payload.rawLine)
    (hip : ∀ ip, event.payload.parsedIp = some ip → (pg.inetIn ip).isSome = true)
    (hdecision : NulFree event.payload.filterDecision)
    (hreason : ∀ reason, event.payload.rejectReason = some reason → NulFree reason) :
    Insertable pg event := by
  have hinet : ∃ ip, event.payload.parsedIp.mapM pg.inetIn = some ip := by
    cases hparsed : event.payload.parsedIp with
    | none => exact ⟨none, rfl⟩
    | some ip =>
        obtain ⟨stored, hstored⟩ := Option.isSome_iff_exists.mp (hip ip hparsed)
        exact ⟨some stored, by simp [hstored]⟩
  have htexts : event.payload.rejectReason.mapM pg.textIn = some event.payload.rejectReason := by
    cases hrejected : event.payload.rejectReason with
    | none => rfl
    | some reason => simp [htext reason (hreason reason hrejected)]
  obtain ⟨ip, hip⟩ := hinet
  have hrow : EventRow.Keeps pg ⟨0, event.sourceService, pg.timestamptzIn event.timestampUtc,
      Dto.statusToStr event.status⟩ event.sourceService event.timestampUtc
      (Dto.statusToStr event.status) :=
    ⟨htext _ hsource, rfl, htime, htext _ (nulFree_statusToStr _), h.checkSourceService,
      h.checkStatus⟩
  have hpayload : PayloadRow.Keeps pg ⟨0, event.payload.rawLine, ip,
      event.payload.filterDecision, event.payload.rejectReason⟩ event.payload.rawLine
      event.payload.parsedIp event.payload.filterDecision event.payload.rejectReason :=
    ⟨htext _ hline, hip, htext _ hdecision, htexts, h.checkFilterDecision⟩
  exact ⟨⟨_, hrow⟩, _, hpayload⟩

theorem Insertable.insertEvent (h : Insertable pg event) {id : Int} (hid : id ≤ maxId)
    (hfree : id ∉ tables.ids) :
    ∃ row, insertEvent pg tables id event.sourceService event.timestampUtc
      (Dto.statusToStr event.status) = .ok row := by
  obtain ⟨row, hrow⟩ := h.event
  have hkeeps : EventRow.Keeps pg { row with id } event.sourceService event.timestampUtc
      (Dto.statusToStr event.status) := { hrow with }
  exact ⟨_, insertEvent_eq_ok.mpr ⟨hkeeps, rfl, hid, hfree⟩⟩

theorem Insertable.insertPayload (h : Insertable pg event) {eventId : Int}
    (hnew : eventId ∉ tables.payloads.map (·.eventId)) (hid : eventId ∈ tables.ids) :
    ∃ row, insertPayload pg tables eventId event.payload.rawLine event.payload.parsedIp
      event.payload.filterDecision event.payload.rejectReason = .ok row := by
  obtain ⟨row, hrow⟩ := h.payload
  have hkeeps : PayloadRow.Keeps pg { row with eventId } event.payload.rawLine
      event.payload.parsedIp event.payload.filterDecision event.payload.rejectReason :=
    { hrow with }
  exact ⟨_, insertPayload_eq_ok.mpr ⟨hkeeps, rfl, hnew, hid⟩⟩

end Insertable

/-! ## One step -/

section Step

variable {ι : Type} {pg : Pg} {db db' : Db} {c c' : SaveCall} {input : SaveInput}
  {event : Dto.Event} {r : Repo ι} {out : List (ι × Finished)} {i : ι}

/-- A call inserts the events that it was given. -/
theorem SaveCall.Inv.inserting_mem (hc : c.Inv pg) (h : c.inserting = some event) :
    event ∈ c.events := by
  unfold SaveCall.Inv at hc
  unfold SaveCall.inserting at h
  split at h
  · rename_i rest hpc
    obtain rfl := Option.some.inj h
    rw [hpc] at hc
    obtain ⟨done, hevents, -⟩ := hc
    rw [hevents]
    exact List.mem_append_right done (List.mem_cons_self ..)
  · rename_i eventId rest hpc
    obtain rfl := Option.some.inj h
    rw [hpc] at hc
    obtain ⟨done, row, t, hevents, -⟩ := hc
    rw [hevents]
    exact List.mem_append_right done (List.mem_cons_self ..)
  · cases h

/-- An insertable event is inserted. -/
theorem Repo.Inv.not_refused (hr : r.Inv pg out) (h : Insertable pg event)
    (hinserting : (r.calls i).inserting = some event) (hinput : input.harmless = true)
    (hnext : ((r.calls i).next pg r.db input).isSome = true) :
    (r.calls i).refusal pg r.db input = none := by
  cases hrefusal : (r.calls i).refusal pg r.db input with
  | none => rfl
  | some error =>
      rcases hr.refused_cases hinserting hnext hrefusal with
        ⟨id, rfl, hfree, herror⟩ | ⟨eventId, hid, hnew, herror⟩
      · obtain ⟨row, hrow⟩ := h.insertEvent (of_decide_eq_true hinput) hfree
        rw [hrow] at herror
        cases herror
      · obtain ⟨row, hrow⟩ := h.insertPayload hnew hid
        rw [hrow] at herror
        cases herror

/-- How a call that nothing fails from outside comes to its end: it has committed,
or there was nothing to save, or one of its statements has failed. -/
inductive SaveCall.Ends (pg : Pg) (db : Db) (c : SaveCall) (input : SaveInput) : Outcome → Prop
  | nothing : c.pc = .entered → c.events = [] → Ends pg db c input (.returned .ok)
  | committed : c.pc = .loop [] → Ends pg db c input (.returned .ok)
  | refused {event : Dto.Event} {error : SqlError} {outcome : Outcome} :
      c.inserting = some event → c.refusal pg db input = some error →
      outcome.success = false → Ends pg db c input outcome

theorem SaveCall.ends_next (hn : c.next pg db input = some (db', c'))
    (hinput : input.harmless = true) {outcome : Outcome} (ho : c'.pc.outcome = some outcome) :
    c'.events = c.events ∧ c.Ends pg db input outcome := by
  unfold SaveCall.next at hn
  split at hn
  · obtain ⟨-, rfl⟩ := Prod.mk.inj (Option.some.inj hn)
    cases ho
  · rename_i hpc
    obtain ⟨-, rfl⟩ := Prod.mk.inj (Option.some.inj hn)
    by_cases hempty : c.events.isEmpty = true
    · rw [if_pos hempty] at ho
      obtain rfl := Option.some.inj ho
      exact ⟨rfl, .nothing hpc (List.isEmpty_iff.mp hempty)⟩
    · rw [if_neg hempty] at ho
      cases ho
  · cases hinput
  · rename_i event rest id hpc
    split at hn
    · cases hn
    · obtain ⟨-, rfl⟩ := Prod.mk.inj (Option.some.inj hn)
      unfold SaveCall.insertEvent at ho ⊢
      split at ho
      · cases ho
      · rename_i error herror
        obtain rfl := Option.some.inj ho
        exact ⟨rfl, .refused (by rw [inserting, hpc]) (refusal_of_insertEvent hpc herror) rfl⟩
  · rename_i eventId event rest hpc
    obtain ⟨-, rfl⟩ := Prod.mk.inj (Option.some.inj hn)
    unfold SaveCall.insertPayload at ho ⊢
    split at ho
    · cases ho
    · rename_i error herror
      obtain rfl := Option.some.inj ho
      exact ⟨rfl, .refused (by rw [inserting, hpc]) (refusal_of_insertPayload hpc herror) rfl⟩
  · rename_i hpc
    obtain ⟨-, rfl⟩ := Prod.mk.inj (Option.some.inj hn)
    obtain rfl := Option.some.inj ho
    exact ⟨rfl, .committed hpc⟩
  · cases hinput
  · cases hinput
  · obtain ⟨-, rfl⟩ := Prod.mk.inj (Option.some.inj hn)
    cases ho
  · obtain ⟨-, rfl⟩ := Prod.mk.inj (Option.some.inj hn)
    cases ho
  · cases hn

/-- It succeeds exactly when its events are insertable. -/
theorem Repo.Inv.outcome_next (hr : r.Inv pg out)
    (hn : (r.calls i).next pg r.db input = some (db', c')) (hinput : input.harmless = true)
    {outcome : Outcome} (ho : c'.pc.outcome = some outcome) :
    outcome.success = true ↔ ∀ event ∈ c'.events, Insertable pg event := by
  obtain ⟨hevents, hends⟩ := SaveCall.ends_next hn hinput ho
  have hc := hr.calls i
  rw [hevents]
  cases hends with
  | nothing hpc hempty => simp [hempty, Outcome.success]
  | committed hpc =>
      unfold SaveCall.Inv at hc
      rw [hpc] at hc
      obtain ⟨done, hdone, hwork⟩ := hc
      rw [List.append_nil] at hdone
      rw [hdone]
      exact ⟨fun _ _ hevent => hwork.insertable hevent, fun _ => rfl⟩
  | refused hinserting hrefusal hfailed =>
      have hnot : ¬∀ event ∈ (r.calls i).events, Insertable pg event := by
        intro hall
        have hinsertable := hall _ (hc.inserting_mem hinserting)
        rw [hr.not_refused hinsertable hinserting hinput (by rw [hn]; rfl)] at hrefusal
        cases hrefusal
      exact ⟨fun hsuccess => absurd hsuccess (Bool.eq_false_iff.mp hfailed),
        fun hall => absurd hall hnot⟩

end Step

/-! ## Whole runs -/

section Run

variable {ι : Type} [DecidableEq ι] {pg : Pg} {alone : ι → Prop} {r : Repo ι}
  {out : List (ι × Finished)} {i : ι}

/-- A thread that is left alone has the result that its events deserve. -/
theorem Repo.outcome_run (h : (undisturbed ι pg alone).Run r out) (hi : alone i)
    {outcome : Outcome} (ho : (r.calls i).pc.outcome = some outcome) :
    outcome.success = true ↔ ∀ event ∈ (r.calls i).events, Insertable pg event := by
  induction h with
  | start hinit =>
      obtain rfl := hinit
      cases ho
  | @step r r' out o hrun hstep ih =>
      obtain ⟨⟨j, input⟩, hinput, hn, rfl⟩ := hstep
      obtain ⟨db', c', hc, rfl, -⟩ := next_cases hn
      by_cases hij : i = j
      · subst hij
        simp only [Function.update_self] at ho ⊢
        exact (inv_run (Machine.run_of_where hrun)).outcome_next hc (hinput hi) ho
      · simp only [Function.update_of_ne hij] at ho ⊢
        exact ih ho

theorem SaveCall.mem_finished {c c' : SaveCall} {f : Finished} (h : f ∈ c.finished c') :
    c'.pc.outcome = some (.returned f.result) ∧ f.events = c'.events := by
  unfold SaveCall.finished at h
  split at h
  · cases h
  · rename_i hpc _
    obtain rfl := List.mem_singleton.mp h
    rw [hpc]
    exact ⟨rfl, rfl⟩
  · cases h

/-- **Which batches are saved.** In any interleaving of any number of threads, a
call of `SaveEvents` whose thread is left alone returns success exactly when
each of its events is insertable, whatever the other threads do and whatever
happens to them. -/
theorem saved_iff_insertable (h : (Repo.undisturbed ι pg alone).Run r out) {f : Finished}
    (hf : (i, f) ∈ out) (hi : alone i) :
    f.result.success = true ↔ ∀ event ∈ f.events, Insertable pg event := by
  induction h with
  | start hinit => cases hf
  | @step r r' out o hrun hstep ih =>
      rcases List.mem_append.mp hf with hf | hf
      · exact ih hf
      · have hrun' := hrun.step hstep
        obtain ⟨⟨j, input⟩, hinput, hn, rfl⟩ := hstep
        obtain ⟨db', c', hc, rfl, hwrites⟩ := Repo.next_cases hn
        rw [hwrites] at hf
        obtain ⟨f', hmem, heq⟩ := List.mem_map.mp hf
        obtain ⟨rfl, rfl⟩ := Prod.mk.inj heq
        obtain ⟨hpc, hevents⟩ := SaveCall.mem_finished hmem
        have hupdate : (Function.update r.calls j c' j).pc.outcome =
            some (.returned f'.result) := by
          rw [Function.update_self]
          exact hpc
        have hresult := Repo.outcome_run hrun' hi hupdate
        simp only [Function.update_self] at hresult
        rw [hevents]
        exact hresult

end Run

/-- Thread `false` loses its connection, and nothing happens to thread `true`. -/
def sampleAlone : List (Bool × SaveInput) :=
  [(false, .call [sampleEvent]), (true, .call [sampleEvent, toDtoEvent undeclared]),
    (false, .proceed), (true, .proceed), (false, .insertEvent 1), (true, .insertEvent 2),
    (false, .fail "connection lost"), (true, .proceed), (true, .insertEvent 3)]

def sampleFailures : List (Bool × Finished) :=
  [(false, ⟨[sampleEvent], .notOk "[Postgres] connection lost"⟩),
    (true, ⟨[sampleEvent, toDtoEvent undeclared], .notOk "[Postgres] error"⟩)]

theorem sampleAlone_run :
    ∃ r, (Repo.undisturbed Bool samplePg (· = true)).Run r sampleFailures := by
  have halone : ∀ a ∈ sampleAlone, a.1 = true → a.2.harmless = true := by decide
  exact ⟨_, (Machine.Run.start (M := Repo.undisturbed Bool samplePg (· = true)) rfl).steps
    (Machine.steps_of_feed_where (l := sampleAlone) (fun a ha _ => halone a ha) rfl)⟩

/-- The call of thread `true` has failed, so one of its events is not
insertable. -/
theorem saved_iff_insertable_sample :
    ¬∀ event ∈ [sampleEvent, toDtoEvent undeclared], Insertable samplePg event := by
  obtain ⟨r, hrun⟩ := sampleAlone_run
  intro hevents
  cases (saved_iff_insertable hrun (List.mem_cons_of_mem _ (List.mem_singleton_self _)) rfl).mpr
    hevents

/-! ## The two handlers -/

/-- What has become of a call whose `SaveEvents` always have the result that
their events deserve. -/
def Judged (pg : Pg) : Rpc → Call → Prop
  | .saveEvent request, .saveEvent (.received r) => r = request
  | .saveEvent request, .saveEvent (.execute events) =>
      (validateSaveEventRequest request).isOk = true ∧ events = request.event.map toDtoEvent
  | .saveEvent request, .saveEvent (.done _ response) =>
      response.success = true ↔ (validateSaveEventRequest request).isOk = true
        ∧ ∀ e ∈ request.event, Insertable pg (toDtoEvent e)
  | .saveEventsStream, .saveEventsStream c =>
      ∀ b ∈ c.executed, b.2 = true ↔ ∀ event ∈ b.1, Insertable pg event
  | _, _ => False

section Handlers

variable {pg : Pg} {rpc : Rpc} {call call' : Call} {input : Input}

theorem judged_start (pg : Pg) (rpc : Rpc) : Judged pg rpc (Call.start rpc) := by
  cases rpc with
  | saveEvent request => exact rfl
  | saveEventsStream =>
      intro b hb
      cases hb

theorem judged_unary {request : SaveEventRequest} {c c' : SaveEventCall}
    (h : Judged pg (.saveEvent request) (.saveEvent c)) (hn : c.next input = some c')
    (hexecute : ∀ events outcome, c = .execute events → input = .execute outcome →
      (outcome.success = true ↔ ∀ event ∈ events, Insertable pg event)) :
    Judged pg (.saveEvent request) (.saveEvent c') := by
  unfold SaveEventCall.next at hn
  split at hn
  · obtain rfl : _ = request := h
    split at hn
    · obtain rfl := Option.some.inj hn
      exact ⟨‹_›, rfl⟩
    · rename_i hinvalid
      obtain rfl := Option.some.inj hn
      exact ⟨fun hsuccess => absurd hsuccess Bool.false_ne_true, fun hall => absurd hall.1 hinvalid⟩
  · rename_i events result
    obtain rfl := Option.some.inj hn
    obtain ⟨hvalid, rfl⟩ := h
    have hresult := hexecute _ _ rfl rfl
    rw [List.forall_mem_map] at hresult
    exact ⟨fun hsuccess => ⟨hvalid, hresult.mp hsuccess⟩, fun hall => hresult.mpr hall.2⟩
  · rename_i events what
    obtain rfl := Option.some.inj hn
    obtain ⟨hvalid, rfl⟩ := h
    have hresult := hexecute _ _ rfl rfl
    rw [List.forall_mem_map] at hresult
    exact ⟨fun hsuccess => absurd hsuccess Bool.false_ne_true,
      fun hall => hresult.mpr hall.2⟩
  · cases hn

theorem afterExecute_executed (c : StreamCall) (failure : String) (o : Outcome) :
    (c.afterExecute failure o).executed = c.executed ++ [(c.batch, o.success)] := by
  cases ho : o.success with
  | true => rw [StreamCall.afterExecute_of_success c failure ho]
  | false =>
      obtain ⟨message, hfailed⟩ := StreamCall.afterExecute_of_not_success c failure ho
      rw [hfailed]

/-- A stream keeps what `Execute` came to for each batch. -/
theorem executed_next {c c' : StreamCall} (hn : c.next input = some c') :
    c'.executed = c.executed ∨ ∃ outcome, input = .execute outcome
      ∧ (Call.saveEventsStream c).executing = some c.batch
      ∧ c'.executed = c.executed ++ [(c.batch, outcome.success)] := by
  unfold StreamCall.next at hn
  split at hn
  · obtain rfl := Option.some.inj hn
    exact Or.inl rfl
  · obtain rfl := Option.some.inj hn
    unfold StreamCall.endLoop
    dsimp only
    split
    · exact Or.inl rfl
    · exact Or.inl rfl
  · obtain rfl := Option.some.inj hn
    unfold StreamCall.loopBody
    dsimp only
    split
    · exact Or.inl rfl
    · exact Or.inl rfl
  · rename_i o hpc
    obtain rfl := Option.some.inj hn
    refine Or.inr ⟨o, rfl, by rw [Call.executing, hpc], ?_⟩
    unfold StreamCall.afterBatch
    dsimp only
    split
    · exact afterExecute_executed ..
    · exact afterExecute_executed ..
  · obtain rfl := Option.some.inj hn
    unfold StreamCall.afterIsCancelled
    split
    · exact Or.inl rfl
    · exact Or.inl rfl
  · rename_i o hpc
    obtain rfl := Option.some.inj hn
    refine Or.inr ⟨o, rfl, by rw [Call.executing, hpc], ?_⟩
    unfold StreamCall.afterFinalBatch
    dsimp only
    split
    · exact afterExecute_executed ..
    · exact afterExecute_executed ..
  · cases hn

theorem Judged.next (h : Judged pg rpc call) (hn : call.next input = some call')
    (hexecute : ∀ events outcome, call.executing = some events → input = .execute outcome →
      (outcome.success = true ↔ ∀ event ∈ events, Insertable pg event)) :
    Judged pg rpc call' := by
  cases rpc with
  | saveEvent request =>
      cases call with
      | saveEvent c =>
          obtain ⟨c', hc, rfl⟩ := Option.map_eq_some_iff.mp hn
          refine judged_unary h hc fun events outcome hevents => hexecute events outcome ?_
          rw [hevents]
          rfl
      | saveEventsStream c => cases h
  | saveEventsStream =>
      cases call with
      | saveEvent c => cases h
      | saveEventsStream c =>
          obtain ⟨c', hc, rfl⟩ := Option.map_eq_some_iff.mp hn
          intro b hb
          rcases executed_next hc with hsame | ⟨outcome, hinput, hevents, hmore⟩
          · rw [hsame] at hb
            exact h b hb
          · rw [hmore] at hb
            rcases List.mem_append.mp hb with hb | hb
            · exact h b hb
            · rw [List.mem_singleton.mp hb]
              exact hexecute _ outcome hevents hinput

end Handlers

/-! ## The service -/

def HistoryInput.harmless : HistoryInput → Bool
  | .save input => input.harmless
  | _ => true

namespace HistoryService

section Undisturbed

variable {ι : Type} [DecidableEq ι] {rpc : ι → Rpc} {pg : Pg} {alone : ι → Prop}
  {s s' : HistoryService ι} {out o : List (ι × Finished)} {i : ι}

/-- The runs of the service in which nothing fails the `SaveEvents` of these
calls from outside. -/
def undisturbed (rpc : ι → Rpc) (pg : Pg) (alone : ι → Prop) :
    Machine (HistoryService ι) (ι × Finished) :=
  .ofFnWhere (· = { handlers := fun i => Call.start (rpc i) }) (next pg) (writes pg)
    fun _ p => alone p.1 → p.2.harmless = true

/-- Nor is the repository under it disturbed. -/
theorem repo_step (h : (undisturbed rpc pg alone).step s o s') :
    (s'.repo = s.repo ∧ o = []) ∨ (Repo.undisturbed ι pg alone).step s.repo o s'.repo := by
  obtain ⟨⟨i, input⟩, hinput, hn, rfl⟩ := h
  cases input with
  | handler input =>
      simp only [next] at hn
      split at hn
      · cases hn
      · obtain ⟨c, -, rfl⟩ := Option.map_eq_some_iff.mp hn
        exact Or.inl ⟨rfl, rfl⟩
  | execute =>
      obtain ⟨events, -, hn⟩ := Option.bind_eq_some_iff.mp hn
      obtain ⟨repo, hrepo, rfl⟩ := Option.map_eq_some_iff.mp hn
      exact Or.inr ⟨_, fun _ => rfl, hrepo, (Repo.writes_of_outside rfl hrepo).symm⟩
  | save input =>
      simp only [next] at hn
      split at hn
      · obtain ⟨repo, hrepo, rfl⟩ := Option.map_eq_some_iff.mp hn
        exact Or.inr ⟨_, hinput, hrepo, rfl⟩
      · cases hn
  | resume =>
      obtain ⟨outcome, -, hn⟩ := Option.bind_eq_some_iff.mp hn
      obtain ⟨c, -, hn⟩ := Option.bind_eq_some_iff.mp hn
      obtain ⟨repo, hrepo, rfl⟩ := Option.map_eq_some_iff.mp hn
      exact Or.inr ⟨_, fun _ => rfl, hrepo, (Repo.writes_of_outside rfl hrepo).symm⟩

theorem repo_run (h : (undisturbed rpc pg alone).Run s out) :
    (Repo.undisturbed ι pg alone).Run s.repo out := by
  induction h with
  | start hinit =>
      obtain rfl := hinit
      exact .start rfl
  | step _ hstep ih =>
      rcases repo_step hstep with ⟨hsame, rfl⟩ | hrepo
      · rw [hsame, List.append_nil]
        exact ih
      · exact ih.step hrepo

/-- A step of anybody. -/
theorem judged_step (h : (undisturbed rpc pg alone).Run s out)
    (hstep : (undisturbed rpc pg alone).step s o s') (hi : alone i)
    (hj : Judged pg (rpc i) (s.handlers i)) : Judged pg (rpc i) (s'.handlers i) := by
  have hinv := inv_run (Machine.run_of_where h)
  obtain ⟨a, -, ha⟩ := hstep
  cases step_cases (show (machine rpc pg).step s o s' from ⟨a, ha⟩) with
  | @handler j input c hinput hc =>
      by_cases hij : i = j
      · subst hij
        simp only [Function.update_self]
        refine hj.next hc fun events outcome _ hexecute => ?_
        rw [hexecute] at hinput
        cases hinput
      · simp only [Function.update_of_ne hij]
        exact hj
  | execute _ _ => exact hj
  | save _ _ => exact hj
  | @resume j outcome c repo houtcome hc _ =>
      by_cases hij : i = j
      · subst hij
        have hpc : (s.repo.calls i).pc ≠ .idle := by
          intro hidle
          rw [hidle] at houtcome
          cases houtcome
        simp only [Function.update_self]
        refine hj.next hc fun events outcome' hevents hexecute => ?_
        obtain rfl := Input.execute.inj hexecute
        obtain rfl := Option.some.inj (hevents.symm.trans (hinv.blocked i hpc))
        exact Repo.outcome_run (repo_run h) hi houtcome
      · simp only [Function.update_of_ne hij]
        exact hj

theorem judged_run (h : (undisturbed rpc pg alone).Run s out) (hi : alone i) :
    Judged pg (rpc i) (s.handlers i) := by
  induction h with
  | start hinit =>
      obtain rfl := hinit
      exact judged_start pg (rpc i)
  | step hrun hstep ih => exact judged_step hrun hstep hi ih

/-- A stream that is answered. -/
theorem stream_judged (h : (undisturbed rpc pg alone).Run s out) (hi : alone i) {c : StreamCall}
    (hc : s.handlers i = .saveEventsStream c) {status : Grpc.Status}
    {response : SaveEventsResponse} (hdone : c.pc = .done status response) :
    response.success = true ↔
      c.readEnded = true ∧ ∀ r ∈ c.received, Insertable pg (toDtoEvent r.getEvent) := by
  have hjudged := judged_run h hi
  rw [hc] at hjudged
  have hbatches : ∀ b ∈ c.executed, b.2 = true ↔ ∀ event ∈ b.1, Insertable pg event := by
    cases hrpc : rpc i with
    | saveEvent request =>
        rw [hrpc] at hjudged
        cases hjudged
    | saveEventsStream =>
        rw [hrpc] at hjudged
        exact hjudged
  obtain ⟨store, hservice, -⟩ := (inv_run (Machine.run_of_where h)).service
  have hcall := StreamCall.inv_run (Call.stream_run (hservice.component i) c hc)
  have hanswered := hcall.answered hdone
  constructor
  · intro hsuccess
    refine ⟨(hanswered.success.mp hsuccess).1, ?_⟩
    intro r hr
    have hmem : toDtoEvent r.getEvent ∈ c.accepted.flatten := by
      rw [← hanswered.out_eq, (hanswered.complete hsuccess).2]
      exact List.mem_map.mpr ⟨r, hr, rfl⟩
    obtain ⟨events, hevents, he⟩ := List.mem_flatten.mp hmem
    obtain ⟨b, hb, rfl⟩ := List.mem_map.mp hevents
    obtain ⟨hb, hok⟩ := List.mem_filter.mp hb
    exact (hbatches b hb).mp hok _ he
  · rintro ⟨hread, hall⟩
    refine hanswered.success.mpr ⟨hread, fun b hb => (hbatches b hb).mpr fun event he => ?_⟩
    obtain ⟨rs, hrs, -, -, hpassed⟩ := hanswered.handled
    have hmem : event ∈ c.passed :=
      List.mem_flatten.mpr ⟨b.1, List.mem_map.mpr ⟨b, hb, rfl⟩, he⟩
    obtain ⟨r, hr, rfl⟩ := List.mem_map.mp (hpassed.subset hmem)
    exact hall r (hrs.subset hr)

/-- **What the two saving calls answer.** Any number of calls are served at once,
and whatever happens to the others: where nothing fails the repository of a call
from outside, a unary call answers success exactly when its request is valid and
each of its events is insertable, and a stream exactly when it has been read to
its end and each of its events is insertable. -/
theorem answered_iff_insertable (h : (undisturbed rpc pg alone).Run s out) (hi : alone i) :
    (∀ request status response, rpc i = .saveEvent request →
        s.handlers i = .saveEvent (.done status response) →
        (response.success = true ↔ (validateSaveEventRequest request).isOk = true
          ∧ ∀ e ∈ request.event, Insertable pg (toDtoEvent e)))
      ∧ ∀ c status response, s.handlers i = .saveEventsStream c → c.pc = .done status response →
        (response.success = true ↔
          c.readEnded = true ∧ ∀ r ∈ c.received, Insertable pg (toDtoEvent r.getEvent)) := by
  refine ⟨?_, fun c status response hc hdone => stream_judged h hi hc hdone⟩
  intro request status response hrpc hdone
  have hjudged := judged_run h hi
  rw [hrpc, hdone] at hjudged
  exact hjudged

end Undisturbed

/-- A unary call with an event that is refused, and a stream with one that is
saved. -/
def twoCalls : Bool → Rpc
  | false => .saveEvent { event := [sampleMessage.getEvent, undeclared] }
  | true => .saveEventsStream

def twoCallsInputs : List (Bool × HistoryInput) :=
  [(false, .handler .proceed), (true, .handler (.read (some sampleMessage))), (false, .execute),
    (false, .save .proceed), (false, .save (.insertEvent 1)), (true, .handler .proceed),
    (true, .handler (.isCancelled false)), (false, .save .proceed), (true, .handler (.read none)),
    (true, .execute), (true, .save .proceed), (false, .save (.insertEvent 2)), (false, .resume),
    (true, .save (.insertEvent 3)), (true, .save .proceed), (true, .save .proceed),
    (true, .resume)]

theorem twoCalls_run : ∃ s out c message,
    (undisturbed twoCalls samplePg fun _ => True).Run s out
      ∧ s.handlers false = .saveEvent (.done .ok { message := "[Postgres] error" })
      ∧ s.handlers true = .saveEventsStream c ∧ c.received = [sampleMessage]
      ∧ c.pc = .done .ok { success := true, message } := by
  have hinputs : ∀ a ∈ twoCallsInputs, a.2.harmless = true := by decide
  have hrun := (Machine.Run.start
    (M := undisturbed twoCalls samplePg fun _ => True) rfl).steps
    (Machine.steps_of_feed_where (l := twoCallsInputs) (fun a ha _ _ => hinputs a ha) rfl)
  exact ⟨_, _, _, _, hrun, rfl, rfl, rfl, rfl⟩

/-- So the event of the stream is insertable, and one of the other call is not. -/
theorem answered_iff_insertable_sample :
    Insertable samplePg sampleEvent
      ∧ ¬∀ e ∈ [sampleMessage.getEvent, undeclared], Insertable samplePg (toDtoEvent e) := by
  obtain ⟨s, out, c, message, hrun, hunary, hstream, hreceived, hdone⟩ := twoCalls_run
  have hsaved := (answered_iff_insertable hrun (i := true) trivial).2 c _ _ hstream hdone
  have hrefused := (answered_iff_insertable hrun (i := false) trivial).1 _ _ _ rfl hunary
  refine ⟨?_, fun hall => ?_⟩
  · exact (hsaved.mp rfl).2 sampleMessage (by rw [hreceived]; exact List.mem_singleton_self _)
  · cases hrefused.mpr ⟨by decide, hall⟩

end HistoryService

end EventHistory
