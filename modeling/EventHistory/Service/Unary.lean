import EventHistory.Service.OverPostgres
import EventHistory.Db.Consistency

/-!
# A unary call over the tables

`SaveEvent` from its arrival to its answer, with `PostgresEventsRepo` under it
and any other calls beside it. `Handling` says where the call can be and which
`SaveEvents` has returned for it; every step of its own keeps that and lowers
a measure, and the steps of the others do not touch it. What the tables gain
in the meantime are the events of the calls that returned success, so those
of the request are there in one piece, or none of them is.

`Acquire` is called outside the `try` block of `SaveEvents`. It is called
without a timeout, and then does not throw (`Pool.untimed_never_throws`).
-/

namespace EventHistory

open Proto Transition
open Grpc (Status)

namespace HistoryService

variable {ι : Type}

/-- `Acquire` does not throw. -/
def AcquireWaits (s : HistoryService ι) : ι × HistoryInput → Prop
  | (i, .save (.fail _)) => (s.repo.calls i).pc ≠ .entered
  | _ => True

variable [DecidableEq ι]

/-- The service over a pool whose `Acquire` waits. -/
def pooled (rpc : ι → Rpc) (pg : Pg) : Machine (HistoryService ι) (ι × Finished) :=
  .ofFnWhere (· = { handlers := fun i => Call.start (rpc i) }) (next pg) (writes pg) AcquireWaits

/-! ## The steps of one call -/

/-- A step of a call: of its handler, or of its `SaveEvents`. -/
inductive OwnStep (pg : Pg) (db : Db) (handler : Call) (c : SaveCall) :
    List Finished → Db → Call → SaveCall → Prop
  | handler {input : Input} {handler' : Call} :
      input.isExecute = false → handler.next input = some handler' →
      OwnStep pg db handler c [] db handler' c
  | execute {events : List Dto.Event} :
      handler.executing = some events → c.pc = .idle →
      OwnStep pg db handler c [] db handler { events, pc := .entered }
  | save {input : SaveInput} {db' : Db} {c' : SaveCall} :
      input.inside = true → (∀ what, input = .fail what → c.pc ≠ .entered) →
      SaveCall.Step pg db c input db' c' → OwnStep pg db handler c (c.finished c') db' handler c'
  | resume {outcome : Outcome} {handler' : Call} :
      c.pc.outcome = some outcome → handler.next (.execute outcome) = some handler' →
      OwnStep pg db handler c [] db handler' {}

/-- The state after a step of call `i`. -/
def moved (s : HistoryService ι) (i : ι) (db : Db) (handler : Call) (c : SaveCall) :
    HistoryService ι where
  handlers := Function.update s.handlers i handler
  repo := { db, calls := Function.update s.repo.calls i c }

/-- Every step is one of the call it names, and leaves the others alone. -/
theorem next_cases {pg : Pg} {s s' : HistoryService ι} {i : ι} {input : HistoryInput}
    (hn : next pg s (i, input) = some s') (hwaits : s.AcquireWaits (i, input)) :
    ∃ o db' handler' c',
      OwnStep pg s.repo.db (s.handlers i) (s.repo.calls i) o db' handler' c'
      ∧ s' = s.moved i db' handler' c' ∧ writes pg s (i, input) = o.map fun f => (i, f) := by
  have hcalls : ∀ handler', s.moved i s.repo.db handler' (s.repo.calls i) =
      { s with handlers := Function.update s.handlers i handler' } := by
    intro handler'
    rw [moved, Function.update_eq_self]
  have hhandlers : ∀ db' c', s.moved i db' (s.handlers i) c' =
      { s with repo := { db := db', calls := Function.update s.repo.calls i c' } } := by
    intro db' c'
    rw [moved, Function.update_eq_self]
  cases input with
  | handler input =>
      simp only [next] at hn
      split at hn
      · cases hn
      · rename_i hinput
        obtain ⟨handler', hhandler, rfl⟩ := Option.map_eq_some_iff.mp hn
        exact ⟨_, _, _, _, .handler (by simpa using hinput) hhandler, (hcalls _).symm, rfl⟩
  | execute =>
      obtain ⟨events, hevents, hn⟩ := Option.bind_eq_some_iff.mp hn
      obtain ⟨repo, hrepo, rfl⟩ := Option.map_eq_some_iff.mp hn
      obtain ⟨db', c', hc, rfl, -⟩ := Repo.next_cases hrepo
      obtain ⟨hidle, rfl, rfl⟩ := SaveCall.call_next hc
      exact ⟨_, _, _, _, .execute hevents hidle, (hhandlers _ _).symm, rfl⟩
  | save input =>
      simp only [next] at hn
      split at hn
      · rename_i hinput
        obtain ⟨repo, hrepo, rfl⟩ := Option.map_eq_some_iff.mp hn
        obtain ⟨db', c', hc, rfl, hwrites⟩ := Repo.next_cases hrepo
        refine ⟨_, _, _, _, .save hinput ?_ (SaveCall.step_of_next hc), (hhandlers _ _).symm,
          hwrites⟩
        rintro what rfl
        exact hwaits
      · cases hn
  | resume =>
      obtain ⟨outcome, houtcome, hn⟩ := Option.bind_eq_some_iff.mp hn
      obtain ⟨handler', hhandler, hn⟩ := Option.bind_eq_some_iff.mp hn
      obtain ⟨repo, hrepo, rfl⟩ := Option.map_eq_some_iff.mp hn
      obtain ⟨db', c', hc, rfl, -⟩ := Repo.next_cases hrepo
      obtain ⟨rfl, rfl⟩ := SaveCall.leave_next hc
      exact ⟨_, _, _, _, .resume houtcome hhandler, rfl, rfl⟩

/-- Only the return of a `SaveEvents` adds to the tables. -/
theorem OwnStep.gained {pg : Pg} {db db' : Db} {handler handler' : Call} {c c' : SaveCall}
    {o : List Finished} (hc : c.Inv pg) (h : OwnStep pg db handler c o db' handler' c') :
    Tables.Gained pg db.tables db'.tables (savedEvents o) := by
  cases h with
  | save hinside hwaits hs => exact SaveCall.gained_step hc hs
  | _ => exact .refl

end HistoryService

/-! ## Where the call can be -/

/-- Inside `SaveEvents`, and not back yet. -/
def SavePc.isRunning : SavePc → Bool
  | .entered | .loop _ | .payload _ _ _ => true
  | _ => false

/-- The steps that a `SaveEvents` can still take, its return included. -/
def SaveCall.remaining (c : SaveCall) : Nat :=
  match c.pc with
  | .idle => 0
  | .entered => 2 * c.events.length + 3
  | .loop rest => 2 * rest.length + 2
  | .payload _ _ rest => 2 * rest.length + 3
  | .returned _ | .threw _ => 1

/-- A step inside `SaveEvents` goes on or returns, and comes closer to its
end. -/
theorem SaveCall.running_step {pg : Pg} {db db' : Db} {c c' : SaveCall} {input : SaveInput}
    (hinside : input.inside = true) (hwaits : ∀ what, input = .fail what → c.pc ≠ .entered)
    (h : Step pg db c input db' c') :
    c.pc.isRunning = true ∧ c'.events = c.events ∧ c'.remaining < c.remaining
      ∧ ((c'.pc.isRunning = true ∧ c.finished c' = [])
        ∨ ∃ result, c'.pc = .returned result ∧ c.finished c' = [⟨c.events, result⟩]) := by
  cases h with
  | call events hpc => cases hinside
  | leave hpc => cases hinside
  | acquireThrows what hpc => exact absurd hpc (hwaits what rfl)
  | nothing hpc hempty => simp [remaining, finished, hpc, SavePc.isRunning]
  | acquire hpc hne => simp [remaining, finished, hpc, SavePc.isRunning]
  | insertEvent hpc hnew hrow =>
      simp [remaining, finished, hpc, SavePc.isRunning]
      omega
  | eventRefused id what hpc => simp [remaining, finished, hpc, fail, SavePc.isRunning]
  | insertPayload hpc hrow => simp [remaining, finished, hpc, SavePc.isRunning]
  | payloadRefused what hpc => simp [remaining, finished, hpc, fail, SavePc.isRunning]
  | commit hpc => simp [remaining, finished, hpc, SavePc.isRunning]
  | failed what hpc =>
      rcases hpc with ⟨rest, hpc⟩ | ⟨eventId, event, rest, hpc⟩
      · simp [remaining, finished, hpc, fail, SavePc.isRunning]
      · simp [remaining, finished, hpc, fail, SavePc.isRunning]

/-- Where a unary call is between its arrival and its answer, and which
`SaveEvents` has returned for it: none, or the one with all its events. -/
inductive Handling (request : SaveEventRequest) : Call → SaveCall → List Finished → Prop
  | received {c : SaveCall} :
      c.pc = .idle → Handling request (.saveEvent (.received request)) c []
  | rejected {c : SaveCall} :
      (validateSaveEventRequest request).isOk = false → c.pc = .idle →
      Handling request (.saveEvent (.done (validateSaveEventRequest request) {})) c []
  | execute {c : SaveCall} :
      (validateSaveEventRequest request).isOk = true → c.pc = .idle →
      Handling request (.saveEvent (.execute (request.event.map toDtoEvent))) c []
  | running {c : SaveCall} :
      (validateSaveEventRequest request).isOk = true → c.pc.isRunning = true →
      c.events = request.event.map toDtoEvent →
      Handling request (.saveEvent (.execute (request.event.map toDtoEvent))) c []
  | executed {c : SaveCall} {result : VoidResult} :
      (validateSaveEventRequest request).isOk = true → c.pc = .returned result →
      Handling request (.saveEvent (.execute (request.event.map toDtoEvent))) c
        [⟨request.event.map toDtoEvent, result⟩]
  | answered {c : SaveCall} {result : VoidResult} {message : String} :
      (validateSaveEventRequest request).isOk = true → c.pc = .idle →
      Handling request (.saveEvent (.done .ok { success := result.success, message })) c
        [⟨request.event.map toDtoEvent, result⟩]

/-- The steps that the call can still take. -/
def unaryWork : Call → SaveCall → Nat
  | .saveEvent (.received request), _ => 2 * request.event.length + 5
  | .saveEvent (.execute events), c =>
      match c.pc with
      | .idle => 2 * events.length + 4
      | _ => c.remaining
  | _, _ => 0

namespace Handling

variable {request : SaveEventRequest} {handler handler' : Call} {c c' : SaveCall}
  {own o : List Finished} {pg : Pg} {db db' : Db}

theorem unaryWork_execute {events : List Dto.Event} (hpc : c.pc ≠ .idle) :
    unaryWork (.saveEvent (.execute events)) c = c.remaining := by
  simp only [unaryWork]

theorem ne_idle_of_isRunning {pc : SavePc} (h : pc.isRunning = true) : pc ≠ .idle := by
  rintro rfl
  cases h

theorem outcome_of_isRunning {pc : SavePc} (h : pc.isRunning = true) : pc.outcome = none := by
  cases pc with
  | returned result => cases h
  | threw what => cases h
  | _ => rfl

/-- The handler validates the request, and calls the use case or answers. -/
theorem handler_step {input : Input} (h : Handling request handler c own)
    (hinput : input.isExecute = false) (hn : handler.next input = some handler') :
    Handling request handler' c own ∧ unaryWork handler' c < unaryWork handler c := by
  have hblocked : ∀ {events}, handler.executing = some events → handler.next input = none :=
    fun hevents => Call.next_of_executing hevents hinput
  cases h with
  | received hpc =>
      obtain ⟨call, hcall, rfl⟩ := Option.map_eq_some_iff.mp hn
      cases input with
      | proceed =>
          simp only [SaveEventCall.next] at hcall
          split at hcall
          · rename_i hvalid
            obtain rfl := Option.some.inj hcall
            refine ⟨.execute hvalid hpc, ?_⟩
            simp [unaryWork, hpc]
          · rename_i hvalid
            obtain rfl := Option.some.inj hcall
            exact ⟨.rejected (Bool.eq_false_iff.mpr hvalid) hpc, Nat.succ_pos _⟩
      | _ => cases hcall
  | rejected _ _ => cases hn
  | answered _ _ => cases hn
  | execute _ _ => cases (hblocked rfl).symm.trans hn
  | running _ _ _ => cases (hblocked rfl).symm.trans hn
  | executed _ _ => cases (hblocked rfl).symm.trans hn

/-- `SaveEvents` is called. -/
theorem execute_step {events : List Dto.Event} (h : Handling request handler c own)
    (hevents : handler.executing = some events) (hidle : c.pc = .idle) :
    Handling request handler { events, pc := .entered } own
      ∧ unaryWork handler { events, pc := .entered } < unaryWork handler c := by
  cases h with
  | execute hvalid hpc =>
      obtain rfl := Option.some.inj hevents
      refine ⟨.running hvalid rfl rfl, ?_⟩
      simp [unaryWork, SaveCall.remaining, hpc]
  | running _ hrun _ => exact absurd hidle (ne_idle_of_isRunning hrun)
  | executed _ hpc => cases hpc.symm.trans hidle
  | received _ => cases hevents
  | rejected _ _ => cases hevents
  | answered _ _ => cases hevents

/-- It goes on, or returns. -/
theorem save_step {input : SaveInput} (h : Handling request handler c own)
    (hinside : input.inside = true) (hwaits : ∀ what, input = .fail what → c.pc ≠ .entered)
    (hs : SaveCall.Step pg db c input db' c') :
    Handling request handler c' (own ++ c.finished c')
      ∧ unaryWork handler c' < unaryWork handler c := by
  obtain ⟨hrun, hkeep, hlt, hafter⟩ := SaveCall.running_step hinside hwaits hs
  cases h with
  | running hvalid _ hevents =>
      rcases hafter with ⟨hrun', hnone⟩ | ⟨result, hpc', hone⟩
      · rw [hnone, unaryWork_execute (ne_idle_of_isRunning hrun'),
          unaryWork_execute (ne_idle_of_isRunning hrun)]
        exact ⟨.running hvalid hrun' (hkeep.trans hevents), hlt⟩
      · rw [hone, hevents, unaryWork_execute (by rw [hpc']; exact SavePc.noConfusion),
          unaryWork_execute (ne_idle_of_isRunning hrun)]
        exact ⟨.executed hvalid hpc', hlt⟩
  | executed _ hpc =>
      rw [hpc] at hrun
      cases hrun
  | received hpc => exact absurd hpc (ne_idle_of_isRunning hrun)
  | rejected _ hpc => exact absurd hpc (ne_idle_of_isRunning hrun)
  | execute _ hpc => exact absurd hpc (ne_idle_of_isRunning hrun)
  | answered _ hpc => exact absurd hpc (ne_idle_of_isRunning hrun)

/-- The handler sees the result, and answers. -/
theorem resume_step {outcome : Outcome} (h : Handling request handler c own)
    (houtcome : c.pc.outcome = some outcome)
    (hn : handler.next (.execute outcome) = some handler') :
    Handling request handler' {} own ∧ unaryWork handler' {} < unaryWork handler c := by
  cases h with
  | executed hvalid hpc =>
      rw [hpc] at houtcome
      obtain rfl := Option.some.inj houtcome
      obtain rfl := Option.some.inj hn
      refine ⟨.answered hvalid rfl, ?_⟩
      rw [unaryWork_execute (by rw [hpc]; exact SavePc.noConfusion), SaveCall.remaining, hpc]
      exact Nat.succ_pos 0
  | execute _ hpc =>
      rw [hpc] at houtcome
      cases houtcome
  | running _ hrun _ =>
      rw [outcome_of_isRunning hrun] at houtcome
      cases houtcome
  | received _ => cases hn
  | rejected _ _ => cases hn
  | answered _ _ => cases hn

/-- Every step of the call keeps its place, and comes closer to the answer. -/
theorem step (h : Handling request handler c own)
    (hs : HistoryService.OwnStep pg db handler c o db' handler' c') :
    Handling request handler' c' (own ++ o) ∧ unaryWork handler' c' < unaryWork handler c := by
  cases hs with
  | handler hinput hn =>
      rw [List.append_nil]
      exact h.handler_step hinput hn
  | execute hevents hidle =>
      rw [List.append_nil]
      exact h.execute_step hevents hidle
  | save hinside hwaits hs => exact h.save_step hinside hwaits hs
  | resume houtcome hn =>
      rw [List.append_nil]
      exact h.resume_step houtcome hn

/-- Until it is answered, the call has a step to take. -/
theorem progress {ι : Type} [DecidableEq ι] {s : HistoryService ι} {i : ι} (pg : Pg)
    (h : Handling request (s.handlers i) (s.repo.calls i) own)
    (hopen : ¬∃ status response, s.handlers i = .saveEvent (.done status response)) :
    ∃ input, s.AcquireWaits (i, input) ∧ (HistoryService.next pg s (i, input)).isSome = true := by
  generalize hhandler : s.handlers i = handler at h hopen
  generalize hcall : s.repo.calls i = c at h
  cases h with
  | received hpc =>
      refine ⟨.handler .proceed, trivial, ?_⟩
      simp only [HistoryService.next, Input.isExecute, hhandler, Call.next, SaveEventCall.next,
        Bool.false_eq_true, if_false]
      split
      · rfl
      · rfl
  | rejected hvalid hpc => exact absurd ⟨_, _, rfl⟩ hopen
  | execute hvalid hpc =>
      refine ⟨.execute, trivial, ?_⟩
      simp [HistoryService.next, hhandler, Call.executing, Repo.next, hcall, SaveCall.next, hpc]
  | running hvalid hrun hevents =>
      cases hpc : c.pc with
      | entered =>
          refine ⟨.save .proceed, trivial, ?_⟩
          simp [HistoryService.next, SaveInput.inside, Repo.next, hcall, SaveCall.next, hpc]
      | loop rest =>
          refine ⟨.save (.fail ""), ?_, ?_⟩
          · simp [HistoryService.AcquireWaits, hcall, hpc]
          · simp [HistoryService.next, SaveInput.inside, Repo.next, hcall, SaveCall.next, hpc]
      | payload eventId event rest =>
          refine ⟨.save .proceed, trivial, ?_⟩
          simp [HistoryService.next, SaveInput.inside, Repo.next, hcall, SaveCall.next, hpc]
      | _ =>
          rw [hpc] at hrun
          cases hrun
  | executed hvalid hpc =>
      refine ⟨.resume, trivial, ?_⟩
      simp [HistoryService.next, hhandler, Call.next, SaveEventCall.next, SavePc.outcome, Repo.next,
        hcall, SaveCall.next, hpc]
  | answered hvalid hpc => exact absurd ⟨_, _, rfl⟩ hopen

end Handling

namespace HistoryService

section Unary

variable {ι : Type} [DecidableEq ι] {rpc : ι → Rpc} {pg : Pg} {s s' : HistoryService ι} {i : ι}
  {request : SaveEventRequest} {out o o₀ : List (ι × Finished)} {own : List Finished}

/-- The layers below see the runs of the whole. -/
theorem inv_pooled (h : (pooled rpc pg).Run s out) : s.Inv rpc pg out :=
  inv_run (Machine.run_of_where h)

/-- A step of anybody. -/
theorem handling_step (h : Handling request (s.handlers i) (s.repo.calls i) (share i o₀))
    (hs : (pooled rpc pg).step s o s') :
    Handling request (s'.handlers i) (s'.repo.calls i) (share i (o₀ ++ o)) := by
  obtain ⟨⟨j, input⟩, hwaits, hn, rfl⟩ := hs
  obtain ⟨o, db', handler', c', hown, rfl, hwrites⟩ := next_cases hn hwaits
  rw [hwrites, share_append]
  by_cases hij : j = i
  · subst hij
    simp only [moved, share_tag_self, Function.update_self]
    exact (h.step hown).1
  · simp only [moved, share_tag_of_ne hij, Function.update_of_ne (Ne.symm hij), List.append_nil]
    exact h

/-- From the arrival of the request on. -/
theorem handling_steps (h : (pooled rpc pg).Run s out)
    (hi : s.handlers i = .saveEvent (.received request)) (hs : (pooled rpc pg).Steps s o s') :
    Handling request (s'.handlers i) (s'.repo.calls i) (share i o) := by
  induction hs with
  | refl =>
      have hidle : (s.repo.calls i).pc = .idle := by
        by_contra hne
        have hexec := (inv_pooled h).blocked i hne
        rw [hi] at hexec
        cases hexec
      rw [hi]
      exact .received hidle
  | tail _ hstep ih => exact handling_step ih hstep

/-- What the tables gain are the events of the calls that returned success. -/
theorem gained_steps (h : (pooled rpc pg).Run s out) (hs : (pooled rpc pg).Steps s o s') :
    Tables.Gained pg s.repo.db.tables s'.repo.db.tables (savedEvents (o.map (·.2))) := by
  induction hs with
  | refl => exact .refl
  | @tail s₁ s₂ o o' hsteps hstep ih =>
      rw [List.map_append, savedEvents_append, Tables.gained_append]
      refine ⟨_, ih, ?_⟩
      have hr := Repo.inv_run (inv_pooled (h.steps hsteps)).repo
      obtain ⟨⟨j, input⟩, hwaits, hn, rfl⟩ := hstep
      obtain ⟨o'', db', handler', c', hown, rfl, hwrites⟩ := next_cases hn hwaits
      have hfinished : (o''.map fun f => (j, f)).map (·.2) = o'' := by
        simp
      rw [hwrites, hfinished]
      exact hown.gained (hr.calls j)

/-- The call can always go on to its answer, in steps of its own. -/
theorem exists_answer (h : Handling request (s.handlers i) (s.repo.calls i) own) :
    ∃ o s', (pooled rpc pg).Steps s o s'
      ∧ ∃ status response, s'.handlers i = .saveEvent (.done status response) := by
  refine Machine.Steps.reach
    (I := fun s => ∃ own, Handling request (s.handlers i) (s.repo.calls i) own)
    (fun s => unaryWork (s.handlers i) (s.repo.calls i)) ?_ ⟨own, h⟩
  rintro s ⟨own, h⟩ hopen
  obtain ⟨input, hwaits, hn⟩ := h.progress pg hopen
  obtain ⟨s', hn⟩ := Option.isSome_iff_exists.mp hn
  obtain ⟨o, db', handler', c', hown, rfl, -⟩ := next_cases hn hwaits
  obtain ⟨hs', hlt⟩ := h.step hown
  refine ⟨_, _, ⟨_, hwaits, hn, rfl⟩, ⟨own ++ o, ?_⟩, ?_⟩
  · simp only [moved, Function.update_self]
    exact hs'
  · simp only [moved, Function.update_self]
    exact hlt

end Unary

end HistoryService

/-! ## All events or none -/

section Ending

variable {ι : Type} [DecidableEq ι]

/-- The `SaveEvents` of the others that have returned. -/
def others (i : ι) (o : List (ι × Finished)) : List Finished := (o.filter (·.1 ≠ i)).map (·.2)

/-- From `t` to `t'`, while the calls `o` returned, call `i` has added the rows
of these events in one piece; the other rows that were gained are those of the
other calls. -/
def Adds (pg : Pg) (i : ι) (t t' : Tables) (o : List (ι × Finished)) (events : List Dto.Event) :
    Prop :=
  ∃ t₁ t₂ before after, Tables.Gained pg t t₁ before ∧ Tables.Gained pg t₁ t₂ events
    ∧ Tables.Gained pg t₂ t' after ∧ before ++ after = savedEvents (others i o)

/-- Some event is one that `ValidateEvent` rejects, or there is none. -/
def Refused (request : SaveEventRequest) : Prop :=
  request.event = [] ∨ ∃ e ∈ request.event, (validateEvent e).isOk = false

/-- How a unary call ends. -/
inductive Ending where
  | rejected
  | saved
  | failed

/-- Its status, its response and what it has added, for each ending. -/
def Ending.Of (pg : Pg) (i : ι) (request : SaveEventRequest) (status : Status)
    (response : SaveEventsResponse) (t t' : Tables) (o : List (ι × Finished)) : Ending → Prop
  | .rejected =>
      status.code = .invalidArgument ∧ Refused request ∧ share i o = [] ∧ Adds pg i t t' o []
  | .saved =>
      status.code = .ok ∧ response.success = true
        ∧ Adds pg i t t' o (request.event.map toDtoEvent)
  | .failed => status.code = .ok ∧ response.success = false ∧ Adds pg i t t' o []

variable {pg : Pg} {i : ι} {request : SaveEventRequest} {t t' : Tables}
  {o : List (ι × Finished)}

theorem refused_iff : Refused request ↔ (validateSaveEventRequest request).isOk = false := by
  rw [← Bool.not_eq_true, validateSaveEventRequest_isOk, Refused, not_and_or, not_not]
  simp [validateEvent_isOk, ← Bool.not_eq_true]

theorem others_of_share_eq_nil (h : share i o = []) : others i o = o.map (·.2) := by
  unfold others
  rw [List.filter_eq_self.mpr]
  rintro ⟨j, f⟩ hmem
  have hne : j ≠ i := by
    rintro rfl
    have hf := mem_share.mpr hmem
    rw [h] at hf
    cases hf
  simpa using hne

theorem others_append (i : ι) (o o' : List (ι × Finished)) :
    others i (o ++ o') = others i o ++ others i o' := by
  simp [others]

/-- No `SaveEvents` has returned for the call. -/
theorem adds_nil (h : Tables.Gained pg t t' (savedEvents (o.map (·.2)))) (hi : share i o = []) :
    Adds pg i t t' o [] := by
  refine ⟨t', t', _, [], h, .refl, .refl, ?_⟩
  rw [others_of_share_eq_nil hi, List.append_nil]

/-- One has. -/
theorem adds_returned {events : List Dto.Event} {result : VoidResult}
    (h : Tables.Gained pg t t' (savedEvents (o.map (·.2))))
    (hi : share i o = [⟨events, result⟩]) :
    Adds pg i t t' o (if result.success then events else []) := by
  obtain ⟨before, after, rfl, hbefore, hafter⟩ := exists_of_share_eq_singleton hi
  rw [List.map_append, savedEvents_append, List.map_cons, ← List.singleton_append,
    savedEvents_append, savedEvents_singleton, Tables.gained_append] at h
  obtain ⟨t₁, h₁, h⟩ := h
  obtain ⟨t₂, h₂, h₃⟩ := Tables.gained_append.mp h
  refine ⟨t₁, t₂, _, _, h₁, h₂, h₃, ?_⟩
  have hself : others i [(i, (⟨events, result⟩ : Finished))] = [] := by
    simp [others]
  rw [← List.singleton_append, others_append, others_append, hself, List.nil_append,
    others_of_share_eq_nil hbefore, others_of_share_eq_nil hafter, savedEvents_append]

/-- At any time the call has added all its events or none. -/
theorem Handling.adds {handler : Call} {c : SaveCall}
    (h : Handling request handler c (share i o))
    (hgained : Tables.Gained pg t t' (savedEvents (o.map (·.2)))) :
    Adds pg i t t' o [] ∨ Adds pg i t t' o (request.event.map toDtoEvent) := by
  have hreturned : ∀ result, share i o = [⟨request.event.map toDtoEvent, result⟩] →
      Adds pg i t t' o [] ∨ Adds pg i t t' o (request.event.map toDtoEvent) := by
    intro result hown
    have hadds := adds_returned hgained hown
    split at hadds
    · exact Or.inr hadds
    · exact Or.inl hadds
  generalize hown : share i o = own at h
  cases h with
  | executed _ _ => exact hreturned _ hown
  | answered _ _ => exact hreturned _ hown
  | _ => exact Or.inl (adds_nil hgained hown)

/-- A request that is refused is answered at once. -/
theorem Handling.of_refused {handler : Call} {c : SaveCall} {own : List Finished}
    (h : Handling request handler c own) (href : Refused request) :
    handler.executing = none ∧ c.pc = .idle := by
  have hinvalid := refused_iff.mp href
  cases h with
  | received hpc => exact ⟨rfl, hpc⟩
  | rejected _ hpc => exact ⟨rfl, hpc⟩
  | execute hvalid _ => exact absurd (hinvalid.symm.trans hvalid) Bool.false_ne_true
  | running hvalid _ _ => exact absurd (hinvalid.symm.trans hvalid) Bool.false_ne_true
  | executed hvalid _ => exact absurd (hinvalid.symm.trans hvalid) Bool.false_ne_true
  | answered hvalid _ => exact absurd (hinvalid.symm.trans hvalid) Bool.false_ne_true

/-- The answer says how the call has ended. -/
theorem Handling.ending {c : SaveCall} {status : Status} {response : SaveEventsResponse}
    (h : Handling request (.saveEvent (.done status response)) c (share i o))
    (hgained : Tables.Gained pg t t' (savedEvents (o.map (·.2)))) :
    ∃ ending, Ending.Of pg i request status response t t' o ending := by
  generalize hown : share i o = own at h
  cases h with
  | rejected hinvalid hpc =>
      exact ⟨.rejected, validateSaveEventRequest_code hinvalid, refused_iff.mpr hinvalid, hown,
        adds_nil hgained hown⟩
  | @answered c result message hvalid hpc =>
      have hadds := adds_returned hgained hown
      cases hsuccess : result.success with
      | true =>
          rw [if_pos hsuccess] at hadds
          exact ⟨.saved, rfl, rfl, hadds⟩
      | false =>
          rw [if_neg (Bool.eq_false_iff.mp hsuccess)] at hadds
          exact ⟨.failed, rfl, rfl, hadds⟩

theorem Ending.Of.unique {status : Status} {response : SaveEventsResponse} {a b : Ending}
    (ha : a.Of pg i request status response t t' o)
    (hb : b.Of pg i request status response t t' o) : a = b := by
  have hcode : status.code = .invalidArgument → status.code ≠ .ok := by
    intro hinvalid hok
    cases hinvalid.symm.trans hok
  have hsuccess : response.success = true → response.success ≠ false := by
    intro htrue hfalse
    cases htrue.symm.trans hfalse
  cases a with
  | rejected =>
      cases b with
      | rejected => rfl
      | saved => exact absurd hb.1 (hcode ha.1)
      | failed => exact absurd hb.1 (hcode ha.1)
  | saved =>
      cases b with
      | rejected => exact absurd ha.1 (hcode hb.1)
      | saved => rfl
      | failed => exact absurd hb.2.1 (hsuccess ha.2.1)
  | failed =>
      cases b with
      | rejected => exact absurd ha.1 (hcode hb.1)
      | saved => exact absurd ha.2.1 (hsuccess hb.2.1)
      | failed => rfl

end Ending

namespace HistoryService

/-- **`SaveEvent` is atomic and honest.** From the moment its request has
arrived, and whatever fails and whoever else is served: at any time it has
added all its events or none; a request that is empty or carries an invalid
event never reaches the use case; it can always go on to an answer; and with
the answer exactly one of three things has happened: `INVALID_ARGUMENT` for a
request that is refused and nothing added, success and all events added in
the order of the request, or no success and nothing added. -/
theorem saveEvent_atomic {ι : Type} [DecidableEq ι] {rpc : ι → Rpc} {pg : Pg}
    {s s' : HistoryService ι} {out o : List (ι × Finished)} (h : (pooled rpc pg).Run s out) {i : ι}
    {request : SaveEventRequest} (hi : s.handlers i = .saveEvent (.received request))
    (hs : (pooled rpc pg).Steps s o s') :
    (Adds pg i s.repo.db.tables s'.repo.db.tables o []
      ∨ Adds pg i s.repo.db.tables s'.repo.db.tables o (request.event.map toDtoEvent))
    ∧ (Refused request → (s'.handlers i).executing = none ∧ (s'.repo.calls i).pc = .idle)
    ∧ (∃ o' s'', (pooled rpc pg).Steps s' o' s''
        ∧ ∃ status response, s''.handlers i = .saveEvent (.done status response))
    ∧ ∀ status response, s'.handlers i = .saveEvent (.done status response) →
        ∃! ending, Ending.Of pg i request status response s.repo.db.tables s'.repo.db.tables o
          ending := by
  have hgained := gained_steps h hs
  have hcall := handling_steps h hi hs
  refine ⟨hcall.adds hgained, hcall.of_refused, exists_answer hcall, ?_⟩
  intro status response hdone
  rw [hdone] at hcall
  obtain ⟨ending, hending⟩ := hcall.ending hgained
  exact ⟨ending, hending, fun other hother => hother.unique hending⟩

/-- One call, whose event is saved. -/
theorem saveEvent_atomic_sample :
    ∃ s o response, (pooled sampleRpc samplePg).Steps
        { handlers := fun i => Call.start (sampleRpc i) } o s
      ∧ s.handlers false = .saveEvent (.done .ok response) ∧ response.success = true
      ∧ Adds samplePg false {} s.repo.db.tables o [sampleEvent] := by
  have h₀ : (pooled sampleRpc samplePg).Run { handlers := fun i => Call.start (sampleRpc i) } [] :=
    .start rfl
  have h₁ : (pooled sampleRpc samplePg).Steps
      { handlers := fun i => Call.start (sampleRpc i) } [] _ := .refl
  have h₂ := h₁.tail ⟨(false, .handler .proceed), trivial, rfl, rfl⟩
  have h₃ := h₂.tail ⟨(false, .execute), trivial, rfl, rfl⟩
  have h₄ := h₃.tail ⟨(false, .save .proceed), trivial, rfl, rfl⟩
  have h₅ := h₄.tail ⟨(false, .save (.insertEvent 1)), trivial, rfl, rfl⟩
  have h₆ := h₅.tail ⟨(false, .save .proceed), trivial, rfl, rfl⟩
  have h₇ := h₆.tail ⟨(false, .save .proceed), trivial, rfl, rfl⟩
  have hsteps := h₇.tail ⟨(false, .resume), trivial, rfl, rfl⟩
  obtain ⟨-, -, -, hended⟩ := saveEvent_atomic h₀ (i := false) rfl hsteps
  obtain ⟨ending, hending, -⟩ := hended _ _ rfl
  refine ⟨_, _, _, hsteps, rfl, rfl, ?_⟩
  cases ending with
  | rejected => cases hending.1
  | saved => exact hending.2.2
  | failed => cases hending.2.1

end HistoryService

end EventHistory
