import EventHistory.Db.SaveEvents
import EventHistory.Service.Concurrent

/-!
# The service over `PostgresEventsRepo`

The calls of `Service.Concurrent` with the repository of `Db.SaveEvents` in
the place of an arbitrary use case: a handler that calls `Execute` is blocked
in `SaveEvents`, on its own thread, until that returns or throws.

`HistoryService.inv_run` connects the two layers. Every run of the whole is a
run of the repository, and one of the abstract service, whose `Execute` saves
all its events at once or none: what a call has saved in the tables is its
share of the abstract store, but for the events of a `SaveEvents` that has
returned and whose result the handler has not yet seen.
-/

namespace EventHistory

open Proto Transition

/-- The events a handler has passed to `Execute`, while it is blocked there. -/
def Call.executing : Call → Option (List Dto.Event)
  | .saveEvent (.execute events) => some events
  | .saveEventsStream c =>
      match c.pc with
      | .executeBatch | .finalBatch => some c.batch
      | _ => none
  | _ => none

/-- What `SaveEventUseCase::Execute` comes back with: it passes the result
of `SaveEvents` on. -/
def SavePc.outcome : SavePc → Option Outcome
  | .returned result => some (.returned result)
  | .threw what => some (.threw what)
  | _ => none

/-- The calls in progress and the repository under them. -/
structure HistoryService (ι : Type) where
  handlers : ι → Call
  repo : Repo ι := {}

inductive HistoryInput where
  | handler (input : Input)
  | execute
  | save (input : SaveInput)
  | resume

def Input.isExecute : Input → Bool
  | .execute _ => true
  | _ => false

namespace HistoryService

variable {ι : Type} [DecidableEq ι]

def next (pg : Pg) (s : HistoryService ι) : ι × HistoryInput → Option (HistoryService ι)
  | (i, .handler input) =>
      if input.isExecute then none
      else ((s.handlers i).next input).map fun c =>
        { s with handlers := Function.update s.handlers i c }
  | (i, .execute) =>
      (s.handlers i).executing.bind fun events =>
        (s.repo.next pg (i, .call events)).map fun repo => { s with repo }
  | (i, .save input) =>
      if input.inside then (s.repo.next pg (i, input)).map fun repo => { s with repo }
      else none
  | (i, .resume) =>
      (s.repo.calls i).pc.outcome.bind fun outcome =>
        ((s.handlers i).next (.execute outcome)).bind fun c =>
          (s.repo.next pg (i, .leave)).map fun repo =>
            { handlers := Function.update s.handlers i c, repo }

def writes (pg : Pg) (s : HistoryService ι) : ι × HistoryInput → List (ι × Finished)
  | (i, .save input) => s.repo.writes pg (i, input)
  | _ => []

/-- The service with the calls `rpc`, from empty tables; its output are the
calls of `SaveEvents` that returned. -/
def machine (rpc : ι → Rpc) (pg : Pg) : Machine (HistoryService ι) (ι × Finished) :=
  .ofFn (· = { handlers := fun i => Call.start (rpc i) }) (next pg) (writes pg)

/-- What each step does, with its guard. -/
inductive Step (pg : Pg) (s : HistoryService ι) : List (ι × Finished) → HistoryService ι → Prop
  | handler {i : ι} {input : Input} {c : Call} :
      input.isExecute = false → (s.handlers i).next input = some c →
      Step pg s [] { s with handlers := Function.update s.handlers i c }
  | execute {i : ι} {events : List Dto.Event} {repo : Repo ι} :
      (s.handlers i).executing = some events → s.repo.next pg (i, .call events) = some repo →
      Step pg s [] { s with repo }
  | save {i : ι} {input : SaveInput} {repo : Repo ι} :
      input.inside = true → s.repo.next pg (i, input) = some repo →
      Step pg s (s.repo.writes pg (i, input)) { s with repo }
  | resume {i : ι} {outcome : Outcome} {c : Call} {repo : Repo ι} :
      (s.repo.calls i).pc.outcome = some outcome →
      (s.handlers i).next (.execute outcome) = some c →
      s.repo.next pg (i, .leave) = some repo →
      Step pg s [] { handlers := Function.update s.handlers i c, repo }

theorem step_cases {rpc : ι → Rpc} {pg : Pg} {s s' : HistoryService ι} {o : List (ι × Finished)}
    (h : (machine rpc pg).step s o s') : Step pg s o s' := by
  obtain ⟨⟨i, input⟩, hn, rfl⟩ := h
  cases input with
  | handler input =>
      simp only [next] at hn
      split at hn
      · cases hn
      · rename_i hinput
        obtain ⟨c, hc, rfl⟩ := Option.map_eq_some_iff.mp hn
        exact .handler (by simpa using hinput) hc
  | execute =>
      obtain ⟨events, hevents, hn⟩ := Option.bind_eq_some_iff.mp hn
      obtain ⟨repo, hrepo, rfl⟩ := Option.map_eq_some_iff.mp hn
      exact .execute hevents hrepo
  | save input =>
      simp only [next] at hn
      split at hn
      · obtain ⟨repo, hrepo, rfl⟩ := Option.map_eq_some_iff.mp hn
        exact .save ‹_› hrepo
      · cases hn
  | resume =>
      obtain ⟨outcome, houtcome, hn⟩ := Option.bind_eq_some_iff.mp hn
      obtain ⟨c, hc, hn⟩ := Option.bind_eq_some_iff.mp hn
      obtain ⟨repo, hrepo, rfl⟩ := Option.map_eq_some_iff.mp hn
      exact .resume houtcome hc hrepo

end HistoryService

/-! ## One call of `SaveEvents` under its handler -/

/-- The events of a `SaveEvents` that has succeeded, until the handler sees
its result. -/
def SaveCall.unseen (c : SaveCall) : List Dto.Event :=
  match c.pc with
  | .returned result => if result.success then c.events else []
  | _ => []

section Under

variable {pg : Pg} {db db' : Db} {c c' : SaveCall}

theorem SaveCall.call_next {events : List Dto.Event}
    (h : c.next pg db (.call events) = some (db', c')) :
    c.pc = .idle ∧ db' = db ∧ c' = { events, pc := .entered } := by
  cases step_of_next h with
  | call events hpc => exact ⟨hpc, rfl, rfl⟩

theorem SaveCall.leave_next (h : c.next pg db .leave = some (db', c')) : db' = db ∧ c' = {} := by
  cases step_of_next h with
  | leave hpc => exact ⟨rfl, rfl⟩

/-- Only a return is reported, and that is a step inside `SaveEvents`. -/
theorem Repo.writes_of_outside {ι : Type} [DecidableEq ι] {r r' : Repo ι} {i : ι}
    {input : SaveInput} (hinput : input.inside = false) (h : r.next pg (i, input) = some r') :
    r.writes pg (i, input) = [] := by
  obtain ⟨db', c', hc, -, hwrites⟩ := next_cases h
  rw [hwrites]
  cases input with
  | call events =>
      obtain ⟨hidle, -, rfl⟩ := SaveCall.call_next hc
      rw [SaveCall.finished, hidle]
      rfl
  | leave =>
      obtain ⟨-, rfl⟩ := SaveCall.leave_next hc
      rw [SaveCall.finished]
      cases (r.calls i).pc <;> rfl
  | _ => cases hinput

/-- What a step inside `SaveEvents` reports is what becomes unseen by it. -/
theorem SaveCall.savedEvents_finished (hpc : ∀ result, c.pc ≠ .returned result) :
    savedEvents (c.finished c') = c'.unseen := by
  unfold finished unseen
  split
  · exact absurd ‹_› (hpc _)
  · rename_i result hreturned _
    rw [hreturned, savedEvents_singleton]
  · rename_i hother
    split
    · exact absurd ‹_› (hother _)
    · rfl

/-- Between its call and its return, a `SaveEvents` keeps its events. -/
theorem SaveCall.inside_next {input : SaveInput} (hinput : input.inside = true)
    (h : c.next pg db input = some (db', c')) :
    c'.events = c.events ∧ c.pc ≠ .idle ∧ ∀ result, c.pc ≠ .returned result := by
  cases step_of_next h with
  | call events hpc => cases hinput
  | leave hpc => cases hinput
  | failed what hpc =>
      rcases hpc with ⟨rest, hpc⟩ | ⟨eventId, event, rest, hpc⟩
      · exact ⟨rfl, by simp [hpc], by simp [hpc]⟩
      · exact ⟨rfl, by simp [hpc], by simp [hpc]⟩
  | nothing hpc _ => exact ⟨rfl, by simp [hpc], by simp [hpc]⟩
  | acquire hpc _ => exact ⟨rfl, by simp [hpc], by simp [hpc]⟩
  | acquireThrows what hpc => exact ⟨rfl, by simp [hpc], by simp [hpc]⟩
  | insertEvent hpc _ _ => exact ⟨rfl, by simp [hpc], by simp [hpc]⟩
  | eventRefused id what hpc => exact ⟨rfl, by simp [hpc], by simp [hpc]⟩
  | insertPayload hpc _ => exact ⟨rfl, by simp [hpc], by simp [hpc]⟩
  | payloadRefused what hpc => exact ⟨rfl, by simp [hpc], by simp [hpc]⟩
  | commit hpc => exact ⟨rfl, by simp [hpc], by simp [hpc]⟩

/-- The handler of a call, between the steps of its `SaveEvents`. -/
def HistoryService.Blocked (handler : Call) (c : SaveCall) : Prop :=
  c.pc ≠ .idle → handler.executing = some c.events

theorem Call.writes_of_not_execute {c : Call} {input : Input} (h : input.isExecute = false) :
    c.writes input = [] := by
  cases input with
  | execute outcome => cases h
  | _ =>
      cases c with
      | saveEvent c => cases c <;> rfl
      | saveEventsStream c => rfl

/-- A handler that is blocked waits for `Execute` and for nothing else. -/
theorem Call.next_of_executing {c : Call} {events : List Dto.Event} {input : Input}
    (hevents : c.executing = some events) (h : input.isExecute = false) :
    c.next input = none := by
  cases c with
  | saveEvent c =>
      cases c with
      | execute events' =>
          cases input with
          | execute outcome => cases h
          | _ => rfl
      | _ => cases hevents
  | saveEventsStream c =>
      simp only [executing] at hevents
      simp only [next, StreamCall.next]
      cases input with
      | execute outcome => cases h
      | _ =>
          split at hevents
          · simp [*]
          · simp [*]
          · cases hevents

/-- The abstract `Execute` saves what its caller has passed to it. -/
theorem Call.writes_execute {c : Call} {events : List Dto.Event} {outcome : Outcome}
    (hevents : c.executing = some events) :
    c.writes (.execute outcome) = if outcome.success then events else [] := by
  cases c with
  | saveEvent c =>
      cases c with
      | execute events' =>
          obtain rfl := Option.some.inj hevents
          rfl
      | _ => cases hevents
  | saveEventsStream c =>
      simp only [executing] at hevents
      split at hevents
      · obtain rfl := Option.some.inj hevents
        rfl
      · obtain rfl := Option.some.inj hevents
        rfl
      · cases hevents

theorem SaveCall.unseen_of_outcome {outcome : Outcome} (h : c.pc.outcome = some outcome) :
    c.unseen = if outcome.success then c.events else [] := by
  unfold unseen
  cases hpc : c.pc with
  | returned result =>
      rw [hpc] at h
      obtain rfl := Option.some.inj h
      rfl
  | threw what =>
      rw [hpc] at h
      obtain rfl := Option.some.inj h
      rfl
  | _ =>
      rw [hpc] at h
      cases h

end Under

/-! ## The two layers in one -/

/-- The state is one of a run of each layer. -/
structure HistoryService.Inv {ι : Type} [DecidableEq ι] (rpc : ι → Rpc) (pg : Pg)
    (s : HistoryService ι) (out : List (ι × Finished)) : Prop where
  repo : (Repo.machine ι pg).Run s.repo out
  blocked : ∀ i, Blocked (s.handlers i) (s.repo.calls i)
  service : ∃ store, Service rpc s.handlers store
    ∧ ∀ i, savedEvents (share i out) = share i store ++ (s.repo.calls i).unseen

namespace HistoryService

section Run

variable {ι : Type} [DecidableEq ι] {rpc : ι → Rpc} {pg : Pg} {s s' : HistoryService ι}
  {out o : List (ι × Finished)}

theorem inv_init : Inv rpc pg { handlers := fun i => Call.start (rpc i) } [] := by
  refine ⟨.start rfl, fun i hne => absurd rfl hne, [], .start fun _ => rfl, fun i => rfl⟩

/-- A handler takes a step of its own: nobody has called `SaveEvents`. -/
theorem Inv.handler {i : ι} {input : Input} {c : Call} (h : s.Inv rpc pg out)
    (hinput : input.isExecute = false) (hc : (s.handlers i).next input = some c) :
    Inv rpc pg { s with handlers := Function.update s.handlers i c } out := by
  obtain ⟨store, hservice, hstore⟩ := h.service
  refine ⟨h.repo, ?_, store, ?_, hstore⟩
  · intro j
    by_cases hj : j = i
    · subst hj
      intro hne
      have hnone := Call.next_of_executing (h.blocked j hne) hinput
      rw [hnone] at hc
      cases hc
    · simp only [Function.update_of_ne hj]
      exact h.blocked j
  · have hstep := hservice.step i (o := []) ⟨input, hc, (Call.writes_of_not_execute hinput).symm⟩
    rwa [List.map_nil, List.append_nil] at hstep

/-- A handler calls `SaveEvents`. -/
theorem Inv.execute {i : ι} {events : List Dto.Event} {repo : Repo ι} (h : s.Inv rpc pg out)
    (hevents : (s.handlers i).executing = some events)
    (hrepo : s.repo.next pg (i, .call events) = some repo) :
    Inv rpc pg { s with repo } out := by
  obtain ⟨store, hservice, hstore⟩ := h.service
  obtain ⟨db', c', hc, rfl, -⟩ := Repo.next_cases hrepo
  obtain ⟨hidle, -, rfl⟩ := SaveCall.call_next hc
  have hrun := h.repo.step ⟨_, hrepo, rfl⟩
  rw [Repo.writes_of_outside rfl hrepo, List.append_nil] at hrun
  refine ⟨hrun, ?_, store, hservice, ?_⟩
  · refine (Function.forall_update_iff _ fun j c => Blocked (s.handlers j) c).mpr ?_
    exact ⟨fun _ => hevents, fun j _ => h.blocked j⟩
  · refine (Function.forall_update_iff _ fun j c =>
      savedEvents (share j out) = share j store ++ SaveCall.unseen c).mpr ?_
    refine ⟨?_, fun j _ => hstore j⟩
    have hunseen : (s.repo.calls i).unseen = [] := by
      rw [SaveCall.unseen, hidle]
    rw [hstore i, hunseen]
    rfl

/-- `SaveEvents` goes on; where it returns success, its events become
unseen. -/
theorem Inv.save {i : ι} {input : SaveInput} {repo : Repo ι} (h : s.Inv rpc pg out)
    (hinput : input.inside = true) (hrepo : s.repo.next pg (i, input) = some repo) :
    Inv rpc pg { s with repo } (out ++ s.repo.writes pg (i, input)) := by
  obtain ⟨store, hservice, hstore⟩ := h.service
  obtain ⟨db', c', hc, rfl, hwrites⟩ := Repo.next_cases hrepo
  obtain ⟨hevents, hpc, hnot⟩ := SaveCall.inside_next hinput hc
  refine ⟨h.repo.step ⟨_, hrepo, rfl⟩, ?_, store, hservice, ?_⟩
  · refine (Function.forall_update_iff _ fun j c => Blocked (s.handlers j) c).mpr ?_
    refine ⟨?_, fun j _ => h.blocked j⟩
    intro _
    rw [hevents]
    exact h.blocked i hpc
  · rw [hwrites]
    refine (Function.forall_update_iff _ fun j c =>
      savedEvents (share j (out ++ ((s.repo.calls i).finished c').map fun f => (i, f))) =
        share j store ++ SaveCall.unseen c).mpr ⟨?_, ?_⟩
    · have hunseen : (s.repo.calls i).unseen = [] := by
        unfold SaveCall.unseen
        split
        · exact absurd ‹_› (hnot _)
        · rfl
      rw [share_append, share_tag_self, savedEvents_append, hstore i, hunseen, List.append_nil,
        SaveCall.savedEvents_finished hnot]
    · intro j hj
      rw [share_append, share_tag_of_ne hj.symm, List.append_nil]
      exact hstore j

/-- The handler sees the result; the abstract `Execute` saves the events now. -/
theorem Inv.resume {i : ι} {outcome : Outcome} {c : Call} {repo : Repo ι} (h : s.Inv rpc pg out)
    (houtcome : (s.repo.calls i).pc.outcome = some outcome)
    (hc : (s.handlers i).next (.execute outcome) = some c)
    (hrepo : s.repo.next pg (i, .leave) = some repo) :
    Inv rpc pg { handlers := Function.update s.handlers i c, repo } out := by
  obtain ⟨store, hservice, hstore⟩ := h.service
  obtain ⟨db', c', hcall, rfl, -⟩ := Repo.next_cases hrepo
  obtain ⟨-, rfl⟩ := SaveCall.leave_next hcall
  have hpc : (s.repo.calls i).pc ≠ .idle := by
    intro hidle
    rw [hidle] at houtcome
    cases houtcome
  have hevents := h.blocked i hpc
  have hrun := h.repo.step ⟨_, hrepo, rfl⟩
  rw [Repo.writes_of_outside rfl hrepo, List.append_nil] at hrun
  have hstep := hservice.step i ⟨.execute outcome, hc, rfl⟩
  rw [Call.writes_execute hevents, ← SaveCall.unseen_of_outcome houtcome] at hstep
  refine ⟨hrun, ?_, _, hstep, ?_⟩
  · intro j
    by_cases hj : j = i
    · subst hj
      intro hne
      simp only [Function.update_self] at hne
      exact absurd rfl hne
    · simp only [Function.update_of_ne hj]
      exact h.blocked j
  · refine (Function.forall_update_iff _ fun j c =>
      savedEvents (share j out) =
        share j (store ++ (s.repo.calls i).unseen.map fun e => (i, e)) ++
          SaveCall.unseen c).mpr ⟨?_, ?_⟩
    · rw [hstore i, share_append, share_tag_self]
      exact (List.append_nil _).symm
    · intro j hj
      rw [share_append, share_tag_of_ne hj.symm, List.append_nil]
      exact hstore j

theorem Inv.step (h : s.Inv rpc pg out) (hs : Step pg s o s') : s'.Inv rpc pg (out ++ o) := by
  cases hs with
  | handler hinput hc =>
      rw [List.append_nil]
      exact h.handler hinput hc
  | execute hevents hrepo =>
      rw [List.append_nil]
      exact h.execute hevents hrepo
  | save hinput hrepo => exact h.save hinput hrepo
  | resume houtcome hc hrepo =>
      rw [List.append_nil]
      exact h.resume houtcome hc hrepo

/-- **The whole refines both layers**, in every run. -/
theorem inv_run (h : (machine rpc pg).Run s out) : s.Inv rpc pg out := by
  refine h.invariant (I := fun s out => s.Inv rpc pg out) ?_ ?_
  · rintro s rfl
    exact inv_init
  · intro s out o s' hs hstep
    exact hs.step (step_cases hstep)

end Run

end HistoryService

end EventHistory
