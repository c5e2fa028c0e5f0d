import EventHistory.Rpc.Serving

/-!
# `SaveBatch`, from the client's list to the server's store

The client `GrpcService::SaveBatch` and the server's handlers, joined by
gRPC. A `Session` is one call of `SaveBatch`: the client's program point and
the server's end of the call it opened, unary below `streamThreshold` events
and streaming from there on. The client's writes, the server's reads and
commits, a cancellation (a deadline, a broken connection) and the client's
`Finish` interleave in any order; sessions share one store.

Assumed of gRPC besides what `Rpc.Serving` says: `Write` returns false only
on a call that the server has answered or that is cancelled, and a cancelled
call ends in a status that is not OK.

- `saveBatch_true`: a reported success is a real save;
- `saveBatch_false`: what a reported failure leaves in the store.
-/

namespace EventHistory

open Proto Transition
open Grpc (Status)

/-! ## The server's end -/

/-- The input a unary handler's pending call gets; `o` answers `Execute`. -/
def SaveEventCall.input (o : Outcome) : SaveEventCall → Option Input
  | .received _ => some .proceed
  | .execute _ => some (.execute o)
  | .done _ _ => none

/-- The call a session has opened, if any. -/
inductive Server where
  | idle
  | saveEvent (call : SaveEventCall) (cancelled : Bool)
  | saveEventsStream (serving : Serving)

namespace Server

def next : Server → Serving.Act → Option Server
  | .saveEvent c cancelled, .serve _ o =>
      (c.input o).bind fun i => (c.next i).map fun c' => .saveEvent c' cancelled
  | .saveEvent c _, .cancel => some (.saveEvent c true)
  | .saveEventsStream s, a => (s.next a).map .saveEventsStream
  | _, _ => none

def writes : Server → Serving.Act → List Dto.Event
  | .saveEvent c _, .serve _ o => ((c.input o).map c.writes).getD []
  | .saveEventsStream s, a => s.writes a
  | _, _ => []

def cancelled : Server → Bool
  | .idle => false
  | .saveEvent _ b => b
  | .saveEventsStream s => s.channel.cancelled

/-- What the handler returned, once it has. -/
def answer : Server → Option (Status × SaveEventsResponse)
  | .saveEvent (.done status response) _ => some (status, response)
  | .saveEventsStream s =>
      match s.call.pc with
      | .done status response => some (status, response)
      | _ => none
  | _ => none

/-- How the call ends for the client. Of the status of a cancelled call only
that it is not OK matters. -/
def outcome (v : Server) : Option (Status × SaveEventsResponse) :=
  if v.cancelled then some (.cancelled, {}) else v.answer

end Server

/-! ## The client -/

/-- `STREAM_THRESHOLD`. -/
def streamThreshold : Nat := 10000

/-- The program points of `SaveBatch`. `finish` is `stream->Finish()` and
the unary `stub_->SaveEvent`, which both block until the call is over. -/
inductive ClientPc where
  | start
  | writing (rest : List Dto.Event)
  | finish
  | returned (result : Bool)

structure Session where
  client : ClientPc := .start
  server : Server := .idle

namespace Session

/-- The request of the unary route: `AddEventToRequest` for each event. -/
def request (events : List Dto.Event) : SaveEventRequest :=
  { event := events.map toProtoEvent }

/-- The stream message of one event. -/
def message (event : Dto.Event) : SaveEventsRequest :=
  { event := some (toProtoEvent event) }

/-- `SaveBatchStream` up to its loop; `stub` tells whether the stub returned
a stream. -/
def saveBatchStream (events : List Dto.Event) (stub : Bool) : Session :=
  if events.isEmpty then { client := .returned true }
  else if stub then { client := .writing events, server := .saveEventsStream {} }
  else { client := .returned false }

/-- `SaveBatch` up to its first blocking call. -/
def saveBatch (events : List Dto.Event) (stub : Bool) : Session :=
  if events.length < streamThreshold then
    { client := .finish, server := .saveEvent (.received (request events)) false }
  else saveBatchStream events stub

inductive Act where
  | call (stub : Bool)
  | write (ok : Bool)
  | writesDone
  | finish
  | cancel
  | serve (late : Bool) (outcome : Outcome)

/-- The server's end takes a step; the client moves to `pc`. -/
def serverStep (s : Session) (a : Serving.Act) (pc : ClientPc) : Option Session :=
  (s.server.next a).map fun v => { client := pc, server := v }

def next (events : List Dto.Event) (s : Session) (a : Act) : Option Session :=
  match a, s.client with
  | .call stub, .start => some (saveBatch events stub)
  | .write true, .writing (e :: rest) => s.serverStep (.write (message e)) (.writing rest)
  | .write false, .writing (_ :: _) =>
      if s.server.outcome.isSome then some { s with client := .returned false } else none
  | .writesDone, .writing [] => s.serverStep .writesDone .finish
  | .finish, .finish =>
      s.server.outcome.map fun r =>
        { s with client := .returned (r.1.isOk && r.2.success) }
  -- a call whose client has returned cannot be cancelled any more
  | .cancel, .returned _ => none
  | .cancel, pc => s.serverStep .cancel pc
  | .serve late o, pc => s.serverStep (.serve late o) pc
  | _, _ => none

def writes (s : Session) : Act → List Dto.Event
  | .serve late o => s.server.writes (.serve late o)
  | _ => []

/-- One call of `SaveBatch(events)`, as a machine that outputs what the
server persists for it. -/
def machine (events : List Dto.Event) : Machine Session Dto.Event :=
  .ofFn (· = {}) (next events) writes

end Session

/-- Any number of calls of `SaveBatch`, one with each list, interleaved over
one store. -/
abbrev Sessions {ι : Type} [DecidableEq ι] (events : ι → List Dto.Event) :
    (ι → Session) → List (ι × Dto.Event) → Prop :=
  Interleaving fun i => Session.machine (events i)

/-! ## The unary route -/

namespace SaveEventCall

/-- The unary handler persists the whole request, when it is valid and the
use case succeeds, or nothing. -/
def Inv (request : SaveEventRequest) (c : SaveEventCall) (out : List Dto.Event) : Prop :=
  match c with
  | .received r => r = request ∧ out = []
  | .execute events =>
      events = request.event.map toDtoEvent ∧ (∀ e ∈ request.event, ValidEvent e) ∧ out = []
  | .done status response =>
      if status.isOk && response.success then
        (∀ e ∈ request.event, ValidEvent e) ∧ out = request.event.map toDtoEvent
      else out = []

theorem inv_next {request : SaveEventRequest} {c c' : SaveEventCall}
    {out : List Dto.Event} {i : Input} (h : c.Inv request out)
    (hn : c.next i = some c') : c'.Inv request (out ++ c.writes i) := by
  unfold next at hn
  split at hn
  · obtain ⟨rfl, rfl⟩ := h
    rename_i r
    by_cases hv : (validateSaveEventRequest r).isOk = true
    · rw [if_pos hv] at hn
      obtain rfl := Option.some.inj hn
      exact ⟨rfl, (validateSaveEventRequest_isOk.mp hv).2, rfl⟩
    · rw [if_neg hv] at hn
      obtain rfl := Option.some.inj hn
      simp [Inv, hv, writes]
  · obtain ⟨rfl, hvalid, rfl⟩ := h
    obtain rfl := Option.some.inj hn
    rename_i result
    cases hr : result.success with
    | true => simpa [Inv, hr, writes, Outcome.success] using hvalid
    | false => simp [Inv, hr, writes, Outcome.success]
  · obtain ⟨rfl, hvalid, rfl⟩ := h
    obtain rfl := Option.some.inj hn
    rfl
  · cases hn

end SaveEventCall

/-! ## What a session keeps -/

namespace Server

/-- What the server's end has persisted, by route. -/
def Wrote (events : List Dto.Event) (v : Server) (out : List Dto.Event) : Prop :=
  match v with
  | .idle => out = []
  | .saveEvent c _ => c.Inv (Session.request events) out
  | .saveEventsStream t => Serving.machine.Run t out

theorem wrote_next {events out : List Dto.Event} {v v' : Server} {a : Serving.Act}
    (h : v.Wrote events out) (hn : v.next a = some v') :
    v'.Wrote events (out ++ v.writes a) := by
  unfold next at hn
  split at hn
  · rename_i c cancelled late o
    obtain ⟨i, hi, hn⟩ := Option.bind_eq_some_iff.mp hn
    obtain ⟨c', hc, rfl⟩ := Option.map_eq_some_iff.mp hn
    have hw : writes (.saveEvent c cancelled) (.serve late o) = c.writes i := by
      simp [writes, hi]
    rw [hw]
    exact SaveEventCall.inv_next h hc
  · obtain rfl := Option.some.inj hn
    rw [show writes (.saveEvent _ _) .cancel = [] from rfl, List.append_nil]
    exact h
  · obtain ⟨t, ht, rfl⟩ := Option.map_eq_some_iff.mp hn
    exact h.step ⟨_, ht, rfl⟩
  · cases hn

/-- The route does not change, and a cancellation is not forgotten. -/
theorem cancelled_next {v v' : Server} {a : Serving.Act} (hn : v.next a = some v')
    (h : v.cancelled = true) : v'.cancelled = true := by
  unfold next at hn
  split at hn
  · obtain ⟨i, -, hn⟩ := Option.bind_eq_some_iff.mp hn
    obtain ⟨c', -, rfl⟩ := Option.map_eq_some_iff.mp hn
    exact h
  · obtain rfl := Option.some.inj hn
    rfl
  · obtain ⟨t, ht, rfl⟩ := Option.map_eq_some_iff.mp hn
    rcases Serving.next_cases ht with
      ⟨m, rfl, -, rfl⟩ | ⟨rfl, rfl⟩ | ⟨rfl, rfl⟩ | ⟨late, o, i, c, rfl, -, -, rfl, -⟩
    · exact h
    · exact h
    · rfl
    · exact (Channel.after_cancelled ..).trans h
  · cases hn

theorem next_stream {t : Serving} {v : Server} {a : Serving.Act}
    (hn : next (.saveEventsStream t) a = some v) :
    ∃ t', t.next a = some t' ∧ v = .saveEventsStream t' := by
  have hmap : (t.next a).map Server.saveEventsStream = some v := by
    cases a <;> exact hn
  obtain ⟨t', ht, rfl⟩ := Option.map_eq_some_iff.mp hmap
  exact ⟨t', ht, rfl⟩

theorem done_of_answer {t : Serving} {status : Status} {response : SaveEventsResponse}
    (h : answer (.saveEventsStream t) = some (status, response)) :
    t.call.pc = .done status response := by
  simp only [answer] at h
  split at h
  · obtain ⟨rfl, rfl⟩ := Prod.mk.inj (Option.some.inj h)
    assumption
  · cases h

/-- An answered call takes no further step. -/
theorem serve_of_answer {v : Server} {r : Status × SaveEventsResponse}
    (h : v.answer = some r) (late : Bool) (o : Outcome) :
    v.next (.serve late o) = none := by
  unfold answer at h
  split at h
  · rfl
  · split at h
    · rename_i hpc
      simp [next, Serving.next, StreamCall.input, hpc]
    · cases h
  · cases h

end Server

namespace Session

/-- The steps of a session, by the rule that allows them. -/
inductive Step (events : List Dto.Event) (s : Session) : Act → Session → Prop
  | call (stub : Bool) : s.client = .start → Step events s (.call stub) (saveBatch events stub)
  | write {e : Dto.Event} {rest : List Dto.Event} {v : Server} :
      s.client = .writing (e :: rest) → s.server.next (.write (message e)) = some v →
      Step events s (.write true) ⟨.writing rest, v⟩
  | writeFailed {e : Dto.Event} {rest : List Dto.Event} :
      s.client = .writing (e :: rest) → s.server.outcome.isSome = true →
      Step events s (.write false) ⟨.returned false, s.server⟩
  | writesDone {v : Server} :
      s.client = .writing [] → s.server.next .writesDone = some v →
      Step events s .writesDone ⟨.finish, v⟩
  | finish {r : Status × SaveEventsResponse} :
      s.client = .finish → s.server.outcome = some r →
      Step events s .finish ⟨.returned (r.1.isOk && r.2.success), s.server⟩
  | cancel {v : Server} :
      (∀ b, s.client ≠ .returned b) → s.server.next .cancel = some v →
      Step events s .cancel ⟨s.client, v⟩
  | serve (late : Bool) (o : Outcome) {v : Server} :
      s.server.next (.serve late o) = some v → Step events s (.serve late o) ⟨s.client, v⟩

theorem step_of_next {events : List Dto.Event} {s s' : Session} {a : Act}
    (h : s.next events a = some s') : Step events s a s' := by
  unfold next at h
  split at h
  · obtain rfl := Option.some.inj h
    exact .call _ ‹_›
  · obtain ⟨v, hv, rfl⟩ := Option.map_eq_some_iff.mp h
    exact .write ‹_› hv
  · split at h
    · obtain rfl := Option.some.inj h
      exact .writeFailed ‹_› ‹_›
    · cases h
  · obtain ⟨v, hv, rfl⟩ := Option.map_eq_some_iff.mp h
    exact .writesDone ‹_› hv
  · obtain ⟨r, hr, rfl⟩ := Option.map_eq_some_iff.mp h
    exact .finish ‹_› hr
  · cases h
  · rename_i hret
    obtain ⟨v, hv, rfl⟩ := Option.map_eq_some_iff.mp h
    exact .cancel (fun b hb => hret b hb) hv
  · obtain ⟨v, hv, rfl⟩ := Option.map_eq_some_iff.mp h
    exact .serve _ _ hv
  · cases h

/-- The client returned what the call ended with. -/
def Told (v : Server) (b : Bool) : Prop :=
  (v.cancelled = true ∧ b = false)
    ∨ v.cancelled = false ∧ ∃ r, v.answer = some r ∧ (r.1.isOk && r.2.success) = b

/-- The streaming route: what the server has read, what is in flight and
what the client has still to write are the list of the client. -/
structure Streamed (events : List Dto.Event) (client : ClientPc) (t : Serving) : Prop where
  started : client ≠ .start
  sent : ∃ rest, t.transit ++ rest.map message = events.map message
    ∧ (∀ r, client = .writing r → r = rest ∧ t.channel.writesDone = false)
    ∧ (t.channel.writesDone = true → rest = [])

/-- Which call serves the session, and how far the client is. -/
def Route (events : List Dto.Event) (client : ClientPc) : Server → Prop
  | .idle => client = .start ∨ client = .returned false
      ∨ client = .returned true ∧ events = []
  | .saveEvent _ _ => events.length < streamThreshold
      ∧ (client = .finish ∨ ∃ b, client = .returned b)
  | .saveEventsStream t => streamThreshold ≤ events.length ∧ Streamed events client t

/-- The invariant of a session. -/
structure Inv (events : List Dto.Event) (s : Session) (out : List Dto.Event) : Prop where
  wrote : s.server.Wrote events out
  route : Route events s.client s.server
  told : s.server ≠ .idle → ∀ b, s.client = .returned b → Told s.server b

theorem told_of_outcome {v : Server} {r : Status × SaveEventsResponse}
    (h : v.outcome = some r) : Told v (r.1.isOk && r.2.success) := by
  unfold Server.outcome at h
  split at h
  · rename_i hc
    obtain rfl := Option.some.inj h
    exact Or.inl ⟨hc, rfl⟩
  · rename_i hc
    exact Or.inr ⟨by simpa using hc, r, h, rfl⟩

theorem told_serve {v v' : Server} {b : Bool} {late : Bool} {o : Outcome}
    (h : Told v b) (hn : v.next (.serve late o) = some v') : Told v' b := by
  rcases h with ⟨hc, hb⟩ | ⟨-, r, hr, -⟩
  · exact Or.inl ⟨Server.cancelled_next hn hc, hb⟩
  · rw [Server.serve_of_answer hr] at hn
    cases hn

/-- A write that fails on a call that is not cancelled fails because the
server has refused something. -/
theorem told_writeFailed {t : Serving} {out : List Dto.Event}
    (hrun : Serving.machine.Run t out) (hopen : t.channel.writesDone = false)
    (h : (Server.saveEventsStream t).outcome.isSome = true) :
    Told (.saveEventsStream t) false := by
  obtain ⟨r, hr⟩ := Option.isSome_iff_exists.mp h
  rcases told_of_outcome hr with hc | ⟨hc, ⟨status, response⟩, hans, -⟩
  · exact Or.inl ⟨hc.1, rfl⟩
  · cases hs : response.success with
    | false => exact Or.inr ⟨hc, _, hans, by simp [hs]⟩
    | true =>
        have hpc := Server.done_of_answer hans
        rcases Serving.success_ended hrun hpc hs with hc | ⟨hw, -⟩
        · exact Or.inl ⟨hc, rfl⟩
        · rw [hopen] at hw
          cases hw

/-- The server's steps and a cancellation leave the stream as the client
sees it. -/
theorem Streamed.next {events : List Dto.Event} {client : ClientPc} {t t' : Serving}
    {a : Serving.Act} (h : Streamed events client t) (hn : t.next a = some t')
    (hsent : a.sent = []) (ha : a ≠ .writesDone) : Streamed events client t' := by
  obtain ⟨rest, hsum, hwriting, hdone⟩ := h.sent
  have htransit := Serving.transit_next hn
  rw [hsent, List.append_nil] at htransit
  have hwd : t'.channel.writesDone = t.channel.writesDone := by
    rcases Serving.next_cases hn with
      ⟨m, rfl, -, rfl⟩ | ⟨rfl, rfl⟩ | ⟨rfl, rfl⟩ | ⟨late, o, i, c, rfl, -, -, rfl, -⟩
    · rfl
    · exact absurd rfl ha
    · rfl
    · exact Channel.after_writesDone ..
  refine ⟨h.started, rest, by rw [htransit, hsum], ?_, ?_⟩
  · rw [hwd]
    exact hwriting
  · rw [hwd]
    exact hdone

/-- The route of a session is decided when its server's end is opened. -/
theorem route_next {events : List Dto.Event} {client : ClientPc} {v v' : Server}
    {a : Serving.Act} (hn : v.next a = some v') (hsent : a.sent = [])
    (ha : a ≠ .writesDone) (h : Route events client v) : Route events client v' := by
  unfold Server.next at hn
  split at hn
  · obtain ⟨i, -, hn⟩ := Option.bind_eq_some_iff.mp hn
    obtain ⟨c', -, rfl⟩ := Option.map_eq_some_iff.mp hn
    exact h
  · obtain rfl := Option.some.inj hn
    exact h
  · obtain ⟨t, ht, rfl⟩ := Option.map_eq_some_iff.mp hn
    exact ⟨h.1, h.2.next ht hsent ha⟩
  · cases hn

theorem inv_saveBatch {events : List Dto.Event} (stub : Bool) :
    (saveBatch events stub).Inv events [] := by
  unfold saveBatch
  by_cases hlen : events.length < streamThreshold
  · rw [if_pos hlen]
    exact ⟨⟨rfl, rfl⟩, ⟨hlen, Or.inl rfl⟩, fun _ b hb => by cases hb⟩
  · rw [if_neg hlen, saveBatchStream]
    by_cases hnil : events.isEmpty = true
    · rw [if_pos hnil]
      exact ⟨rfl, Or.inr (Or.inr ⟨rfl, List.isEmpty_iff.mp hnil⟩),
        fun hidle => absurd rfl hidle⟩
    · rw [if_neg hnil]
      cases stub with
      | false => exact ⟨rfl, Or.inr (Or.inl rfl), fun hidle => absurd rfl hidle⟩
      | true =>
          rw [if_pos rfl]
          refine ⟨.start rfl, ⟨Nat.le_of_not_lt hlen, ?_⟩, fun _ b hb => by cases hb⟩
          refine ⟨fun hc => (by cases hc), ⟨events, rfl, ?_, fun hw => (by cases hw)⟩⟩
          rintro r hr
          exact ⟨(ClientPc.writing.inj hr).symm, rfl⟩

theorem Route.idle_of_start {events : List Dto.Event} {v : Server}
    (h : Route events .start v) : v = .idle := by
  cases v with
  | idle => rfl
  | saveEvent c b =>
      rcases h.2 with hc | ⟨b, hc⟩
      · cases hc
      · cases hc
  | saveEventsStream t => exact absurd rfl h.2.started

/-- Only a stream is written to. -/
theorem Route.stream_of_writing {events rest : List Dto.Event} {v : Server}
    (h : Route events (.writing rest) v) :
    ∃ t, v = .saveEventsStream t ∧ streamThreshold ≤ events.length
      ∧ Streamed events (.writing rest) t := by
  cases v with
  | idle =>
      rcases h with hc | hc | ⟨hc, -⟩
      · cases hc
      · cases hc
      · cases hc
  | saveEvent c b =>
      rcases h.2 with hc | ⟨b, hc⟩
      · cases hc
      · cases hc
  | saveEventsStream t => exact ⟨t, rfl, h⟩

/-- A write moves the first event of the rest into transit. -/
theorem Streamed.write {events rest : List Dto.Event} {e : Dto.Event} {t t' : Serving}
    (h : Streamed events (.writing (e :: rest)) t)
    (hn : t.next (.write (message e)) = some t') :
    Streamed events (.writing rest) t' := by
  obtain ⟨rest', hsum, hwriting, -⟩ := h.sent
  obtain ⟨rfl, hopen⟩ := hwriting _ rfl
  have hwd : t'.channel.writesDone = false := by
    rcases Serving.next_cases hn with ⟨m, -, hw, rfl⟩ | ⟨ha, -⟩ | ⟨ha, -⟩ | ⟨late, o, i, c, ha, -⟩
    · exact hw
    · cases ha
    · cases ha
    · cases ha
  refine ⟨fun hc => (by cases hc), ⟨rest, ?_, ?_, ?_⟩⟩
  · rw [← hsum, Serving.transit_next hn, Serving.Act.sent, List.append_assoc]
    rfl
  · rintro r hr
    exact ⟨(ClientPc.writing.inj hr).symm, hwd⟩
  · intro hw
    rw [hwd] at hw
    cases hw

/-- With nothing left to write the stream is closed, and stays so. -/
theorem Streamed.writesDone {events : List Dto.Event} {t t' : Serving}
    (h : Streamed events (.writing []) t) (hn : t.next .writesDone = some t') :
    Streamed events .finish t' := by
  obtain ⟨rest, hsum, hwriting, -⟩ := h.sent
  obtain ⟨rfl, -⟩ := hwriting _ rfl
  refine ⟨fun hc => (by cases hc), ⟨[], ?_, fun r hr => (by cases hr), fun _ => rfl⟩⟩
  rw [Serving.transit_next hn, show Serving.Act.sent .writesDone = [] from rfl,
    List.append_nil]
  exact hsum

/-- Returning ends the client's part and nothing else. -/
theorem Streamed.returned {events : List Dto.Event} {client : ClientPc} {t : Serving}
    (h : Streamed events client t) (b : Bool) : Streamed events (.returned b) t := by
  obtain ⟨rest, hsum, -, hdone⟩ := h.sent
  exact ⟨fun hc => (by cases hc), ⟨rest, hsum, fun r hr => (by cases hr), hdone⟩⟩

theorem Route.returned {events : List Dto.Event} {v : Server}
    (h : Route events .finish v) (b : Bool) : Route events (.returned b) v := by
  cases v with
  | idle =>
      rcases h with hc | hc | ⟨hc, -⟩
      · cases hc
      · cases hc
      · cases hc
  | saveEvent c cancelled => exact ⟨h.1, Or.inr ⟨b, rfl⟩⟩
  | saveEventsStream t => exact ⟨h.1, h.2.returned b⟩

theorem inv_step {events : List Dto.Event} {s s' : Session} {a : Act}
    {out : List Dto.Event} (h : s.Inv events out) (hs : Step events s a s') :
    s'.Inv events (out ++ s.writes a) := by
  obtain ⟨client, server⟩ := s
  obtain ⟨hwrote, hroute, htold⟩ := h
  cases hs with
  | call stub hstart =>
      obtain rfl : client = .start := hstart
      obtain rfl : server = .idle := hroute.idle_of_start
      obtain rfl : out = [] := hwrote
      exact inv_saveBatch stub
  | @write e rest v hc hn =>
      obtain rfl : client = .writing (e :: rest) := hc
      obtain ⟨t, rfl, hlen, hstr⟩ := hroute.stream_of_writing
      obtain ⟨t', ht, rfl⟩ := Server.next_stream hn
      exact ⟨Server.wrote_next hwrote hn, ⟨hlen, hstr.write ht⟩, fun _ b hb => by cases hb⟩
  | @writeFailed e rest hc ho =>
      obtain rfl : client = .writing (e :: rest) := hc
      obtain ⟨t, rfl, hlen, hstr⟩ := hroute.stream_of_writing
      obtain ⟨rest', -, hwriting, -⟩ := hstr.sent
      rw [show writes _ (.write false) = [] from rfl, List.append_nil]
      refine ⟨hwrote, ⟨hlen, hstr.returned false⟩, ?_⟩
      intro _ b hb
      obtain rfl := ClientPc.returned.inj hb
      exact told_writeFailed hwrote (hwriting _ rfl).2 ho
  | @writesDone v hc hn =>
      obtain rfl : client = .writing [] := hc
      obtain ⟨t, rfl, hlen, hstr⟩ := hroute.stream_of_writing
      obtain ⟨t', ht, rfl⟩ := Server.next_stream hn
      exact ⟨Server.wrote_next hwrote hn, ⟨hlen, hstr.writesDone ht⟩, fun _ b hb => by cases hb⟩
  | @finish r hc ho =>
      obtain rfl : client = .finish := hc
      rw [show writes _ .finish = [] from rfl, List.append_nil]
      refine ⟨hwrote, hroute.returned _, ?_⟩
      intro _ b hb
      obtain rfl := ClientPc.returned.inj hb
      exact told_of_outcome ho
  | @cancel v hc hn =>
      have hw := Server.wrote_next hwrote hn
      have hnil : server.writes .cancel = [] := by
        cases server with
        | idle => rfl
        | saveEvent c b => rfl
        | saveEventsStream t => rfl
      rw [hnil] at hw
      exact ⟨hw, route_next hn rfl (fun ha => by cases ha) hroute, fun _ b hb => absurd hb (hc b)⟩
  | @serve late o v hn =>
      refine ⟨Server.wrote_next hwrote hn,
        route_next hn rfl (fun ha => by cases ha) hroute, fun _ b hb => ?_⟩
      have hne : server ≠ .idle := by
        rintro rfl
        cases hn
      exact told_serve (htold hne b hb) hn

/-- The invariant holds along every run of a session. -/
theorem inv_run {events : List Dto.Event} {s : Session} {out : List Dto.Event}
    (h : (machine events).Run s out) : s.Inv events out := by
  refine h.invariant ?_ ?_
  · rintro s rfl
    exact ⟨rfl, Or.inl rfl, fun hidle => absurd rfl hidle⟩
  · rintro s out o s' hinv ⟨a, hn, rfl⟩
    exact inv_step hinv (step_of_next hn)

/-! ### The events of valid messages -/

/-- The messages of a list, as far as they pass validation, carry its events
unchanged. -/
theorem events_message {events : List Dto.Event}
    (h : ∀ r ∈ events.map message, StreamCall.ValidMessage r) :
    StreamCall.events (events.map message) = events := by
  rw [StreamCall.events, List.map_map]
  refine (List.map_congr_left fun e he => ?_).trans (List.map_id events)
  obtain ⟨e', he', hvalid⟩ := validateSaveEventsRequest_isOk.mp
    (h (message e) (List.mem_map_of_mem he))
  obtain rfl := Option.some.inj he'
  exact toDtoEvent_toProtoEvent_of_valid hvalid

/-- What a streaming call persists is a first part of the client's list,
field by field. -/
theorem Streamed.persisted {events : List Dto.Event} {client : ClientPc} {t : Serving}
    {out : List Dto.Event} (h : Streamed events client t)
    (hrun : Serving.machine.Run t out) : out <+: events := by
  obtain ⟨rs, hrs, hvalid, hout, -⟩ :=
    (StreamCall.inv_run (Serving.call_run hrun)).handled
  obtain ⟨rest, hsum, -⟩ := h.sent
  have hmessages : rs <+: events.map message := by
    rw [← hsum, Serving.transit, List.append_assoc]
    exact hrs.trans (List.prefix_append ..)
  obtain ⟨l, hl, rfl⟩ := List.prefix_map_iff.mp hmessages
  rw [events_message hvalid] at hout
  exact hout.trans hl

/-- A stream that was read to its end was received whole. -/
theorem Streamed.received {events : List Dto.Event} {client : ClientPc} {t : Serving}
    (h : Streamed events client t) (hw : t.channel.writesDone = true)
    (hq : t.channel.queue = []) : t.call.received = events.map message := by
  obtain ⟨rest, hsum, -, hdone⟩ := h.sent
  rw [hdone hw, Serving.transit, hq] at hsum
  simpa using hsum

theorem Streamed.received_length_le {events : List Dto.Event} {client : ClientPc}
    {t : Serving} (h : Streamed events client t) :
    t.call.received.length ≤ events.length := by
  obtain ⟨rest, hsum, -⟩ := h.sent
  have hlen := congrArg List.length hsum
  simp only [Serving.transit, List.length_append, List.length_map] at hlen
  omega

/-- A stream that is not cancelled and is answered success saves the list. -/
theorem Streamed.saved {events : List Dto.Event} {client : ClientPc} {t : Serving}
    {out : List Dto.Event} (h : Streamed events client t) (hrun : Serving.machine.Run t out)
    (hopen : t.channel.cancelled = false) {status : Status} {response : SaveEventsResponse}
    (hpc : t.call.pc = .done status response) (hsuccess : response.success = true) :
    out = events := by
  have hcomplete := ((StreamCall.inv_run (Serving.call_run hrun)).answered hpc).complete hsuccess
  rcases Serving.success_ended hrun hpc hsuccess with hc | ⟨hw, hq⟩
  · exact absurd (hopen.symm.trans hc) Bool.false_ne_true
  · rw [h.received hw hq] at hcomplete
    rw [hcomplete.2, events_message hcomplete.1]

/-! ### What the unary route leaves -/

theorem unary_saved {events out : List Dto.Event} {status : Status}
    {response : SaveEventsResponse}
    (h : (SaveEventCall.done status response).Inv (request events) out)
    (hok : (status.isOk && response.success) = true) : out = events := by
  simp only [SaveEventCall.Inv, hok, if_true] at h
  rw [h.2, request, List.map_map]
  refine (List.map_congr_left fun e he => ?_).trans (List.map_id events)
  exact toDtoEvent_toProtoEvent_of_valid (h.1 _ (List.mem_map_of_mem he))

end Session

/-! ## What the client can conclude -/

open Session

/-- **A reported success is a real save.** Whatever the interleaving of the
client's writes, the server's reads, validation and commits, an early end of
the call, failures of the database, cancellations and other sessions: once
`SaveBatch` has returned true, the store has gained from this call exactly
the given events, in order and unchanged. -/
theorem saveBatch_true {ι : Type} [DecidableEq ι] {events : ι → List Dto.Event}
    {sessions : ι → Session} {store : List (ι × Dto.Event)}
    (h : Sessions events sessions store) (i : ι)
    (hreturned : (sessions i).client = .returned true) :
    share i store = events i := by
  obtain ⟨hwrote, hroute, htold⟩ := Session.inv_run (h.component i)
  cases hserver : (sessions i).server with
  | idle =>
      rw [hserver] at hwrote hroute
      rw [hreturned] at hroute
      rcases hroute with hc | hc | ⟨-, hnil⟩
      · cases hc
      · cases hc
      · rw [hnil]
        exact hwrote
  | saveEvent c cancelled =>
      rw [hserver] at hwrote htold
      rcases htold (by simp) true hreturned with ⟨-, hc⟩ | ⟨-, ⟨status, response⟩, hans, hok⟩
      · cases hc
      · cases c with
        | received r => cases hans
        | execute es => cases hans
        | done status' response' =>
            obtain ⟨rfl, rfl⟩ := Prod.mk.inj (Option.some.inj hans)
            exact unary_saved hwrote hok
  | saveEventsStream t =>
      rw [hserver] at hwrote hroute htold
      rcases htold (by simp) true hreturned with ⟨-, hc⟩ | ⟨hopen, ⟨status, response⟩, hans, hok⟩
      · cases hc
      · have hsuccess : response.success = true := (Bool.and_eq_true _ _ |>.mp hok).2
        exact hroute.2.saved hwrote hopen (Server.done_of_answer hans) hsuccess

/-- **What a reported failure leaves.** Without a cancellation, once
`SaveBatch` has returned false the server is done with the call. The unary
route has stored nothing; the streaming route has stored the first whole
batches of the list, and not all of the list. -/
theorem saveBatch_false {ι : Type} [DecidableEq ι] {events : ι → List Dto.Event}
    {sessions : ι → Session} {store : List (ι × Dto.Event)}
    (h : Sessions events sessions store) (i : ι)
    (hreturned : (sessions i).client = .returned false)
    (hopen : (sessions i).server.cancelled = false) :
    ((events i).length < 10000 → share i store = [])
    ∧ (10000 ≤ (events i).length → ∃ k, 1000 * k < (events i).length
        ∧ share i store = (events i).take (1000 * k))
    ∧ ∀ late o, (sessions i).server.next (.serve late o) = none := by
  obtain ⟨hwrote, hroute, htold⟩ := Session.inv_run (h.component i)
  cases hserver : (sessions i).server with
  | idle =>
      rw [hserver] at hwrote
      refine ⟨fun _ => hwrote, fun hlen => ⟨0, by omega, hwrote⟩, fun _ _ => rfl⟩
  | saveEvent c cancelled =>
      rw [hserver] at hwrote hroute htold hopen
      rcases htold (by simp) false hreturned with ⟨hc, -⟩ | ⟨-, ⟨status, response⟩, hans, hok⟩
      · exact absurd (hopen.symm.trans hc) Bool.false_ne_true
      · cases c with
        | received r => cases hans
        | execute es => cases hans
        | done status' response' =>
            obtain ⟨rfl, rfl⟩ := Prod.mk.inj (Option.some.inj hans)
            have hnil : share i store = [] := by
              simpa only [Server.Wrote, SaveEventCall.Inv, hok, if_neg Bool.false_ne_true]
                using hwrote
            have hlt : (events i).length < 10000 := hroute.1
            exact ⟨fun _ => hnil, fun hlen => by omega, fun _ _ => rfl⟩
  | saveEventsStream t =>
      rw [hserver] at hwrote hroute htold hopen
      rcases htold (by simp) false hreturned with ⟨hc, -⟩ | ⟨-, ⟨status, response⟩, hans, hok⟩
      · exact absurd (hopen.symm.trans hc) Bool.false_ne_true
      · have hpc := Server.done_of_answer hans
        have hanswered := (StreamCall.inv_run (Serving.call_run hwrote)).answered hpc
        have hstatus : status.isOk = true := by
          by_contra hno
          have hc := (Serving.inv_run hwrote).notOk status response hpc (by simpa using hno)
          exact Bool.false_ne_true (hopen.symm.trans hc)
        have hfail : response.success = false := by simpa [hstatus] using hok
        have hlen : 10000 ≤ (events i).length := hroute.1
        refine ⟨fun hlt => by omega, ?_, fun late o => Server.serve_of_answer hans late o⟩
        intro _
        obtain ⟨k, hk⟩ := hanswered.dvd_length hfail
        have hk' : (share i store).length = 1000 * k := hk
        have hstrict := hanswered.strict hfail hstatus
        have hle := hroute.2.received_length_le
        refine ⟨k, by omega, ?_⟩
        rw [← hk']
        exact List.prefix_iff_eq_take.mp (hroute.2.persisted hwrote)

/-- One valid event on the unary route, saved. -/
theorem saveBatch_true_sample :
    share () [((), sampleEvent)] = [sampleEvent] := by
  have h₀ : Sessions (fun _ : Unit => [sampleEvent]) (fun _ => {}) [] := .start fun _ => rfl
  have h₁ := h₀.steps (i := ()) (Machine.steps_of_feed
    (l := [.call true, .serve false (.returned .ok), .serve false (.returned .ok), .finish]) rfl)
  exact saveBatch_true h₁ () rfl

/-- The same event, refused by the database. -/
theorem saveBatch_false_sample :
    share () ([] : List (Unit × Dto.Event)) = [] := by
  have h₀ : Sessions (fun _ : Unit => [sampleEvent]) (fun _ => {}) [] := .start fun _ => rfl
  have h₁ := h₀.steps (i := ()) (Machine.steps_of_feed
    (l := [.call true, .serve false (.returned .ok),
      .serve false (.returned (.notOk "[Postgres] connection lost")), .finish]) rfl)
  exact (saveBatch_false h₁ () rfl rfl).1 (by decide)

/-! ## How much a failure can leave

Every number of batches that `saveBatch_false` allows short of the last one
or two is what some run leaves: the database accepts so many batches and
refuses the next. -/

namespace Session

/-- The client has `rest` to write, and nothing is in flight. -/
def streaming (rest : List Dto.Event) (c : StreamCall) : Session :=
  { client := .writing rest, server := .saveEventsStream { call := c } }

variable (events : List Dto.Event)

/-- A message that is written and read is in the loop body, and what the
body makes of it comes next. -/
theorem deliver {e : Dto.Event} (rest : List Dto.Event) {c : StreamCall}
    (hpc : c.pc = .read) (hvalid : ValidEvent (toProtoEvent e)) :
    ∃ c', (machine events).Steps (streaming (e :: rest) c) [] (streaming rest c')
      ∧ c'.batch = c.batch ++ [e]
      ∧ c'.pc = if c.batch.length + 1 ≥ batchSize then .executeBatch else .isCancelled := by
  have hok : (validateSaveEventsRequest (message e)).isOk = true :=
    validateSaveEventsRequest_isOk.mpr ⟨_, rfl, hvalid⟩
  have he : toDtoEvent (message e).getEvent = e := toDtoEvent_toProtoEvent_of_valid hvalid
  let c₁ : StreamCall :=
    { c with pc := .body (message e), received := c.received ++ [message e] }
  refine ⟨c₁.loopBody (message e), Machine.steps_of_feed
    (l := [.write true, .serve false (.threw ""), .serve false (.threw "")]) ?_, ?_, ?_⟩
  · simp [Machine.feed, Session.next, serverStep, Server.next, Serving.next, StreamCall.input,
      hpc, Channel.read, StreamCall.next, Channel.after, Session.writes, Server.writes,
      Serving.writes, StreamCall.writes, streaming, c₁]
  · simp [StreamCall.loopBody, hok, he, c₁]
  · simp [StreamCall.loopBody, hok, c₁]

/-- The check of a call that is not cancelled goes back to `Read`. -/
theorem pass_check (rest : List Dto.Event) {c : StreamCall} (hpc : c.pc = .isCancelled) :
    (machine events).Steps (streaming rest c) [] (streaming rest { c with pc := .read }) := by
  refine Machine.steps_of_feed (l := [.serve false (.threw "")]) ?_
  simp [Machine.feed, Session.next, serverStep, Server.next, Serving.next, StreamCall.input,
    hpc, StreamCall.next, StreamCall.afterIsCancelled, Channel.after, Session.writes,
    Server.writes, Serving.writes, StreamCall.writes, streaming]

/-- Fewer events than fill the batch end up in it. -/
theorem buffer (rest : List Dto.Event) :
    ∀ {es : List Dto.Event} {c : StreamCall}, c.pc = .read →
      (∀ e ∈ es, ValidEvent (toProtoEvent e)) → c.batch.length + es.length < batchSize →
      ∃ c', (machine events).Steps (streaming (es ++ rest) c) [] (streaming rest c')
        ∧ c'.pc = .read ∧ c'.batch = c.batch ++ es
  | [], c, hpc, _, _ => ⟨c, .refl, hpc, (List.append_nil _).symm⟩
  | e :: es, c, hpc, hvalid, hlen => by
      rw [List.length_cons] at hlen
      obtain ⟨c₁, hsteps₁, hbatch₁, hpc₁⟩ :=
        deliver events (es ++ rest) hpc (hvalid e List.mem_cons_self)
      rw [if_neg (by omega)] at hpc₁
      have hsteps₂ := pass_check events (es ++ rest) hpc₁
      have hlen₁ : c₁.batch.length = c.batch.length + 1 := by
        rw [hbatch₁, List.length_append, List.length_singleton]
      obtain ⟨c', hsteps₃, hpc', hbatch'⟩ := buffer rest (c := { c₁ with pc := .read }) rfl
        (fun e' he' => hvalid e' (List.mem_cons_of_mem _ he')) (by simp only [hlen₁]; omega)
      refine ⟨c', (hsteps₁.trans hsteps₂).trans hsteps₃, hpc', ?_⟩
      rw [hbatch', hbatch₁, List.append_assoc]
      rfl

/-- A full batch of valid events is passed to `Execute`. -/
theorem fill (es rest : List Dto.Event) {c : StreamCall} (hpc : c.pc = .read)
    (hbatch : c.batch = []) (hvalid : ∀ e ∈ es, ValidEvent (toProtoEvent e))
    (hlen : es.length = batchSize) :
    ∃ c', (machine events).Steps (streaming (es ++ rest) c) [] (streaming rest c')
      ∧ c'.pc = .executeBatch ∧ c'.batch = es := by
  rcases List.eq_nil_or_concat es with rfl | ⟨l, e, rfl⟩
  · cases hlen
  · rw [List.concat_eq_append] at hvalid hlen ⊢
    rw [List.length_append, List.length_singleton] at hlen
    obtain ⟨c₁, hsteps₁, hpc₁, hbatch₁⟩ := buffer events ([e] ++ rest) hpc
      (fun e' he' => hvalid e' (List.mem_append_left _ he'))
      (by rw [hbatch, List.length_nil]; omega)
    rw [hbatch, List.nil_append] at hbatch₁
    obtain ⟨c₂, hsteps₂, hbatch₂, hpc₂⟩ := deliver events rest hpc₁
      (hvalid e (List.mem_append_right _ (List.mem_singleton_self e)))
    rw [if_pos (by rw [hbatch₁]; omega)] at hpc₂
    refine ⟨c₂, ?_, hpc₂, by rw [hbatch₂, hbatch₁]⟩
    rw [List.append_assoc]
    exact hsteps₁.trans hsteps₂

/-- The database accepts the batch. -/
theorem commit (rest : List Dto.Event) {c : StreamCall} (hpc : c.pc = .executeBatch) :
    ∃ c', (machine events).Steps (streaming rest c) c.batch (streaming rest c')
      ∧ c'.pc = .read ∧ c'.batch = [] := by
  have hexec : (machine events).Steps (streaming rest c) (c.batch ++ [])
      (streaming rest (c.afterBatch (.returned .ok))) := by
    refine Machine.steps_of_feed (l := [.serve false (.returned .ok)]) ?_
    simp [Machine.feed, Session.next, serverStep, Server.next, Serving.next, StreamCall.input,
      hpc, StreamCall.next, Channel.after, Session.writes, Server.writes, Serving.writes,
      StreamCall.writes, streaming, Outcome.success]
  rw [List.append_nil] at hexec
  refine ⟨_, by simpa using hexec.trans (pass_check events rest rfl), rfl, rfl⟩

/-- So many whole batches can be committed one after the other. -/
theorem commit_batches :
    ∀ (k : Nat) {es : List Dto.Event} {c : StreamCall}, c.pc = .read → c.batch = [] →
      (∀ e ∈ es, ValidEvent (toProtoEvent e)) → batchSize * k ≤ es.length →
      ∃ c', (machine events).Steps (streaming es c) (es.take (batchSize * k))
          (streaming (es.drop (batchSize * k)) c')
        ∧ c'.pc = .read ∧ c'.batch = []
  | 0, es, c, hpc, hbatch, _, _ => ⟨c, by simpa using .refl, hpc, hbatch⟩
  | k + 1, es, c, hpc, hbatch, hvalid, hlen => by
      rw [Nat.mul_succ] at hlen
      obtain ⟨c₁, hsteps₁, hpc₁, hbatch₁⟩ := commit_batches k hpc hbatch hvalid (by omega)
      obtain ⟨c₂, hsteps₂, hpc₂, hbatch₂⟩ := fill events
        ((es.drop (batchSize * k)).take batchSize) ((es.drop (batchSize * k)).drop batchSize)
        hpc₁ hbatch₁
        (fun e he => hvalid e (List.mem_of_mem_drop (List.mem_of_mem_take he)))
        (by rw [List.length_take, List.length_drop]; omega)
      obtain ⟨c₃, hsteps₃, hpc₃, hbatch₃⟩ := commit events
        ((es.drop (batchSize * k)).drop batchSize) hpc₂
      rw [List.take_append_drop] at hsteps₂
      refine ⟨c₃, ?_, hpc₃, hbatch₃⟩
      rw [Nat.mul_succ, List.take_add, ← List.drop_drop, ← hbatch₂]
      simpa using (hsteps₁.trans hsteps₂).trans hsteps₃

/-- The database refuses the batch, and the next write fails. -/
theorem refuse (e : Dto.Event) (rest : List Dto.Event) {c : StreamCall}
    (hpc : c.pc = .executeBatch) :
    ∃ s, (machine events).Steps (streaming (e :: rest) c) [] s
      ∧ s.client = .returned false ∧ s.server.cancelled = false := by
  let o : Outcome := .returned (.notOk "[Postgres] connection lost")
  have hpc' : (c.afterBatch o).pc = .done .ok
      { success := false
        message := "Failed to save batch at event " ++ toString c.totalEvents ++ ": "
          ++ "[Postgres] connection lost" } := rfl
  have ho : o.success = false := rfl
  let s : Session :=
    { client := .returned false
      server := .saveEventsStream { call := c.afterBatch o } }
  refine ⟨s, Machine.steps_of_feed (l := [.serve false o, .write false]) ?_, rfl, rfl⟩
  simp [Machine.feed, Session.next, serverStep, Server.next, Serving.next, StreamCall.input,
      hpc, StreamCall.next, Channel.after, Session.writes, Server.writes, Serving.writes,
    StreamCall.writes, streaming, ho, Server.outcome, Server.cancelled, Server.answer, hpc', s]

/-- For a list of valid events on the streaming route and every `k` with
more than `k + 1` batches in it, some session returns false and leaves the
first `k` batches in the store. -/
theorem exists_partial_save {k : Nat} (hvalid : ∀ e ∈ events, ValidEvent (toProtoEvent e))
    (hlen : streamThreshold ≤ events.length) (hk : batchSize * (k + 1) < events.length) :
    ∃ s, (machine events).Steps {} (events.take (batchSize * k)) s
      ∧ s.client = .returned false ∧ s.server.cancelled = false := by
  have hopen : (machine events).Steps {} ([] ++ []) (streaming events {}) := by
    refine Machine.steps_of_feed (l := [.call true]) ?_
    have hne : events ≠ [] := by
      rintro rfl
      cases hlen
    simp [Machine.feed, Session.next, saveBatch, saveBatchStream, Nat.not_lt.mpr hlen, hne,
      Session.writes, streaming]
  rw [Nat.mul_succ] at hk
  obtain ⟨c₁, hsteps₁, hpc₁, hbatch₁⟩ :=
    commit_batches events k (c := {}) rfl rfl hvalid (by omega)
  have hvalid' : ∀ e ∈ (events.drop (batchSize * k)).take batchSize,
      ValidEvent (toProtoEvent e) := fun e he =>
    hvalid e (List.mem_of_mem_drop (List.mem_of_mem_take he))
  have hpos : 0 < ((events.drop (batchSize * k)).drop batchSize).length := by
    rw [List.length_drop, List.length_drop]
    omega
  obtain ⟨e, rest, hrest⟩ := List.exists_cons_of_length_pos hpos
  obtain ⟨c₂, hsteps₂, hpc₂, -⟩ := fill events
    ((events.drop (batchSize * k)).take batchSize) ((events.drop (batchSize * k)).drop batchSize)
    hpc₁ hbatch₁ hvalid'
    (by rw [List.length_take, List.length_drop]; omega)
  rw [List.take_append_drop, hrest] at hsteps₂
  obtain ⟨s, hsteps₃, hclient, hserver⟩ :=
    refuse events e rest hpc₂
  refine ⟨s, ?_, hclient, hserver⟩
  simpa using ((hopen.trans hsteps₁).trans hsteps₂).trans hsteps₃

end Session

/-- Ten thousand copies of one valid event, of which the second batch is
refused: the client is told false, and the first batch stays. -/
theorem saveBatch_false_leaves_batch :
    ∃ sessions, Sessions (fun _ : Unit => List.replicate 10000 sampleEvent) sessions
        ((List.replicate 1000 sampleEvent).map fun e => ((), e))
      ∧ (sessions ()).client = .returned false ∧ (sessions ()).server.cancelled = false
      ∧ share () ((List.replicate 1000 sampleEvent).map fun e => ((), e)) ≠ [] := by
  have hvalid : ∀ e ∈ List.replicate 10000 sampleEvent, ValidEvent (toProtoEvent e) := by
    intro e he
    obtain rfl := List.eq_of_mem_replicate he
    exact validateEvent_isOk.mp (by decide)
  obtain ⟨s, hsteps, hclient, hopen⟩ := Session.exists_partial_save _ (k := 1) hvalid
    (by rw [List.length_replicate]; decide) (by rw [List.length_replicate]; decide)
  rw [List.take_replicate, show min (batchSize * 1) 10000 = 1000 from rfl] at hsteps
  have h₀ : Sessions (fun _ : Unit => List.replicate 10000 sampleEvent) (fun _ => {}) [] :=
    .start fun _ => rfl
  have h₁ := h₀.steps (i := ()) hsteps
  rw [List.nil_append] at h₁
  refine ⟨_, h₁, ?_, ?_, ?_⟩
  · rw [Function.update_self]
    exact hclient
  · rw [Function.update_self]
    exact hopen
  rw [share_tag_self]
  intro hnil
  have hlen := congrArg List.length hnil
  rw [List.length_replicate] at hlen
  cases hlen

end EventHistory
