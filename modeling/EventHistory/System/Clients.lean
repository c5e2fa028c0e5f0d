import EventHistory.Lib.Outline
import EventHistory.Rpc.GetEvents
import EventHistory.Rpc.GetStats
import EventHistory.Rpc.SaveBatch
import EventHistory.System.Repository

/-!
# Both services together

Any number of clients call `SaveBatch`, `GetEvents` or `GetStats`, each on a
connection of its own. A `SaveBatch` is a `Session` of `Rpc.SaveBatch`; a
`ReadSession` takes one of the two reads from the client through the handler
and back, and may be cancelled on its way. Every handler that is blocked in
`Execute` is blocked in the repository, on its own thread.

The clients are programs over the repository as an object, so `system` is one
step relation for all that happens: what the clients send and what is lost on
the way, what the handlers do, and the statements of the repository's calls.
-/

namespace EventHistory

open Proto Transition
open Grpc (Status)

/-! ## The two reading calls -/

/-- What a client asks for. -/
inductive ReadQuery where
  | getEvents (filter : Dto.EventFilter)
  | getStats

inductive ReadRequest where
  | getEvents (request : GetEventsRequest)
  | getStats

inductive ReadResponse where
  | getEvents (response : GetEventsResponse)
  | getStats (response : GetStatsResponse)

/-- What the client's call comes back with. -/
inductive Reply where
  | events (events : Option (List Dto.Event))
  | stats (stats : Option Dto.Stats)
  | threw (what : String)

/-- The request; times that cannot be read throw. -/
def ReadQuery.request (tu : TimeUtil) : ReadQuery → Except String ReadRequest
  | .getEvents filter => (GrpcService.addFilterToRequest tu {} (some filter)).map .getEvents
  | .getStats => .ok .getStats

/-- The response object before the call. -/
def ReadQuery.blank : ReadQuery → ReadResponse
  | .getEvents _ => .getEvents {}
  | .getStats => .getStats {}

/-- What the handler calls `Execute` with. -/
def ReadRequest.op (tu : TimeUtil) : ReadRequest → ReadOp
  | .getEvents request => .getEvents (fromProtoEventFilter tu (some request.getEventFilter))
  | .getStats => .getStats

/-- What the handler returns when `Execute` has. -/
def ReadRequest.respond (tu : TimeUtil) : ReadRequest → RepoResult → Option (Status × ReadResponse)
  | .getEvents request, .events result =>
      let (status, response) := getEventsHandler tu (fun _ => result) request
      some (status, .getEvents response)
  | .getStats, .stats result =>
      let (status, response) := getStatsHandler result
      some (status, .getStats response)
  | _, _ => none

/-- `DoGetEventsRequest` and `DoGetStatsRequest`, behind the stub. -/
def ReadResponse.reply (status : Status) : ReadResponse → Reply
  | .getEvents response =>
      .events (GrpcService.doGetEventsRequest (fun _ => (status, response)) {})
  | .getStats response => .stats (GrpcService.doGetStatsRequest (status, response))

theorem reply_getEvents {tu : TimeUtil} {request : GetEventsRequest}
    {result : Result (List Dto.Event)} {status : Status} {response : ReadResponse}
    (h : (ReadRequest.getEvents request).respond tu (.events result) = some (status, response)) :
    response.reply status = .events (GrpcService.doGetEventsRequest
      (fun _ => getEventsHandler tu (fun _ => result) request) {}) := by
  obtain ⟨rfl, rfl⟩ := Prod.mk.inj (Option.some.inj h)
  rfl

theorem reply_getStats {tu : TimeUtil} {result : Result Dto.Stats} {status : Status}
    {response : ReadResponse}
    (h : ReadRequest.getStats.respond tu (.stats result) = some (status, response)) :
    response.reply status = .stats (GrpcService.doGetStatsRequest (getStatsHandler result)) := by
  obtain ⟨rfl, rfl⟩ := Prod.mk.inj (Option.some.inj h)
  rfl

inductive ReadHandler where
  | idle
  | received (request : ReadRequest)
  | execute (request : ReadRequest)
  | done (status : Status) (response : ReadResponse)

inductive ReadClient where
  | start
  | waiting
  | returned (reply : Reply)

structure ReadSession where
  client : ReadClient := .start
  handler : ReadHandler := .idle
  cancelled : Bool := false

namespace ReadSession

inductive Act where
  | call
  | proceed
  | execute (result : RepoResult)
  | cancel
  | finish

/-- How the call ends for the client. -/
def outcome (query : ReadQuery) (s : ReadSession) : Option (Status × ReadResponse) :=
  if s.cancelled then some (.cancelled, query.blank)
  else match s.handler with
    | .done status response => some (status, response)
    | _ => none

def next (tu : TimeUtil) (query : ReadQuery) (s : ReadSession) (a : Act) : Option ReadSession :=
  match a, s.client, s.handler with
  | .call, .start, _ =>
      match query.request tu with
      | .ok request => some { s with client := .waiting, handler := .received request }
      | .error what => some { s with client := .returned (.threw what) }
  | .cancel, .waiting, _ => some { s with cancelled := true }
  | .finish, .waiting, _ =>
      (s.outcome query).map fun r => { s with client := .returned (r.2.reply r.1) }
  | .proceed, _, .received request => some { s with handler := .execute request }
  | .execute result, _, .execute request =>
      (request.respond tu result).map fun r => { s with handler := .done r.1 r.2 }
  | _, _, _ => none

/-- What the handler is blocked in. -/
def executing (tu : TimeUtil) (s : ReadSession) : Option ReadOp :=
  match s.handler with
  | .execute request => some (request.op tu)
  | _ => none

/-- What each step does, with its guard. -/
inductive Step (tu : TimeUtil) (query : ReadQuery) (s : ReadSession) : Act → ReadSession → Prop
  | call {request : ReadRequest} :
      s.client = .start → query.request tu = .ok request →
      Step tu query s .call { s with client := .waiting, handler := .received request }
  | threw {what : String} :
      s.client = .start → query.request tu = .error what →
      Step tu query s .call { s with client := .returned (.threw what) }
  | cancel : s.client = .waiting → Step tu query s .cancel { s with cancelled := true }
  | finish {status : Status} {response : ReadResponse} :
      s.client = .waiting → s.outcome query = some (status, response) →
      Step tu query s .finish { s with client := .returned (response.reply status) }
  | proceed {request : ReadRequest} :
      s.handler = .received request →
      Step tu query s .proceed { s with handler := .execute request }
  | execute {request : ReadRequest} {result : RepoResult} {status : Status}
      {response : ReadResponse} :
      s.handler = .execute request → request.respond tu result = some (status, response) →
      Step tu query s (.execute result) { s with handler := .done status response }

theorem step_of_next {tu : TimeUtil} {query : ReadQuery} {s s' : ReadSession} {a : Act}
    (h : s.next tu query a = some s') : Step tu query s a s' := by
  unfold next at h
  split at h
  · rename_i hclient
    split at h
    · rename_i hrequest
      obtain rfl := Option.some.inj h
      exact .call hclient hrequest
    · rename_i hrequest
      obtain rfl := Option.some.inj h
      exact .threw hclient hrequest
  · rename_i hclient
    obtain rfl := Option.some.inj h
    exact .cancel hclient
  · rename_i hclient
    obtain ⟨r, hr, rfl⟩ := Option.map_eq_some_iff.mp h
    exact .finish hclient hr
  · rename_i hhandler
    obtain rfl := Option.some.inj h
    exact .proceed hhandler
  · rename_i hhandler
    obtain ⟨r, hr, rfl⟩ := Option.map_eq_some_iff.mp h
    exact .execute hhandler hr
  · cases h

end ReadSession

/-! ## Clients -/

/-- What the handler of a session has passed to `Execute`. -/
def Server.executing : Server → Option (List Dto.Event)
  | .saveEvent c _ => (Call.saveEvent c).executing
  | .saveEventsStream t => (Call.saveEventsStream t.call).executing
  | .idle => none

inductive ClientOp where
  | saveBatch (events : List Dto.Event)
  | read (query : ReadQuery)

inductive ClientCall where
  | saveBatch (session : Session)
  | read (session : ReadSession)

inductive ClientInput where
  | saveBatch (a : Session.Act)
  | read (a : ReadSession.Act)

namespace ClientCall

def start : ClientOp → ClientCall
  | .saveBatch _ => .saveBatch {}
  | .read _ => .read {}

def next (tu : TimeUtil) (op : ClientOp) (c : ClientCall) (input : ClientInput) :
    Option ClientCall :=
  match op, c, input with
  | .saveBatch events, .saveBatch s, .saveBatch a => (s.next events a).map .saveBatch
  | .read query, .read s, .read a => (s.next tu query a).map .read
  | _, _, _ => none

/-- The call of the repository that its handler is blocked in. -/
def pending (tu : TimeUtil) : ClientCall → Option RepoOp
  | .saveBatch s => s.server.executing.map .saveEvents
  | .read s => (s.executing tu).map .read

/-- The result that a step takes from the repository. -/
def answer (c : ClientCall) (input : ClientInput) : Option RepoResult :=
  match c, input with
  | .saveBatch s, .saveBatch (.serve _ o) => s.server.executing.map fun _ => .saved o
  | .read _, .read (.execute result) => some result
  | _, _ => none

/-- A client with its handler, as a program over the repository. -/
def program (tu : TimeUtil) (op : ClientOp) : Program ClientCall ClientInput RepoOp RepoResult where
  init := (· = start op)
  next := next tu op
  pending := pending tu
  answer := answer

end ClientCall

/-- A reading client that nothing disturbs. -/
theorem programs_read {ι : Type} [DecidableEq ι]
    {P : ι → Program ClientCall ClientInput RepoOp RepoResult} {tu : TimeUtil} {query : ReadQuery}
    {request : ReadRequest} {result : RepoResult} {status : Status} {response : ReadResponse}
    {i : ι} {calls : ι → ClientCall} (hP : P i = ClientCall.program tu (.read query))
    (hrequest : query.request tu = .ok request)
    (hrespond : request.respond tu result = some (status, response))
    (hstart : calls i = .read {}) :
    (programs P).Steps calls [(i, .call (.read (request.op tu))), (i, .ret result)]
      (Function.update calls i (.read
        { client := .returned (response.reply status), handler := .done status response })) := by
  have hown {calls : ι → ClientCall} (a : ReadSession.Act) {c d : ReadSession}
      (hc : calls i = .read c) (ha : (ClientCall.read c).answer (.read a) = none)
      (hn : c.next tu query a = some d) :
      (programs P).Steps calls [] (Function.update calls i (.read d)) := by
    refine .single (.own (i := i) (k := .read a) ?_ ?_)
    · rw [hP, hc]
      exact ha
    · rw [hP, hc]
      exact congrArg (Option.map ClientCall.read) hn
  have hcall := hown (d := { client := .waiting, handler := .received request }) .call hstart rfl
    (by simp [ReadSession.next, hrequest])
  have hproceed := hcall.trans (hown (d := { client := .waiting, handler := .execute request })
    .proceed (Function.update_self ..) rfl rfl)
  have hpending := hproceed.tail (.call (i := i) (by rw [hP, Function.update_self]; rfl))
  have hreturn := hpending.tail (.ret (i := i) (k := .read (.execute result)) (y := .read
    { client := .waiting, handler := .done status response })
    (by rw [hP, Function.update_self]; rfl)
    (by
      rw [hP, Function.update_self]
      exact congrArg (Option.map ClientCall.read) (congrArg (Option.map _) hrespond)))
  have hfinish := hreturn.trans (hown
    (d := { client := .returned (response.reply status), handler := .done status response })
    .finish (Function.update_self ..) rfl rfl)
  simpa only [Function.update_idem, List.nil_append, List.append_nil, List.cons_append]
    using hfinish

/-- The clients, their handlers and the repository. -/
abbrev system {ι : Type} [DecidableEq ι] (tu : TimeUtil) (pg : Pg) (ops : ι → ClientOp) :
    Machine ((ι → ClientCall) × Repository ι) (ι × Label RepoOp RepoResult) :=
  callers (fun i => ClientCall.program tu (ops i)) (Repository.machine ι pg)

end EventHistory
