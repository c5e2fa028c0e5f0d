import EventHistory.Service.Handlers

/-!
# `GetEvents` on both sides of the wire

The handler `GrpcEventServiceImpl::GetEvents` over any use case, and the
client's `GrpcService::GetEventsImpl` over any stub.
-/

namespace EventHistory

open Proto
open Grpc (Status)

/-- `GrpcEventServiceImpl::GetEvents`. The accessor of the filter never says
that there is none. -/
def getEventsHandler (tu : TimeUtil) (execute : Option Dto.EventFilter → Result (List Dto.Event))
    (request : GetEventsRequest) : Status × GetEventsResponse :=
  let result := execute (fromProtoEventFilter tu (some request.getEventFilter))
  if result.success then
    match result.data with
    | none | some [] => (.ok, { success := true, message := "No events found" })
    | some events =>
        (.ok, { events := events.map toProtoEvent, success := true
                message := "GetEvents successful." })
  else (.ok, { success := false, message := result.errorMessage })

namespace GrpcService

def addFilterToRequest (tu : TimeUtil) (request : GetEventsRequest)
    (filter : Option Dto.EventFilter) : Except String GetEventsRequest := do
  match filter with
  | none => return request
  | some filter =>
      match ← toProtoEventFilter tu (some filter) with
      | some eventFilter => return { request with eventFilter := some eventFilter }
      | none => return request

/-- `none` where the call or the server failed. -/
def doGetEventsRequest (stub : GetEventsRequest → Status × GetEventsResponse)
    (request : GetEventsRequest) : Option (List Dto.Event) :=
  let (status, response) := stub request
  if !status.isOk || !response.success then none
  else some (response.events.map toDtoEvent)

/-- The client is shown the events of the use case, sent over the wire one by
one, or nothing. -/
theorem doGetEventsRequest_handler {tu : TimeUtil} {result : Result (List Dto.Event)}
    {request request' : GetEventsRequest} {events : List Dto.Event}
    (h : doGetEventsRequest (fun _ => getEventsHandler tu (fun _ => result) request) request' =
      some events) :
    result.success = true
      ∧ events = (result.data.getD []).map fun e => toDtoEvent (toProtoEvent e) := by
  obtain ⟨success, errorMessage, data⟩ := result
  cases success with
  | false => simp [doGetEventsRequest, getEventsHandler] at h
  | true =>
      refine ⟨rfl, ?_⟩
      match data with
      | none | some [] | some (e :: es) =>
          simpa [doGetEventsRequest, getEventsHandler, Function.comp_def] using h.symm

/-- `GetEventsImpl`; an exception leaves it when a time of the filter cannot
be read. -/
def getEventsImpl (tu : TimeUtil) (stub : GetEventsRequest → Status × GetEventsResponse)
    (filter : Dto.EventFilter) : Except String (Option (List Dto.Event)) := do
  let request ← addFilterToRequest tu {} (some filter)
  return doGetEventsRequest stub request

/-- Without times to convert no exception leaves the client. -/
theorem getEventsImpl_isOk (tu : TimeUtil) (stub : GetEventsRequest → Status × GetEventsResponse)
    {filter : Dto.EventFilter} (hfrom : filter.from = none) (hto : filter.to = none) :
    ∃ events, getEventsImpl tu stub filter = .ok events := by
  simp only [getEventsImpl, addFilterToRequest, toProtoEventFilter, hfrom, hto, Option.mapM_none]
  exact ⟨_, rfl⟩

/-- With an empty filter the client receives what the repository returns,
sent over the wire event by event. -/
theorem getEventsImpl_empty {tu : TimeUtil}
    {execute : Option Dto.EventFilter → Result (List Dto.Event)} {events : List Dto.Event}
    (h : execute (some {}) = .ok events) :
    getEventsImpl tu (getEventsHandler tu execute) {} =
      .ok (some (events.map fun e => toDtoEvent (toProtoEvent e))) := by
  have hrequest : addFilterToRequest tu {} (some {}) = .ok { eventFilter := some {} } := rfl
  have hfilter : fromProtoEventFilter tu (some {}) = some {} := rfl
  have hresponse : doGetEventsRequest (getEventsHandler tu execute) { eventFilter := some {} } =
      some (events.map fun e => toDtoEvent (toProtoEvent e)) := by
    simp only [doGetEventsRequest, getEventsHandler, GetEventsRequest.getEventFilter,
      Option.getD_some, hfilter, h, Result.ok_success, if_true, Result.ok_data]
    cases events with
    | nil => rfl
    | cons e es => simp [Status.isOk, Status.ok]
  rw [getEventsImpl, hrequest, ← hresponse]
  rfl

end GrpcService

end EventHistory
