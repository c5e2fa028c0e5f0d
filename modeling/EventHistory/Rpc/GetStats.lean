import EventHistory.Service.Handlers

/-!
# `GetStats` on both sides of the wire

The handler `GrpcEventServiceImpl::GetStats` over any use case, and the
client's `GrpcService::GetStats` over any stub. The request is empty.
-/

namespace EventHistory

open Proto
open Grpc (Status)

/-- `GrpcEventServiceImpl::GetStats`, once `Execute` has returned `result`. -/
def getStatsHandler (result : Result Dto.Stats) : Status × GetStatsResponse :=
  match result.success, result.data with
  | true, some stats =>
      (.ok, { stats := some (toProtoStats stats), success := true
              message := "GetStats successful." })
  | _, _ => (.ok, { success := false, message := result.errorMessage })

namespace GrpcService

/-- `DoGetStatsRequest`; `none` where the call or the server failed. -/
def doGetStatsRequest (outcome : Status × GetStatsResponse) : Option Dto.Stats :=
  let (status, response) := outcome
  if !status.isOk || !response.success then none else some (toDtoStats response.getStats)

/-- The client is shown the statistics of the use case, or nothing. -/
theorem doGetStatsRequest_handler {result : Result Dto.Stats} {stats : Dto.Stats} :
    doGetStatsRequest (getStatsHandler result) = some stats ↔
      result.success = true ∧ result.data = some stats := by
  obtain ⟨success, errorMessage, data⟩ := result
  cases success with
  | false => simp [getStatsHandler, doGetStatsRequest]
  | true =>
      cases data with
      | none => simp [getStatsHandler, doGetStatsRequest]
      | some stats' => simp [getStatsHandler, doGetStatsRequest, GetStatsResponse.getStats]

end GrpcService

end EventHistory
