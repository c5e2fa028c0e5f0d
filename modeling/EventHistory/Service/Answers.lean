import EventHistory.Service.Concurrent

/-!
# What the answers of the stream handler say

Each answer of `SaveEventsStream` has a text of its own, and `Tells` says for
every text what the handler did to give it and what of the received messages is
in the store with it: whole batches of what came first, and after a batch that
failed one batch less. Four of the texts name the number of messages that the
handler had counted, from which a reader can work this out. "Failed to save
final batch" and "Fatal error" have none: there the store depends on how many
messages were received, which the answer does not say.
-/

namespace EventHistory

open Proto Transition
open Grpc (Status)

namespace StreamCall

/-- The full batches among the first `n` events. -/
def wholeBatches (n : Nat) : Nat := n / batchSize * batchSize

/-- The answer, and what of the received messages is in the store with it. -/
inductive Tells (received : List SaveEventsRequest) (out : List Dto.Event) :
    Status → SaveEventsResponse → Prop
  | saved :
      out = events received → (∀ r ∈ received, ValidMessage r) →
      Tells received out .ok
        { success := true
          message := "Saved " ++ toString received.length ++ "/" ++ toString received.length
            ++ " events" }
  | invalid {rs : List SaveEventsRequest} {r : SaveEventsRequest} :
      received = rs ++ [r] → (∀ q ∈ rs, ValidMessage q) → ¬ValidMessage r →
      out = (events rs).take (wholeBatches rs.length) →
      Tells received out .ok
        { success := false
          message := "Validation failed at event " ++ toString rs.length ++ ": "
            ++ (validateSaveEventsRequest r).message }
  | batchFailed (error : String) :
      batchSize ∣ received.length → 0 < received.length →
      out = (events received).take (wholeBatches (received.length - 1)) →
      Tells received out .ok
        { success := false
          message := "Failed to save batch at event " ++ toString received.length ++ ": "
            ++ error }
  | finalBatchFailed (error : String) :
      ¬batchSize ∣ received.length →
      out = (events received).take (wholeBatches received.length) →
      Tells received out .ok
        { success := false, message := "Failed to save final batch: " ++ error }
  | cancelled :
      out = (events received).take (wholeBatches received.length) →
      Tells received out .cancelled
        { success := false
          message := "Cancelled by client at " ++ toString received.length ++ " events" }
  | fatal (what : String) :
      0 < received.length →
      out = (events received).take (wholeBatches (received.length - 1)) →
      Tells received out .ok { success := false, message := "Fatal error: " ++ what }

section Tells

variable {c c' : StreamCall} {out : List Dto.Event} {rs : List SaveEventsRequest} {status : Status}
  {response : SaveEventsResponse}

/-- What is persisted are the whole batches of what was handled, short of the
buffer. -/
theorem Synced.out_eq_take (h : c.Synced out rs) {n : Nat} (hle : out.length ≤ n)
    (hlt : n < out.length + batchSize) : out = (events rs).take (wholeBatches n) := by
  obtain ⟨k, hk⟩ := h.dvd_length
  have hdiv : n / batchSize = k := by
    have hpos : 0 < batchSize := by decide
    rw [Nat.div_eq_iff hpos, Nat.mul_comm, ← hk]
    omega
  rw [wholeBatches, hdiv, Nat.mul_comm, ← hk]
  exact List.prefix_iff_eq_take.mp h.isPrefix

/-- The counter is the number of the messages handled. -/
theorem Synced.total_eq (h : c.Synced out rs) (hlt : rs.length < 2 ^ 31) :
    toString c.totalEvents = toString rs.length := by
  rw [h.total, int32_of_lt hlt]
  rfl

/-- Everything received is saved, and both counters say so. -/
theorem tells_complete (hvalid : ∀ r ∈ c.received, ValidMessage r)
    (hlen : c.received.length < 2 ^ 31) (hsaved : c.savedEvents = int32 c.received.length)
    (htotal : c.totalEvents = int32 c.received.length)
    (hpc : c.complete.pc = .done status response) :
    Tells c.received (events c.received) status response := by
  simp only [complete, answer, StreamPc.done.injEq] at hpc
  obtain ⟨rfl, rfl⟩ := hpc
  rw [hsaved, htotal, int32_of_lt hlen]
  exact .saved rfl hvalid

theorem tells_endLoop (h : c.Synced out c.received) (hlen : c.received.length < 2 ^ 31)
    (hpc : c.endLoop.pc = .done status response) : Tells c.received out status response := by
  simp only [endLoop] at hpc
  split at hpc
  · rename_i hempty
    have hout : events c.received = out := by
      simpa [List.isEmpty_iff.mp hempty] using h.split
    have hsaved : c.savedEvents = int32 c.received.length := by
      rw [h.saved, ← hout, events_length]
    have hmoved := h.move c.pc c.received true
    exact hout ▸ tells_complete hmoved.valid hlen hsaved h.total hpc
  · cases hpc

theorem tells_loopBody {r : SaveEventsRequest} (hrec : c.received = rs ++ [r])
    (h : c.Synced out rs) (hlt : c.batch.length < batchSize) (hlen : rs.length < 2 ^ 31)
    (hpc : (c.loopBody r).pc = .done status response) : Tells c.received out status response := by
  have hlength := h.length
  by_cases hvalid : (validateSaveEventsRequest r).isOk = true
  · simp only [loopBody, hvalid, if_true] at hpc
    split at hpc <;> cases hpc
  · simp only [loopBody, hvalid, Bool.false_eq_true, if_false, answer, StreamPc.done.injEq] at hpc
    obtain ⟨rfl, rfl⟩ := hpc
    rw [h.total_eq hlen]
    exact .invalid hrec h.valid hvalid (h.out_eq_take (by omega) (by omega))

/-- `Execute` failed on a buffer that is not empty. -/
theorem tells_afterExecute (h : c.Synced out c.received) (hpos : 0 < c.batch.length)
    (hle : c.batch.length ≤ batchSize) {failure : String} {o : Outcome}
    (ho : o.success = false) (hpc : (c.afterExecute failure o).pc = .done status response) :
    (∃ what, o = .threw what) ∧ Tells c.received out status response
      ∨ ∃ error, status = .ok ∧ response = { success := false, message := failure ++ error } := by
  have hlength := h.length
  cases o with
  | threw what =>
      simp only [afterExecute, answer, StreamPc.done.injEq] at hpc
      obtain ⟨rfl, rfl⟩ := hpc
      exact .inl ⟨⟨what, rfl⟩, .fatal what (by omega) (h.out_eq_take (by omega) (by omega))⟩
  | returned result =>
      have hfail : result.success = false := ho
      simp only [afterExecute, answer, hfail, Bool.false_eq_true, if_false,
        StreamPc.done.injEq] at hpc
      exact .inr ⟨result.errorMessage, hpc.1.symm, hpc.2.symm⟩

theorem tells_afterBatch (h : c.Synced out c.received) (hfull : c.batch.length = batchSize)
    (hlen : c.received.length < 2 ^ 31) (o : Outcome)
    (hpc : (c.afterBatch o).pc = .done status response) :
    Tells c.received (out ++ if o.success then c.batch else []) status response := by
  have hlength := h.length
  have hpos : 0 < batchSize := by decide
  unfold afterBatch at hpc
  cases ho : o.success with
  | true => simp [ho] at hpc
  | false =>
      simp only [ho, Bool.false_eq_true, if_false] at hpc
      rw [if_neg Bool.false_ne_true, List.append_nil]
      rcases tells_afterExecute h (by omega) (by omega) ho hpc with
        ⟨-, htells⟩ | ⟨error, rfl, rfl⟩
      · exact htells
      · rw [h.total_eq hlen]
        have hdvd : batchSize ∣ c.received.length :=
          hlength ▸ Nat.dvd_add h.dvd_length (hfull ▸ Nat.dvd_refl _)
        exact .batchFailed error hdvd (by omega) (h.out_eq_take (by omega) (by omega))

theorem tells_afterFinalBatch (h : c.Synced out c.received) (hpos : 0 < c.batch.length)
    (hlt : c.batch.length < batchSize) (hlen : c.received.length < 2 ^ 31) (o : Outcome)
    (hpc : (c.afterFinalBatch o).pc = .done status response) :
    Tells c.received (out ++ if o.success then c.batch else []) status response := by
  have hlength := h.length
  unfold afterFinalBatch at hpc
  cases ho : o.success with
  | true =>
      simp only [ho, if_true, afterExecute_of_success c _ ho] at hpc
      rw [if_pos rfl, ← h.split]
      have hsaved : int32 (c.savedEvents + c.batch.length) = int32 c.received.length := by
        rw [h.saved, int32_add, hlength, Int.natCast_add]
      exact tells_complete (c := { c with
        savedEvents := int32 (c.savedEvents + c.batch.length)
        executed := c.executed ++ [(c.batch, true)] }) h.valid hlen hsaved h.total hpc
  | false =>
      simp only [ho, Bool.false_eq_true, if_false] at hpc
      rw [if_neg Bool.false_ne_true, List.append_nil]
      rcases tells_afterExecute h hpos (Nat.le_of_lt hlt) ho hpc with
        ⟨-, htells⟩ | ⟨error, rfl, rfl⟩
      · exact htells
      · refine .finalBatchFailed error (fun hdvd => ?_) (h.out_eq_take (by omega) (by omega))
        have hbatch : batchSize ∣ c.batch.length := by
          rw [hlength] at hdvd
          exact (Nat.dvd_add_right h.dvd_length).mp hdvd
        exact absurd (Nat.le_of_dvd hpos hbatch) (Nat.not_le_of_lt hlt)

theorem tells_afterIsCancelled (h : c.Synced out c.received) (hlt : c.batch.length < batchSize)
    (hlen : c.received.length < 2 ^ 31) (b : Bool)
    (hpc : (c.afterIsCancelled b).pc = .done status response) :
    Tells c.received out status response := by
  have hlength := h.length
  unfold afterIsCancelled at hpc
  split at hpc
  · simp only [answer, StreamPc.done.injEq] at hpc
    obtain ⟨rfl, rfl⟩ := hpc
    rw [h.total_eq hlen]
    exact .cancelled (h.out_eq_take (by omega) (by omega))
  · cases hpc

theorem afterExecute_received (c : StreamCall) (failure : String) (o : Outcome) :
    (c.afterExecute failure o).received = c.received := by
  cases ho : o.success with
  | true => rw [afterExecute_of_success c failure ho]
  | false =>
      obtain ⟨message, heq⟩ := afterExecute_of_not_success c failure ho
      rw [heq]

/-- Only `Read` changes what was received. -/
theorem received_piece (c : StreamCall) :
    c.endLoop.received = c.received ∧ (∀ r, (c.loopBody r).received = c.received)
      ∧ (∀ o, (c.afterBatch o).received = c.received)
      ∧ (∀ o, (c.afterFinalBatch o).received = c.received)
      ∧ ∀ b, (c.afterIsCancelled b).received = c.received := by
  refine ⟨?_, fun r => ?_, fun o => ?_, fun o => ?_, fun b => ?_⟩
  · simp only [endLoop]
    split <;> rfl
  · simp only [loopBody]
    split <;> rfl
  · simp only [afterBatch]
    split <;> exact afterExecute_received c _ o
  · simp only [afterFinalBatch]
    split <;> exact afterExecute_received c _ o
  · simp only [afterIsCancelled]
    split <;> rfl

/-- The rest that is left to the final batch is no full one. -/
def RestFits (c : StreamCall) : Prop := c.pc = .finalBatch → c.batch.length < batchSize

theorem restFits_next {i : Input} (h : c.Inv out) (hn : c.next i = some c') : c'.RestFits := by
  have hexecute {failure : String} {o : Outcome} (ho : o.success = false) :
      (c.afterExecute failure o).pc ≠ .finalBatch := by
    obtain ⟨message, heq⟩ := afterExecute_of_not_success c failure ho
    simp [heq]
  unfold next at hn
  split at hn
  all_goals first
    | (obtain rfl := Option.some.inj hn)
    | cases hn
  all_goals
    rename_i hpc
    intro hfinal
  · cases hfinal
  · have hlt := (h.atRead hpc).2.1
    simp only [endLoop]
    split <;> exact hlt
  · simp only [loopBody] at hfinal
    split at hfinal
    · dsimp only at hfinal
      split at hfinal <;> cases hfinal
    · cases hfinal
  · rename_i o _
    simp only [afterBatch] at hfinal
    split at hfinal
    · cases hfinal
    · exact absurd hfinal (hexecute (Bool.eq_false_iff.mpr ‹_›))
  · simp only [afterIsCancelled] at hfinal
    split at hfinal <;> cases hfinal
  · simp only [afterFinalBatch] at hfinal
    split at hfinal
    · cases hfinal
    · exact absurd hfinal (hexecute (Bool.eq_false_iff.mpr ‹_›))

/-- Each step that answers tells what is in the store. -/
theorem tells_next {i : Input} (h : c.Inv out) (hrest : c.RestFits) (hn : c.next i = some c')
    (hlen : c'.received.length < 2 ^ 31) (hpc' : c'.pc = .done status response) :
    Tells c'.received (out ++ c.writes i) status response := by
  obtain ⟨hend, hbody, hbatch, hfinal, hcancelled⟩ := received_piece c
  unfold next at hn
  unfold Inv at h
  split at hn
  all_goals first
    | (obtain rfl := Option.some.inj hn)
    | cases hn
  all_goals rename_i hpc; simp only [hpc] at h
  · cases hpc'
  · rw [hend] at hlen ⊢
    rw [show c.writes (.read none) = [] from rfl, List.append_nil]
    exact tells_endLoop h.1 hlen hpc'
  · obtain ⟨rs, hrec, hs, hlt, -⟩ := h
    rw [hbody] at hlen ⊢
    rw [show c.writes .proceed = [] from rfl, List.append_nil]
    have hrs : rs.length < 2 ^ 31 := by
      rw [hrec, List.length_append, List.length_singleton] at hlen
      omega
    exact tells_loopBody hrec hs hlt hrs hpc'
  · rw [hbatch] at hlen ⊢
    exact tells_afterBatch h.1 h.2.1 hlen _ hpc'
  · rw [hcancelled] at hlen ⊢
    rw [show c.writes (.isCancelled _) = [] from rfl, List.append_nil]
    exact tells_afterIsCancelled h.1 h.2.1 hlen _ hpc'
  · rw [hfinal] at hlen ⊢
    exact tells_afterFinalBatch h.1 h.2.1 (hrest hpc) hlen _ hpc'

/-- The answer of a call, once there is one. -/
theorem tells_run (h : machine.Run c out) (hlen : c.received.length < 2 ^ 31)
    (hpc : c.pc = .done status response) : Tells c.received out status response := by
  suffices hinv : c.Inv out ∧ c.RestFits ∧ (c.received.length < 2 ^ 31 →
      ∀ status response, c.pc = .done status response →
        Tells c.received out status response) from hinv.2.2 hlen status response hpc
  refine h.invariant (I := fun c out => c.Inv out ∧ c.RestFits ∧ (c.received.length < 2 ^ 31 →
    ∀ status response, c.pc = .done status response →
      Tells c.received out status response)) ?_ ?_
  · rintro c rfl
    exact ⟨inv_init, (nomatch ·), fun _ _ _ hpc => (nomatch hpc)⟩
  · rintro c out o c' ⟨hinv, hrest, -⟩ ⟨i, hn, rfl⟩
    exact ⟨inv_next hinv hn, restFits_next hinv hn,
      fun hlen _ _ hpc => tells_next hinv hrest hn hlen hpc⟩

end Tells

end StreamCall

/-- **The answer of a stream tells what is in the store**, whatever other calls
save in between: a call that has received less than 2^31 events and is
answered has persisted what the text of its answer says. -/
theorem saveEventsStream_tells {ι : Type} [DecidableEq ι] {rpc : ι → Rpc} {calls : ι → Call}
    {store : List (ι × Dto.Event)} (h : Service rpc calls store) (i : ι) (c : StreamCall)
    (hc : calls i = .saveEventsStream c) (hlen : c.received.length < 2 ^ 31)
    (status : Grpc.Status) (response : SaveEventsResponse)
    (hpc : c.pc = .done status response) :
    StreamCall.Tells c.received (share i store) status response :=
  StreamCall.tells_run (Call.stream_run (h.component i) c hc) hlen hpc

/-- The one message of the streaming call is saved, and counted twice. -/
theorem saveEventsStream_tells_sample :
    StreamCall.Tells [sampleMessage] [sampleEvent] .ok
      { success := true, message := "Saved 1/1 events" } := by
  obtain ⟨calls, h, hc⟩ := sampleService
  exact saveEventsStream_tells h true sampleStream hc (by decide) _ _ rfl

end EventHistory
