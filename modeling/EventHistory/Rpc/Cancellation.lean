import EventHistory.Rpc.Serving

/-!
# How a cancellation is noticed

The stream handler learns of a cancellation in two ways. The check in the
loop answers `CANCELLED`; a `Read` that returns false leaves the loop as if
the stream were complete, and the buffered rest is saved. Once a call is
cancelled the handler's inputs are determined, but for the answer of the one
`Execute` it may still make, so every schedule ends in the same answer
(`StreamCall.settle`); `cancel_noticed_iff` says which answer it is, by the
moment of the cancellation.
-/

namespace EventHistory

open Proto Transition
open Grpc (Status)

namespace StreamCall

/-- The handler's next step on a cancelled call; `o` answers `Execute`. -/
def cancelledStep (o : Outcome) (c : StreamCall) : StreamCall :=
  match c.pc with
  | .read => c.endLoop
  | .body r => c.loopBody r
  | .executeBatch => c.afterBatch o
  | .isCancelled => c.afterIsCancelled true
  | .finalBatch => c.afterFinalBatch o
  | .done _ _ => c

/-- The answered state a cancelled call runs to: body, full batch and check
are the longest way out. -/
def settle (o : Outcome) (c : StreamCall) : StreamCall :=
  cancelledStep o (cancelledStep o (cancelledStep o c))

def IsDone (c : StreamCall) : Prop := ∃ status response, c.pc = .done status response

theorem cancelledStep_of_done {c : StreamCall} (h : c.IsDone) (o : Outcome) :
    c.cancelledStep o = c := by
  obtain ⟨status, response, hpc⟩ := h
  unfold cancelledStep
  rw [hpc]

/-- How many steps a cancelled call is from its answer, at most. -/
def distance (c : StreamCall) : Nat :=
  match c.pc with
  | .body _ => 3
  | .read | .executeBatch => 2
  | .isCancelled | .finalBatch => 1
  | .done _ _ => 0

theorem distance_eq_zero {c : StreamCall} (h : c.distance = 0) : c.IsDone := by
  unfold distance at h
  cases hpc : c.pc with
  | done status response => exact ⟨status, response, hpc⟩
  | _ => rw [hpc] at h; cases h

theorem distance_afterExecute {c : StreamCall} {failure : String} {o : Outcome}
    (ho : o.success = false) : (c.afterExecute failure o).distance = 0 := by
  obtain ⟨message, heq⟩ := afterExecute_of_not_success c failure ho
  rw [heq]
  rfl

theorem distance_endLoop (c : StreamCall) : c.endLoop.distance ≤ 1 := by
  unfold endLoop
  by_cases hb : c.batch.isEmpty = true
  · rw [if_pos hb]
    exact Nat.zero_le _
  · rw [if_neg hb]
    exact Nat.le_refl _

theorem distance_loopBody (c : StreamCall) (r : SaveEventsRequest) :
    (c.loopBody r).distance ≤ 2 := by
  unfold loopBody
  by_cases hv : (validateSaveEventsRequest r).isOk = true
  · rw [if_pos hv]
    by_cases hfull : c.batch.length + 1 ≥ batchSize
    · rw [if_pos hfull]
      exact Nat.le_refl _
    · rw [if_neg hfull]
      exact Nat.le_succ _
  · rw [if_neg hv]
    exact Nat.zero_le _

theorem distance_afterBatch (c : StreamCall) (o : Outcome) :
    (c.afterBatch o).distance ≤ 1 := by
  unfold afterBatch
  cases ho : o.success with
  | true => exact Nat.le_refl _
  | false => exact (distance_afterExecute ho).le.trans (Nat.zero_le _)

theorem distance_afterFinalBatch (c : StreamCall) (o : Outcome) :
    (c.afterFinalBatch o).distance = 0 := by
  unfold afterFinalBatch
  cases ho : o.success with
  | true => rfl
  | false => exact distance_afterExecute ho

theorem distance_cancelledStep (o : Outcome) (c : StreamCall) :
    (c.cancelledStep o).distance ≤ c.distance - 1 := by
  unfold cancelledStep
  cases hpc : c.pc with
  | read => simpa [distance, hpc] using c.distance_endLoop
  | body r => simpa [distance, hpc] using c.distance_loopBody r
  | executeBatch => simpa [distance, hpc] using c.distance_afterBatch o
  | isCancelled => exact Nat.zero_le _
  | finalBatch => exact (distance_afterFinalBatch c o).le.trans (Nat.zero_le _)
  | done status response => simp [distance, hpc]

theorem settle_done (o : Outcome) (c : StreamCall) : (settle o c).IsDone := by
  have h₁ := distance_cancelledStep o c
  have h₂ := distance_cancelledStep o (c.cancelledStep o)
  have h₃ := distance_cancelledStep o ((c.cancelledStep o).cancelledStep o)
  have h₀ : c.distance ≤ 3 := by
    unfold distance
    split <;> decide
  exact distance_eq_zero (by unfold settle; omega)

/-- A step of a cancelled call does not change where it ends. -/
theorem settle_cancelledStep (o : Outcome) (c : StreamCall) :
    settle o (c.cancelledStep o) = settle o c :=
  cancelledStep_of_done (settle_done o c) o

theorem settle_of_done {c : StreamCall} (h : c.IsDone) (o : Outcome) :
    settle o c = c := by
  unfold settle
  rw [cancelledStep_of_done h, cancelledStep_of_done h, cancelledStep_of_done h]

/-- On a cancelled channel a call that is not answered can take its step,
and that step is `cancelledStep`. -/
theorem next_of_cancelled {c : StreamCall} {ch : Channel}
    (hc : ch.cancelled = true) (o : Outcome) (hrun : ¬c.IsDone) :
    ∃ i, c.input ch false o = some i ∧ c.next i = some (c.cancelledStep o) := by
  unfold input cancelledStep next
  rw [Channel.read_cancelled hc, hc]
  cases hpc : c.pc with
  | done status response => exact absurd ⟨status, response, hpc⟩ hrun
  | read => exact ⟨_, rfl, rfl⟩
  | body r => exact ⟨_, rfl, rfl⟩
  | executeBatch => exact ⟨_, rfl, rfl⟩
  | isCancelled => exact ⟨_, rfl, rfl⟩
  | finalBatch => exact ⟨_, rfl, rfl⟩

/-! ### Which answer it is -/

/-- The call answered `CANCELLED` with `success` false. -/
def AnsweredCancelled (c : StreamCall) : Prop :=
  ∃ response, c.pc = .done .cancelled response ∧ response.success = false

/-- The cancellation is noticed by the check in the loop: the call is past a
`Read` that delivered, and what is left of the iteration up to the check
goes through. -/
def NoticedByCheck (c : StreamCall) (o : Outcome) : Prop :=
  match c.pc with
  | .isCancelled => True
  | .body r => ValidMessage r ∧ (c.batch.length + 1 < batchSize ∨ o.success = true)
  | .executeBatch => o.success = true
  | .read | .finalBatch | .done _ _ => False

theorem settle_eq (o : Outcome) {c c' : StreamCall} (h : c.cancelledStep o = c') :
    settle o c = settle o c' := by
  rw [← h, settle_cancelledStep]

theorem not_answeredCancelled_of_ok {c : StreamCall} {response : SaveEventsResponse}
    (h : c.pc = .done .ok response) (o : Outcome) : ¬(settle o c).AnsweredCancelled := by
  rw [settle_of_done ⟨_, _, h⟩]
  rintro ⟨response', hpc, -⟩
  rw [h] at hpc
  cases hpc

theorem answeredCancelled_check {c : StreamCall} (o : Outcome)
    (hpc : c.pc = .isCancelled) : (settle o c).AnsweredCancelled := by
  have hstep : c.cancelledStep o = c.afterIsCancelled true := by
    simp only [cancelledStep, hpc]
  rw [settle_eq o hstep, settle_of_done ⟨_, _, rfl⟩]
  exact ⟨_, rfl, rfl⟩

theorem answeredCancelled_executeBatch {c : StreamCall} (o : Outcome)
    (hpc : c.pc = .executeBatch) :
    (settle o c).AnsweredCancelled ↔ o.success = true := by
  have hstep : c.cancelledStep o = c.afterBatch o := by simp only [cancelledStep, hpc]
  rw [settle_eq o hstep]
  unfold afterBatch
  cases ho : o.success with
  | true => exact iff_of_true (answeredCancelled_check o rfl) rfl
  | false =>
      obtain ⟨message, heq⟩ := afterExecute_of_not_success c
        ("Failed to save batch at event " ++ toString c.totalEvents ++ ": ") ho
      exact iff_of_false (not_answeredCancelled_of_ok (by rw [heq]; rfl) o)
        Bool.false_ne_true

theorem answeredCancelled_body {c : StreamCall} (o : Outcome) {r : SaveEventsRequest}
    (hpc : c.pc = .body r) :
    (settle o c).AnsweredCancelled ↔
      ValidMessage r ∧ (c.batch.length + 1 < batchSize ∨ o.success = true) := by
  have hstep : c.cancelledStep o = c.loopBody r := by simp only [cancelledStep, hpc]
  rw [settle_eq o hstep]
  unfold loopBody
  by_cases hv : (validateSaveEventsRequest r).isOk = true
  · rw [if_pos hv]
    by_cases hfull : c.batch.length + 1 ≥ batchSize
    · rw [answeredCancelled_executeBatch o (if_pos hfull)]
      exact ⟨fun ho => ⟨hv, Or.inr ho⟩,
        fun h => h.2.resolve_left (Nat.not_lt.mpr hfull)⟩
    · exact iff_of_true (answeredCancelled_check o (if_neg hfull))
        ⟨hv, Or.inl (Nat.lt_of_not_le hfull)⟩
  · rw [if_neg hv]
    exact iff_of_false (not_answeredCancelled_of_ok rfl o) fun h => hv h.1

theorem not_answeredCancelled_finalBatch {c : StreamCall} (o : Outcome)
    (hpc : c.pc = .finalBatch) : ¬(settle o c).AnsweredCancelled := by
  have hstep : c.cancelledStep o = c.afterFinalBatch o := by
    simp only [cancelledStep, hpc]
  rw [settle_eq o hstep]
  unfold afterFinalBatch
  cases ho : o.success with
  | true => exact not_answeredCancelled_of_ok rfl o
  | false =>
      obtain ⟨message, heq⟩ :=
        afterExecute_of_not_success c "Failed to save final batch: " ho
      exact not_answeredCancelled_of_ok (by rw [heq]; rfl) o

theorem not_answeredCancelled_read {c : StreamCall} (o : Outcome)
    (hpc : c.pc = .read) : ¬(settle o c).AnsweredCancelled := by
  have hstep : c.cancelledStep o = c.endLoop := by simp only [cancelledStep, hpc]
  rw [settle_eq o hstep]
  unfold endLoop
  by_cases hb : c.batch.isEmpty = true
  · rw [if_pos hb]
    exact not_answeredCancelled_of_ok rfl o
  · rw [if_neg hb]
    exact not_answeredCancelled_finalBatch o rfl

/-- A cancelled call that is still running answers `CANCELLED` exactly when
the check is the one to notice. -/
theorem answeredCancelled_iff {c : StreamCall} (hrun : ¬c.IsDone) (o : Outcome) :
    (settle o c).AnsweredCancelled ↔ c.NoticedByCheck o := by
  unfold NoticedByCheck
  cases hpc : c.pc with
  | read => exact iff_of_false (not_answeredCancelled_read o hpc) id
  | body r => exact answeredCancelled_body o hpc
  | executeBatch => exact answeredCancelled_executeBatch o hpc
  | isCancelled => exact iff_of_true (answeredCancelled_check o hpc) trivial
  | finalBatch => exact iff_of_false (not_answeredCancelled_finalBatch o hpc) id
  | done status response => exact absurd ⟨status, response, hpc⟩ hrun

end StreamCall

namespace Serving

/-- The state the moment after a cancellation. -/
def cancel (s : Serving) : Serving :=
  { s with channel := { s.channel with cancelled := true } }

/-- What the client can rely on when a cancellation is handled: the status
is `CANCELLED`, `success` is false, and what was persisted is a whole number
of batches, so nothing of the unfinished one. -/
def HandledAsCancelled (s : Serving) (persisted : List Dto.Event) : Prop :=
  s.call.AnsweredCancelled ∧ 1000 ∣ persisted.length

/-- A step after the cancellation: `Read` does not deliver late, and `o` is
the answer of `Execute`. The client's end may still do anything. -/
def AfterCancel (o : Outcome) (a : Act) : Prop :=
  ∀ late o', a = .serve late o' → late = false ∧ o' = o

/-- A cancelled call stays on the way to the one state it settles in. -/
theorem settle_next {s s' : Serving} {o : Outcome} {a : Act}
    (hc : s.channel.cancelled = true) (ha : AfterCancel o a)
    (hn : s.next a = some s') :
    s'.channel.cancelled = true ∧ s'.call.settle o = s.call.settle o := by
  rcases next_cases hn with
    ⟨m, rfl, -, rfl⟩ | ⟨rfl, rfl⟩ | ⟨rfl, rfl⟩ | ⟨late, o', i, c, rfl, hi, hcn, rfl, -⟩
  · exact ⟨hc, rfl⟩
  · exact ⟨hc, rfl⟩
  · exact ⟨rfl, rfl⟩
  · obtain ⟨rfl, rfl⟩ := ha late o' rfl
    refine ⟨by rw [Channel.after_cancelled]; exact hc, ?_⟩
    have hrun : ¬s.call.IsDone := by
      rintro ⟨status, response, hpc⟩
      simp [StreamCall.input, hpc] at hi
    obtain ⟨i', hi', hstep⟩ := StreamCall.next_of_cancelled hc o' hrun
    obtain rfl := Option.some.inj (hi.symm.trans hi')
    rw [Option.some.inj (hcn.symm.trans hstep), StreamCall.settle_cancelledStep]

theorem settle_feed {o : Outcome} :
    ∀ {acts : List Act} {s f : Serving} {out : List Dto.Event},
      s.channel.cancelled = true → (∀ a ∈ acts, AfterCancel o a) →
      Machine.feed next writes s acts = some (f, out) →
      f.call.settle o = s.call.settle o
  | [], s, f, out, _, _, hf => by
      obtain ⟨rfl, -⟩ := Prod.mk.injEq .. |>.mp (Option.some.inj hf)
      rfl
  | a :: acts, s, f, out, hc, ha, hf => by
      obtain ⟨s₁, hn, hf₁⟩ := Option.bind_eq_some_iff.mp hf
      obtain ⟨⟨f', out'⟩, hf₂, heq⟩ := Option.map_eq_some_iff.mp hf₁
      have hff : f' = f := (Prod.mk.inj heq).1
      obtain ⟨hc₁, hset⟩ := settle_next hc (ha a List.mem_cons_self) hn
      rw [← hff, settle_feed hc₁ (fun b hb => ha b (List.mem_cons_of_mem _ hb)) hf₂, hset]

/-- A cancelled call can always run to its answer. -/
theorem exists_feed_done (o : Outcome) :
    ∀ (n : Nat) (s : Serving), s.channel.cancelled = true → s.call.distance ≤ n →
      ∃ acts f out, (∀ a ∈ acts, AfterCancel o a)
        ∧ Machine.feed next writes s acts = some (f, out) ∧ f.call.IsDone
  | 0, s, _, hd =>
      ⟨[], s, [], by simp, rfl, StreamCall.distance_eq_zero (Nat.le_zero.mp hd)⟩
  | n + 1, s, hc, hd => by
      by_cases hrun : s.call.IsDone
      · exact ⟨[], s, [], by simp, rfl, hrun⟩
      · obtain ⟨i, hi, hnext⟩ := StreamCall.next_of_cancelled hc o hrun
        have hstep : s.next (.serve false o) = some
            { channel := s.channel.after i, call := s.call.cancelledStep o } := by
          simp [next, hi, hnext]
        have hdist := StreamCall.distance_cancelledStep o s.call
        obtain ⟨acts, f, out, ha, hf, hdone⟩ := exists_feed_done o n
          { channel := s.channel.after i, call := s.call.cancelledStep o }
          (by rw [Channel.after_cancelled]; exact hc) (by simp only; omega)
        refine ⟨.serve false o :: acts, f, s.writes (.serve false o) ++ out, ?_, ?_, hdone⟩
        · refine List.forall_mem_cons.mpr ⟨?_, ha⟩
          rintro late o' heq
          obtain ⟨rfl, rfl⟩ := Act.serve.inj heq
          exact ⟨rfl, rfl⟩
        · simp only [Machine.feed, hstep, Option.bind_some, hf, Option.map_some]

/-- **How a cancellation is noticed.** The client has streamed any messages
and the call was served in any way when it is cancelled. The call then runs
to an answer, and whatever the answer `o` of the `Execute` it may still make,
it is handled as a cancellation exactly when the check in the loop is the one
to notice: a call that waits in `Read` saves the unfinished batch and reports
success, or the failure of that save. -/
theorem cancel_noticed_iff {s : Serving} {out : List Dto.Event}
    (h : machine.Run s out) (hrun : ¬s.call.IsDone) (o : Outcome) :
    (∃ acts f out', (∀ a ∈ acts, AfterCancel o a)
      ∧ Machine.feed next writes s.cancel acts = some (f, out') ∧ f.call.IsDone)
    ∧ ∀ acts f out', (∀ a ∈ acts, AfterCancel o a) →
        Machine.feed next writes s.cancel acts = some (f, out') → f.call.IsDone →
        (f.HandledAsCancelled (out ++ out') ↔ s.call.NoticedByCheck o) := by
  refine ⟨exists_feed_done o _ s.cancel rfl (Nat.le_refl _), ?_⟩
  intro acts f out' hacts hf hdone
  have hsettle : f.call.settle o = s.cancel.call.settle o := settle_feed rfl hacts hf
  have hset : f.call = s.call.settle o :=
    (StreamCall.settle_of_done hdone o).symm.trans hsettle
  have hcall : f.call.AnsweredCancelled ↔ s.call.NoticedByCheck o := by
    rw [hset]
    exact StreamCall.answeredCancelled_iff hrun o
  refine ⟨fun hh => hcall.mp hh.1, fun hh => ⟨hcall.mpr hh, ?_⟩⟩
  have hcancel : machine.Run s.cancel (out ++ []) := h.step ⟨.cancel, rfl, rfl⟩
  rw [List.append_nil] at hcancel
  have hreach : machine.Run f (out ++ out') := hcancel.steps (Machine.steps_of_feed hf)
  obtain ⟨response, hpc, hfail⟩ := hcall.mpr hh
  exact ((StreamCall.inv_run (call_run hreach)).answered hpc).dvd_length hfail

/-! ### One event, and a client that goes away -/

/-- One message has been written and read. -/
def sample : Serving :=
  { call := { pc := .body sampleMessage, received := [sampleMessage] } }

theorem afterCancel_pair (o : Outcome) :
    ∀ a ∈ [Act.serve false o, Act.serve false o], AfterCancel o a := by
  intro a ha late o' heq
  simp only [List.mem_cons, List.not_mem_nil, or_false, or_self] at ha
  obtain ⟨rfl, rfl⟩ := Act.serve.inj (ha.symm.trans heq)
  exact ⟨rfl, rfl⟩

theorem sample_run : machine.Run sample [] :=
  (Machine.Run.start (M := machine) rfl).steps
    (Machine.steps_of_feed (l := [.write sampleMessage, .serve false (.threw "")]) rfl)

/-- Cancelled in the loop body, the call is answered by the check. -/
theorem cancel_noticed_iff_sample :
    ∃ acts f, Machine.feed next writes sample.cancel acts = some (f, [])
      ∧ f.HandledAsCancelled [] := by
  have hrun : ¬sample.call.IsDone := by
    rintro ⟨status, response, hpc⟩
    cases hpc
  have hnoticed : sample.call.NoticedByCheck (.returned .ok) :=
    ⟨by unfold StreamCall.ValidMessage; decide, Or.inl (by decide)⟩
  refine ⟨[.serve false (.returned .ok), .serve false (.returned .ok)], _, rfl, ?_⟩
  have hiff := (cancel_noticed_iff sample_run hrun (.returned .ok)).2
    [.serve false (.returned .ok), .serve false (.returned .ok)] _ [] (afterCancel_pair _) rfl
    ⟨_, _, rfl⟩
  exact hiff.mpr hnoticed

/-- One iteration later the call waits in `Read`: cancelled there, it
persists the one event of its unfinished batch and answers success. -/
theorem cancelled_read_saves_rest :
    ∃ s acts f, machine.Run s [] ∧ s.channel.cancelled = false
      ∧ s.channel.writesDone = false ∧ (∀ a ∈ acts, AfterCancel (.returned .ok) a)
      ∧ Machine.feed next writes s.cancel acts = some (f, [sampleEvent])
      ∧ f.call.pc = .done .ok { success := true, message := "Saved 1/1 events" }
      ∧ ¬f.HandledAsCancelled [sampleEvent] := by
  have hs := sample_run.steps (Machine.steps_of_feed
    (l := [.serve false (.threw ""), .serve false (.threw "")]) rfl)
  refine ⟨_, [.serve false (.returned .ok), .serve false (.returned .ok)], _, hs, rfl, rfl,
    afterCancel_pair _, rfl, rfl, ?_⟩
  rintro ⟨⟨response, hpc, -⟩, -⟩
  cases hpc

end Serving

end EventHistory
