import EventHistory.Service.Streaming

/-!
# A streaming call and its transport

The stream handler against gRPC. A `Channel` holds the messages in flight;
the client's end appends messages and closes the stream (`WritesDone`), and
the call can be cancelled or break at any moment. Assumed of gRPC: messages
arrive in order, neither lost nor doubled, `IsCancelled` is true from the
cancellation on, and `Read` returns false both after `WritesDone` and on a
cancelled call. A message already in flight at the cancellation may still be
read where a step is marked `late`.

`Serving.inv_run` says what the handler can conclude from its transport:
`Read` returned false only at the end of the stream or on a cancelled call.
-/

namespace EventHistory

open Proto Transition
open Grpc (Status)

/-- The transport of one streaming call, as the server sees it. -/
structure Channel where
  queue : List SaveEventsRequest := []
  writesDone : Bool := false
  cancelled : Bool := false
deriving DecidableEq

namespace Channel

/-- What `Read` returns: a message, `some none` for false, `none` while it
has to wait. -/
def read (ch : Channel) (late : Bool) : Option (Option SaveEventsRequest) :=
  match ch.queue with
  | m :: _ => if ch.cancelled && !late then some none else some (some m)
  | [] => if ch.cancelled || ch.writesDone then some none else none

/-- A message that was read has left the queue. -/
def after (ch : Channel) : Input → Channel
  | .read (some _) => { ch with queue := ch.queue.tail }
  | _ => ch

@[simp] theorem after_cancelled (ch : Channel) (i : Input) :
    (ch.after i).cancelled = ch.cancelled := by
  unfold after
  split <;> rfl

@[simp] theorem after_writesDone (ch : Channel) (i : Input) :
    (ch.after i).writesDone = ch.writesDone := by
  unfold after
  split <;> rfl

/-- On a cancelled channel without late delivery `Read` returns false. -/
theorem read_cancelled {ch : Channel} (h : ch.cancelled = true) :
    ch.read false = some none := by
  unfold read
  split <;> simp [h]

/-- `Read` returns false only on a cancelled call, or when the client has
closed the stream and everything it wrote was read. -/
theorem read_false {ch : Channel} {late : Bool} (h : ch.read late = some none) :
    ch.cancelled = true ∨ ch.writesDone = true ∧ ch.queue = [] := by
  unfold read at h
  split at h
  · split at h
    · rename_i hc
      exact Or.inl (Bool.and_eq_true _ _ |>.mp hc).1
    · cases h
  · rename_i hq
    split at h
    · rename_i hc
      rcases Bool.or_eq_true _ _ |>.mp hc with hc | hc
      · exact Or.inl hc
      · exact Or.inr ⟨hc, hq⟩
    · cases h

/-- A message that is read was the first in flight. -/
theorem read_some {ch : Channel} {late : Bool} {m : SaveEventsRequest}
    (h : ch.read late = some (some m)) : ∃ q, ch.queue = m :: q := by
  unfold read at h
  split at h
  · rename_i m' q hq
    split at h
    · cases h
    · exact ⟨q, by rw [hq, Option.some.inj (Option.some.inj h)]⟩
  · split at h <;> cases h

end Channel

/-- The answer the handler's pending call gets from the transport, or `o`
where it waits for the use case. -/
def StreamCall.input (c : StreamCall) (ch : Channel) (late : Bool)
    (o : Outcome) : Option Input :=
  match c.pc with
  | .read => (ch.read late).map .read
  | .body _ => some .proceed
  | .executeBatch | .finalBatch => some (.execute o)
  | .isCancelled => some (.isCancelled ch.cancelled)
  | .done _ _ => none

/-- The messages an answer delivers to the handler. -/
def Input.delivered : Input → List SaveEventsRequest
  | .read (some m) => [m]
  | _ => []

namespace StreamCall

/-- What a step may change besides the batch and its counters: the messages
received, the end of the loop, and a status that is not OK. -/
structure Effect (c : StreamCall) (i : Input) (c' : StreamCall) : Prop where
  received : c'.received = c.received ++ i.delivered
  readEnded : c'.readEnded = true → c.readEnded = true ∨ i = .read none
  notOk : ∀ status response, c'.pc = .done status response →
    status.isOk = false → i = .isCancelled true

/-- A step that delivers nothing, leaves the loop mark alone and, if it
answers, answers OK. -/
theorem Effect.quiet {c c' : StreamCall} {i : Input} (hi : i.delivered = [])
    (hrec : c'.received = c.received) (hend : c'.readEnded = c.readEnded)
    (hok : ∀ status response, c'.pc = .done status response → status.isOk = true) :
    c.Effect i c' where
  received := by rw [hrec, hi, List.append_nil]
  readEnded h := Or.inl (hend ▸ h)
  notOk status response hpc hno := by
    rw [hok status response hpc] at hno
    cases hno

theorem status_ok_of_answer {c : StreamCall} {success : Bool} {message : String}
    {status : Status} {response : SaveEventsResponse}
    (h : (c.answer .ok success message).pc = .done status response) :
    status.isOk = true := by
  obtain ⟨rfl, -⟩ := StreamPc.done.inj h
  rfl

theorem effect_endLoop (c : StreamCall) : c.Effect (.read none) c.endLoop := by
  unfold endLoop
  by_cases hb : c.batch.isEmpty = true
  · rw [if_pos hb]
    refine ⟨(List.append_nil _).symm, fun _ => Or.inr rfl, ?_⟩
    intro status response hpc hno
    rw [status_ok_of_answer hpc] at hno
    cases hno
  · rw [if_neg hb]
    exact ⟨(List.append_nil _).symm, fun _ => Or.inr rfl, fun status response hpc => by cases hpc⟩

theorem effect_loopBody (c : StreamCall) (r : SaveEventsRequest) :
    c.Effect .proceed (c.loopBody r) := by
  unfold loopBody
  by_cases hv : (validateSaveEventsRequest r).isOk = true
  · rw [if_pos hv]
    refine Effect.quiet rfl rfl rfl ?_
    intro status response hpc
    by_cases hfull : c.batch.length + 1 ≥ batchSize
    · simp [hfull] at hpc
    · simp [hfull] at hpc
  · rw [if_neg hv]
    exact Effect.quiet rfl rfl rfl fun status response hpc => status_ok_of_answer hpc

theorem effect_afterBatch (c : StreamCall) (o : Outcome) :
    c.Effect (.execute o) (c.afterBatch o) := by
  unfold afterBatch
  cases ho : o.success with
  | true =>
      rw [if_pos rfl, afterExecute_of_success c _ ho]
      exact Effect.quiet rfl rfl rfl fun status response hpc => by cases hpc
  | false =>
      obtain ⟨message, heq⟩ := afterExecute_of_not_success c
        ("Failed to save batch at event " ++ toString c.totalEvents ++ ": ") ho
      rw [if_neg Bool.false_ne_true, heq]
      exact Effect.quiet rfl rfl rfl fun status response hpc => by cases hpc; rfl

theorem effect_afterFinalBatch (c : StreamCall) (o : Outcome) :
    c.Effect (.execute o) (c.afterFinalBatch o) := by
  unfold afterFinalBatch
  cases ho : o.success with
  | true =>
      rw [if_pos rfl, afterExecute_of_success c _ ho]
      exact Effect.quiet rfl rfl rfl fun status response hpc => status_ok_of_answer hpc
  | false =>
      obtain ⟨message, heq⟩ :=
        afterExecute_of_not_success c "Failed to save final batch: " ho
      rw [if_neg Bool.false_ne_true, heq]
      exact Effect.quiet rfl rfl rfl fun status response hpc => by cases hpc; rfl

theorem effect_afterIsCancelled (c : StreamCall) (b : Bool) :
    c.Effect (.isCancelled b) (c.afterIsCancelled b) := by
  unfold afterIsCancelled
  cases b with
  | true =>
      rw [if_pos rfl]
      exact ⟨(List.append_nil _).symm, Or.inl, fun _ _ _ _ => rfl⟩
  | false =>
      rw [if_neg Bool.false_ne_true]
      exact Effect.quiet rfl rfl rfl fun status response hpc => by cases hpc

theorem effect_next {c c' : StreamCall} {i : Input} (hn : c.next i = some c') :
    c.Effect i c' := by
  unfold next at hn
  split at hn
  all_goals first
    | (obtain rfl := Option.some.inj hn)
    | cases hn
  · exact ⟨rfl, Or.inl, fun status response hpc => by cases hpc⟩
  · exact effect_endLoop c
  · exact effect_loopBody c _
  · exact effect_afterBatch c _
  · exact effect_afterIsCancelled c _
  · exact effect_afterFinalBatch c _

theorem input_read {c : StreamCall} {ch : Channel} {late : Bool} {o : Outcome}
    {x : Option SaveEventsRequest} (h : c.input ch late o = some (.read x)) :
    c.pc = .read ∧ ch.read late = some x := by
  unfold input at h
  split at h
  · rename_i hpc
    obtain ⟨y, hy, heq⟩ := Option.map_eq_some_iff.mp h
    exact ⟨hpc, by rw [hy, Input.read.inj heq]⟩
  all_goals cases h

theorem input_execute {c : StreamCall} {ch : Channel} {late : Bool} {o o' : Outcome}
    (h : c.input ch late o = some (.execute o')) : o = o' := by
  unfold input at h
  split at h
  · obtain ⟨y, -, heq⟩ := Option.map_eq_some_iff.mp h
    cases heq
  · cases h
  · exact Input.execute.inj (Option.some.inj h)
  · exact Input.execute.inj (Option.some.inj h)
  · cases h
  · cases h

theorem input_isCancelled {c : StreamCall} {ch : Channel} {late : Bool} {o : Outcome}
    {b : Bool} (h : c.input ch late o = some (.isCancelled b)) : ch.cancelled = b := by
  unfold input at h
  split at h
  · obtain ⟨y, -, heq⟩ := Option.map_eq_some_iff.mp h
    cases heq
  · cases h
  · cases h
  · cases h
  · exact Input.isCancelled.inj (Option.some.inj h)
  · cases h

end StreamCall

/-- A streaming call being served. -/
structure Serving where
  channel : Channel := {}
  call : StreamCall := {}

namespace Serving

inductive Act where
  | write (message : SaveEventsRequest)
  | writesDone
  | cancel
  | serve (late : Bool) (outcome : Outcome)

def next (s : Serving) : Act → Option Serving
  | .write m =>
      if s.channel.writesDone then none
      else some { s with channel := { s.channel with queue := s.channel.queue ++ [m] } }
  | .writesDone => some { s with channel := { s.channel with writesDone := true } }
  | .cancel => some { s with channel := { s.channel with cancelled := true } }
  | .serve late o =>
      (s.call.input s.channel late o).bind fun i =>
        (s.call.next i).map fun c => { channel := s.channel.after i, call := c }

def writes (s : Serving) : Act → List Dto.Event
  | .serve late o => ((s.call.input s.channel late o).map s.call.writes).getD []
  | _ => []

def machine : Machine Serving Dto.Event := .ofFn (· = {}) next writes

/-- What each step does: the client's end changes the channel only, and a
served step is one of the call, on the input the transport gives. -/
theorem next_cases {s s' : Serving} {a : Act} (h : s.next a = some s') :
    (∃ m, a = .write m ∧ s.channel.writesDone = false
      ∧ s' = { s with channel := { s.channel with queue := s.channel.queue ++ [m] } })
    ∨ (a = .writesDone ∧ s' = { s with channel := { s.channel with writesDone := true } })
    ∨ (a = .cancel ∧ s' = { s with channel := { s.channel with cancelled := true } })
    ∨ ∃ late o i c, a = .serve late o ∧ s.call.input s.channel late o = some i
      ∧ s.call.next i = some c ∧ s' = { channel := s.channel.after i, call := c }
      ∧ s.writes a = s.call.writes i := by
  cases a with
  | write m =>
      simp only [next] at h
      split at h
      · cases h
      · rename_i hw
        exact Or.inl ⟨m, rfl, by simpa using hw, (Option.some.inj h).symm⟩
  | writesDone => exact Or.inr (Or.inl ⟨rfl, (Option.some.inj h).symm⟩)
  | cancel => exact Or.inr (Or.inr (Or.inl ⟨rfl, (Option.some.inj h).symm⟩))
  | serve late o =>
      obtain ⟨i, hi, h⟩ := Option.bind_eq_some_iff.mp h
      obtain ⟨c, hc, rfl⟩ := Option.map_eq_some_iff.mp h
      exact Or.inr (Or.inr (Or.inr ⟨late, o, i, c, rfl, hi, hc, rfl, by simp [writes, hi]⟩))

/-- The transport adds no behaviour: the call runs as it does on its own. -/
theorem call_steps {s s' : Serving} {o : List Dto.Event}
    (h : machine.step s o s') : StreamCall.machine.Steps s.call o s'.call := by
  obtain ⟨a, hn, rfl⟩ := h
  rcases next_cases hn with
    ⟨m, rfl, -, rfl⟩ | ⟨rfl, rfl⟩ | ⟨rfl, rfl⟩ | ⟨late, o, i, c, rfl, -, hc, rfl, hw⟩
  · exact .refl
  · exact .refl
  · exact .refl
  · exact hw ▸ Machine.Steps.single ⟨i, hc, rfl⟩

theorem call_run {s : Serving} {out : List Dto.Event} (h : machine.Run s out) :
    StreamCall.machine.Run s.call out := by
  obtain ⟨c, hc, rfl⟩ := h.simulate (A := StreamCall.machine)
    (R := fun s c => s.call = c) (fun s hs => ⟨{}, rfl, by rw [hs]⟩)
    (fun s c o s' hsc hs => ⟨s'.call, hsc ▸ call_steps hs, rfl⟩)
  exact hc

/-! ### What the transport tells the handler -/

/-- The messages of the call, read or in flight. -/
def transit (s : Serving) : List SaveEventsRequest :=
  s.call.received ++ s.channel.queue

/-- What a step of the client's end puts in flight. -/
def Act.sent : Act → List SaveEventsRequest
  | .write m => [m]
  | _ => []

/-- The loop ended because the stream did or the call was cancelled, and only
a cancelled call is answered with a status that is not OK. -/
structure Inv (s : Serving) : Prop where
  ended : s.call.readEnded = true →
    s.channel.cancelled = true ∨ s.channel.writesDone = true ∧ s.channel.queue = []
  notOk : ∀ status response, s.call.pc = .done status response →
    status.isOk = false → s.channel.cancelled = true

/-- Reading a message takes it from the queue to the handler. -/
theorem queue_after {c : StreamCall} {ch : Channel} {late : Bool} {o : Outcome}
    {i : Input} (h : c.input ch late o = some i) :
    ch.queue = i.delivered ++ (ch.after i).queue := by
  cases i with
  | read x =>
      cases x with
      | none => rfl
      | some m =>
          obtain ⟨q, hq⟩ := Channel.read_some (StreamCall.input_read h).2
          simp [Input.delivered, Channel.after, hq]
  | execute o => rfl
  | isCancelled b => rfl
  | proceed => rfl

/-- No message is lost or doubled on its way: a step adds to the messages of
the call what the client's end sends in it. -/
theorem transit_next {s s' : Serving} {a : Act} (h : s.next a = some s') :
    s'.transit = s.transit ++ a.sent := by
  rcases next_cases h with
    ⟨m, rfl, -, rfl⟩ | ⟨rfl, rfl⟩ | ⟨rfl, rfl⟩ | ⟨late, o, i, c, rfl, hi, hc, rfl, -⟩
  · simp [transit, Act.sent]
  · simp [transit, Act.sent]
  · simp [transit, Act.sent]
  · simp [transit, Act.sent, (StreamCall.effect_next hc).received, queue_after hi]

theorem inv_next {s s' : Serving} {a : Act} (hs : s.Inv) (h : s.next a = some s') :
    s'.Inv := by
  rcases next_cases h with
    ⟨m, rfl, hw, rfl⟩ | ⟨rfl, rfl⟩ | ⟨rfl, rfl⟩ | ⟨late, o, i, c, rfl, hi, hc, rfl, -⟩
  · refine ⟨?_, hs.notOk⟩
    intro hr
    rcases hs.ended hr with hcan | ⟨hwd, -⟩
    · exact Or.inl hcan
    · rw [hw] at hwd
      cases hwd
  · exact ⟨fun hr => (hs.ended hr).imp_right fun hq => ⟨rfl, hq.2⟩, hs.notOk⟩
  · exact ⟨fun _ => Or.inl rfl, fun _ _ _ _ => rfl⟩
  · have heff := StreamCall.effect_next hc
    refine ⟨?_, ?_⟩
    · intro hr
      simp only [Channel.after_cancelled, Channel.after_writesDone]
      have hqueue : s.channel.queue = [] → (s.channel.after i).queue = [] := fun hq =>
        (List.append_eq_nil_iff.mp ((queue_after hi).symm.trans hq)).2
      rcases heff.readEnded hr with hr | rfl
      · exact (hs.ended hr).imp_right fun hq => ⟨hq.1, hqueue hq.2⟩
      · exact (Channel.read_false (StreamCall.input_read hi).2).imp_right
          fun hq => ⟨hq.1, hqueue hq.2⟩
    · intro status response hpc hno
      obtain rfl := heff.notOk status response hpc hno
      rw [Channel.after_cancelled]
      exact StreamCall.input_isCancelled hi

theorem inv_run {s : Serving} {out : List Dto.Event} (h : machine.Run s out) : s.Inv := by
  refine h.invariant (I := fun s _ => s.Inv) ?_ fun s _ _ s' hs hstep => ?_
  · rintro s rfl
    exact ⟨fun hr => absurd hr Bool.false_ne_true, fun status response hpc => by cases hpc⟩
  · obtain ⟨a, hn, -⟩ := hstep
    exact inv_next hs hn

/-- A call that answers success has read the stream to its end, or was
cancelled. -/
theorem success_ended {t : Serving} {out : List Dto.Event} (h : machine.Run t out)
    {status : Status} {response : SaveEventsResponse}
    (hpc : t.call.pc = .done status response) (hs : response.success = true) :
    t.channel.cancelled = true ∨ t.channel.writesDone = true ∧ t.channel.queue = [] := by
  have hans := (StreamCall.inv_run (call_run h)).answered hpc
  exact (inv_run h).ended (hans.success.mp hs).1

end Serving

end EventHistory
