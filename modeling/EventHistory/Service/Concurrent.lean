import EventHistory.Service.Streaming

/-!
# Concurrent calls on one service

Any family of `SaveEvent` and `SaveEventsStream` calls on one
`GrpcEventServiceImpl`, interleaved at the calls they block in. Each
`Execute` appends all its events to the store they share or none of them;
the store is a log of events tagged with the call that saved them, and
`share i log` is what call `i` has persisted. `Service.OverPostgres` puts the
repository in the place of the store.
-/

namespace EventHistory

open Proto Transition

/-- The RPC a client invoked. -/
inductive Rpc where
  | saveEvent (request : SaveEventRequest)
  | saveEventsStream

/-- A call in progress. -/
inductive Call where
  | saveEvent (call : SaveEventCall)
  | saveEventsStream (call : StreamCall)

namespace Call

def start : Rpc → Call
  | .saveEvent request => .saveEvent (.received request)
  | .saveEventsStream => .saveEventsStream {}

def next : Call → Input → Option Call
  | .saveEvent c, i => (c.next i).map .saveEvent
  | .saveEventsStream c, i => (c.next i).map .saveEventsStream

def writes : Call → Input → List Dto.Event
  | .saveEvent c, i => c.writes i
  | .saveEventsStream c, i => c.writes i

def machine (rpc : Rpc) : Machine Call Dto.Event :=
  .ofFn (· = start rpc) next writes

/-- A call that is a stream was one from the start, and runs as one. -/
theorem stream_run {rpc : Rpc} {call : Call} {out : List Dto.Event}
    (h : (machine rpc).Run call out) :
    ∀ c, call = .saveEventsStream c → StreamCall.machine.Run c out := by
  induction h with
  | @start s h0 =>
      rintro c rfl
      cases rpc with
      | saveEvent request => cases h0
      | saveEventsStream => exact .start (Call.saveEventsStream.inj h0)
  | @step s s' out o _ hs ih =>
      rintro c rfl
      obtain ⟨i, hnext, rfl⟩ := hs
      cases s with
      | saveEvent c₀ =>
          obtain ⟨c', -, hc'⟩ := Option.map_eq_some_iff.mp hnext
          cases hc'
      | saveEventsStream c₀ =>
          obtain ⟨c', hc', heq⟩ := Option.map_eq_some_iff.mp hnext
          obtain rfl := Call.saveEventsStream.inj heq
          exact (ih c₀ rfl).step ⟨i, hc', rfl⟩

end Call

/-- The service with the calls `rpc`, one for each index: reachable states
of the calls and the store. -/
abbrev Service {ι : Type} [DecidableEq ι] (rpc : ι → Rpc) :
    (ι → Call) → List (ι × Dto.Event) → Prop :=
  Interleaving fun i => Call.machine (rpc i)

/-! ## Streaming calls among others -/

/-- **Every streaming call stays in step with the store**, whatever the
other calls save in between: (a) what it has persisted is a prefix of the
events it received; (b) at the head of the read loop the counters are the
persisted and the buffered part; (c) answered inside the loop, it has
persisted exactly the full batches it executed, and nothing at or after an
invalid message was ever passed to `Execute`; (d) it answers success exactly
when the loop ended with `Read` returning false and no `Execute` failed, and
then everything received is persisted. -/
theorem saveEventsStream_in_step {ι : Type} [DecidableEq ι] {rpc : ι → Rpc}
    {calls : ι → Call} {store : List (ι × Dto.Event)}
    (h : Service rpc calls store) (i : ι) (c : StreamCall)
    (hc : calls i = .saveEventsStream c) (hlen : c.received.length < 2 ^ 31) :
    share i store <+: StreamCall.events c.received
    ∧ (c.pc = .read →
        c.savedEvents = (share i store).length ∧ 1000 ∣ (share i store).length
          ∧ c.totalEvents = c.savedEvents + c.batch.length ∧ c.batch.length < 1000)
    ∧ (∀ status response, c.pc = .done status response → c.readEnded = false →
        share i store = c.accepted.flatten ∧ (∀ b ∈ c.accepted, b.length = 1000)
          ∧ c.passed <+: StreamCall.events c.received
          ∧ ∀ k r, c.received[k]? = some r → ¬StreamCall.ValidMessage r →
              c.passed.length ≤ k)
    ∧ (∀ status response, c.pc = .done status response →
        (response.success = true ↔
          c.readEnded = true ∧ ∀ b ∈ c.executed, b.2 = true)
        ∧ (response.success = true → share i store = StreamCall.events c.received)) := by
  have hinv : c.Inv (share i store) :=
    StreamCall.inv_run (Call.stream_run (h.component i) c hc)
  refine ⟨hinv.isPrefix, fun hpc => ?_, fun status response hpc hread => ?_,
    fun status response hpc => ?_⟩
  · obtain ⟨hs, hlt, -⟩ := hinv.atRead hpc
    have hle := hs.length
    have hsaved := hs.saved
    have htotal := hs.total
    rw [int32_of_lt (by omega)] at hsaved htotal
    exact ⟨hsaved, hs.dvd_length, by omega, hlt⟩
  · have hend := hinv.answered hpc
    have hfail : response.success = false := by
      cases hs : response.success with
      | false => rfl
      | true => exact absurd (hread.symm.trans (hend.success.mp hs).1) Bool.false_ne_true
    obtain ⟨rs, hrs, -, -, hpassed⟩ := hinv.handled
    exact ⟨hend.out_eq, hend.full hfail, hpassed.trans (StreamCall.prefix_events hrs),
      fun k r hk hr => hinv.passed_length_le hk hr⟩
  · have hend := hinv.answered hpc
    exact ⟨hend.success, fun hs => (hend.complete hs).2⟩

/-! ### Two calls over one store -/

/-- A unary call (`false`) and a streaming call (`true`). -/
def sampleRpc : Bool → Rpc
  | false => .saveEvent { event := [sampleMessage.getEvent] }
  | true => .saveEventsStream

/-- The streaming call after one message, the end of the stream and an
accepted final batch. -/
def sampleStream : StreamCall where
  pc := .done .ok { success := true, message := "Saved 1/1 events" }
  totalEvents := 1
  savedEvents := 1
  batch := [sampleEvent]
  received := [sampleMessage]
  executed := [([sampleEvent], true)]
  readEnded := true

/-- The unary call saves its event while the stream waits between its read
and its final batch. -/
theorem sampleService : ∃ calls, Service sampleRpc calls
    [(false, sampleEvent), (true, sampleEvent)]
    ∧ calls true = .saveEventsStream sampleStream := by
  have h₀ : Service sampleRpc (fun i => Call.start (sampleRpc i)) [] :=
    .start fun _ => rfl
  have h₁ := h₀.steps (i := true) (Machine.steps_of_feed
    (l := [.read (some sampleMessage), .proceed, .isCancelled false, .read none]) rfl)
  have h₂ := h₁.steps (i := false) (Machine.steps_of_feed
    (l := [.proceed, .execute (.returned .ok)]) rfl)
  have h₃ := h₂.steps (i := true) (Machine.steps_of_feed
    (l := [.execute (.returned .ok)]) rfl)
  exact ⟨_, h₃, rfl⟩

/-- The stream's share of the store is what it received. -/
theorem saveEventsStream_in_step_sample :
    share true [(false, sampleEvent), (true, sampleEvent)] = [sampleEvent] := by
  obtain ⟨_, h, hc⟩ := sampleService
  exact ((saveEventsStream_in_step h true sampleStream hc (by decide)).2.2.2 _ _ rfl).2 rfl

/-- The end of the loop alone does not decide the answer: here `Read` has
returned false, the final batch is refused, and the answer is a failure. -/
theorem readEnded_not_success :
    ∃ calls c status response,
      Service (fun _ : Unit => .saveEventsStream) calls []
      ∧ calls () = .saveEventsStream c ∧ c.received.length < 2 ^ 31
      ∧ c.readEnded = true ∧ c.pc = .done status response
      ∧ response.success = false := by
  have h₀ : Service (fun _ : Unit => .saveEventsStream) (fun _ => Call.start .saveEventsStream)
      [] := .start fun _ => rfl
  have h₁ := h₀.steps (i := ()) (Machine.steps_of_feed
    (l := [.read (some sampleMessage), .proceed, .isCancelled false, .read none,
      .execute (.returned (.notOk "[Postgres] connection lost"))]) rfl)
  exact ⟨_, _, _, _, h₁, rfl, by decide, rfl, rfl, rfl⟩

end EventHistory
