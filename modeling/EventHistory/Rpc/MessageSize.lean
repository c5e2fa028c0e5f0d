import Mathlib.Algebra.Order.BigOperators.Group.List
import Mathlib.Algebra.Order.Group.Nat
import EventHistory.Lib.Wire
import EventHistory.Rpc.SaveBatch

/-!
# The sizes of the messages of `SaveBatch`

gRPC delivers no message of more than 4 MiB to a server that does not ask for
more, and `SaveBatch` chooses its route by the number of events. The sizes are
those of the encoding that protobuf generates (`ByteSize`): what its format
says of an embedded message is assumed (`ByteSize.Lawful`), and `protobuf`
counts the bytes of the messages of `event_service.proto`.
-/

namespace EventHistory

open Proto Transition

/-- `ByteSizeLong` of the generated messages. -/
structure ByteSize where
  event : Event → Nat
  saveEventRequest : SaveEventRequest → Nat
  saveEventsRequest : SaveEventsRequest → Nat

/-- The encoding of a message that embeds events: each with its tag and its
length. An event embeds its line. -/
structure ByteSize.Lawful (size : ByteSize) : Prop where
  saveEventRequest : ∀ r : SaveEventRequest,
    size.saveEventRequest r = (r.event.map fun e => Wire.delimited (size.event e)).sum
  saveEventsRequest : ∀ r : SaveEventsRequest,
    size.saveEventsRequest r = Wire.optional (r.event.map size.event)
  rawLine : ∀ e : Event, e.getPayload.rawLine.length ≤ size.event e

/-- The default of `SetMaxReceiveMessageSize`, which nobody calls. -/
def receiveLimit : Nat := 4 * 1024 * 1024

/-! ## What a session sends -/

/-- A message that the client hands to gRPC. -/
inductive Sent where
  | saveEvent (request : SaveEventRequest)
  | saveEventsStream (request : SaveEventsRequest)

def ByteSize.sent (size : ByteSize) : Sent → Nat
  | .saveEvent r => size.saveEventRequest r
  | .saveEventsStream r => size.saveEventsRequest r

namespace Session

/-- What a step of the client sends: the unary request with the call, a stream
message with each `Write`. -/
def sends (events : List Dto.Event) (s : Session) (a : Act) : List Sent :=
  match a, s.client with
  | .call _, .start =>
      if events.length < streamThreshold then [.saveEvent (request events)] else []
  | .write _, .writing (e :: _) => [.saveEventsStream (message e)]
  | _, _ => []

/-- `SaveBatch(events)` as a machine that outputs the messages it sends. -/
def sender (events : List Dto.Event) : Machine Session Sent :=
  .ofFn (· = {}) (next events) (sends events)

/-- No run of `SaveBatch` sends a message that gRPC does not deliver. -/
def Deliverable (size : ByteSize) (events : List Dto.Event) : Prop :=
  ∀ s out, (sender events).Run s out → ∀ m ∈ out, size.sent m ≤ receiveLimit

/-- What a run may have sent: the one request below the threshold, stream
messages of the list from there on. -/
def OnRoute (events : List Dto.Event) (m : Sent) : Prop :=
  (events.length < streamThreshold ∧ m = .saveEvent (request events))
    ∨ (streamThreshold ≤ events.length ∧ ∃ e ∈ events, m = .saveEventsStream (message e))

/-- What is still to write is part of the list, on the streaming route only. -/
def Sends (events : List Dto.Event) (s : Session) (out : List Sent) : Prop :=
  (∀ rest, s.client = .writing rest →
      streamThreshold ≤ events.length ∧ ∀ e ∈ rest, e ∈ events)
    ∧ ∀ m ∈ out, OnRoute events m

section Runs

variable {events : List Dto.Event} {s s' : Session} {out : List Sent} {a : Act}

/-- The steps that send nothing. -/
theorem sends_eq_nil (hcall : ∀ stub, a ≠ .call stub) (hwrite : ∀ ok, a ≠ .write ok) :
    sends events s a = [] := by
  unfold sends
  split
  · exact absurd rfl (hcall _)
  · exact absurd rfl (hwrite _)
  · rfl

theorem sends_call (stub : Bool) (hstart : s.client = .start) :
    ∀ m ∈ sends events s (.call stub), OnRoute events m := by
  intro m hm
  simp only [sends, hstart] at hm
  by_cases hlen : events.length < streamThreshold
  · rw [if_pos hlen] at hm
    exact .inl ⟨hlen, List.mem_singleton.mp hm⟩
  · rw [if_neg hlen] at hm
    cases hm

/-- Behind the call the client writes the whole list, if it writes. -/
theorem writing_saveBatch {stub : Bool} {rest : List Dto.Event}
    (h : (saveBatch events stub).client = .writing rest) :
    streamThreshold ≤ events.length ∧ rest = events := by
  unfold saveBatch at h
  by_cases hlen : events.length < streamThreshold
  · rw [if_pos hlen] at h
    cases h
  · rw [if_neg hlen, saveBatchStream] at h
    refine ⟨Nat.le_of_not_lt hlen, ?_⟩
    by_cases hempty : events.isEmpty = true
    · rw [if_pos hempty] at h
      cases h
    · rw [if_neg hempty] at h
      cases stub with
      | true => exact (ClientPc.writing.inj h).symm
      | false => cases h

/-- A step that sends nothing and gives the client nothing to write. -/
theorem Sends.quiet (h : Sends events s out) (hsends : sends events s a = [])
    (hclient : ∀ rest, s'.client = .writing rest → s.client = .writing rest) :
    Sends events s' (out ++ sends events s a) := by
  rw [hsends, List.append_nil]
  exact ⟨fun rest hrest => h.1 rest (hclient rest hrest), h.2⟩

theorem sends_step (h : Sends events s out) (hs : Step events s a s') :
    Sends events s' (out ++ sends events s a) := by
  obtain ⟨hwriting, hout⟩ := h
  have hmore : (∀ m ∈ sends events s a, OnRoute events m) →
      ∀ m ∈ out ++ sends events s a, OnRoute events m := by
    intro hnew m hm
    rcases List.mem_append.mp hm with hm | hm
    · exact hout m hm
    · exact hnew m hm
  have hwrites : ∀ {ok : Bool} {e : Dto.Event} {rest : List Dto.Event},
      s.client = .writing (e :: rest) → ∀ m ∈ sends events s (.write ok), OnRoute events m := by
    intro ok e rest hclient m hm
    obtain ⟨hlen, hrest⟩ := hwriting _ hclient
    simp only [sends, hclient] at hm
    exact .inr ⟨hlen, e, hrest e List.mem_cons_self, List.mem_singleton.mp hm⟩
  cases hs with
  | call stub hstart =>
      refine ⟨?_, hmore (sends_call stub hstart)⟩
      intro rest hrest
      obtain ⟨hlen, rfl⟩ := writing_saveBatch hrest
      exact ⟨hlen, fun e he => he⟩
  | @write e rest v hclient hv =>
      refine ⟨?_, hmore (hwrites hclient)⟩
      intro rest' hrest'
      obtain rfl := ClientPc.writing.inj hrest'
      obtain ⟨hlen, hrest⟩ := hwriting _ hclient
      exact ⟨hlen, fun e he => hrest e (List.mem_cons_of_mem _ he)⟩
  | writeFailed hclient _ =>
      refine ⟨?_, hmore (hwrites hclient)⟩
      intro rest' hrest'
      cases hrest'
  | writesDone hclient hv =>
      refine Sends.quiet ⟨hwriting, hout⟩ (sends_eq_nil (by simp) (by simp)) ?_
      intro rest hrest
      cases hrest
  | finish hclient hr =>
      refine Sends.quiet ⟨hwriting, hout⟩ (sends_eq_nil (by simp) (by simp)) ?_
      intro rest hrest
      cases hrest
  | cancel hclient hv =>
      exact Sends.quiet ⟨hwriting, hout⟩ (sends_eq_nil (by simp) (by simp)) fun rest hrest => hrest
  | serve late o hv =>
      exact Sends.quiet ⟨hwriting, hout⟩ (sends_eq_nil (by simp) (by simp)) fun rest hrest => hrest

/-- Every run sends messages of the route only. -/
theorem sends_run (h : (sender events).Run s out) : Sends events s out := by
  refine h.invariant (I := Sends events) ?_ ?_
  · rintro s rfl
    refine ⟨?_, fun m hm => by cases hm⟩
    intro rest hrest
    cases hrest
  · rintro s out o s' hinv ⟨a, hn, rfl⟩
    exact sends_step hinv (step_of_next hn)

/-- Below the threshold the request is sent with the first step. -/
theorem run_request (hlen : events.length < streamThreshold) :
    ∃ s, (sender events).Run s [.saveEvent (request events)] := by
  have hstart : (sender events).Run {} [] := .start rfl
  have hsends : sends events {} (.call true) = [.saveEvent (request events)] := by
    simp [sends, hlen]
  have hcall := hstart.step ⟨.call true, rfl, rfl⟩
  rw [hsends] at hcall
  exact ⟨_, hcall⟩

end Runs

end Session

/-! ## When every message is delivered -/

section Sizes

variable {size : ByteSize} {events : List Dto.Event}

theorem ByteSize.Lawful.message (hsize : size.Lawful) (e : Dto.Event) :
    size.saveEventsRequest (Session.message e) = Wire.delimited (size.event (toProtoEvent e)) :=
  hsize.saveEventsRequest _

/-- The request of the unary route is as long as the stream messages together. -/
theorem ByteSize.Lawful.request (hsize : size.Lawful) (events : List Dto.Event) :
    size.saveEventRequest (Session.request events) =
      (events.map fun e => size.saveEventsRequest (Session.message e)).sum := by
  simp only [hsize.message]
  rw [hsize.saveEventRequest, Session.request, List.map_map]
  rfl

/-- A request that gRPC carries has no event that it would not carry alone. -/
theorem ByteSize.Lawful.fits (hsize : size.Lawful)
    (hfits : size.saveEventRequest (Session.request events) ≤ receiveLimit) :
    ∀ e ∈ events, size.saveEventsRequest (Session.message e) ≤ receiveLimit := by
  intro e he
  rw [hsize.request] at hfits
  exact (List.single_le_sum (fun _ _ => Nat.zero_le _) _ (List.mem_map_of_mem he)).trans hfits

/-- The lines of a batch alone take that much room. -/
theorem ByteSize.Lawful.rawLines (hsize : size.Lawful) (events : List Dto.Event) :
    (events.map fun e => e.payload.rawLine.length).sum ≤
      size.saveEventRequest (Session.request events) := by
  rw [hsize.request]
  refine List.sum_le_sum fun e _ => ?_
  rw [hsize.message]
  exact (hsize.rawLine (toProtoEvent e)).trans (Wire.le_delimited _)

/-- **When `SaveBatch` sends nothing undeliverable.** For events each of which
the stream would deliver: exactly if there are enough of them to be streamed,
or their stream messages together would fit into one. -/
theorem batch_deliverable_iff (hsize : size.Lawful)
    (hfits : ∀ e ∈ events, size.saveEventsRequest (Session.message e) ≤ receiveLimit) :
    Session.Deliverable size events ↔
      streamThreshold ≤ events.length
        ∨ (events.map fun e => size.saveEventsRequest (Session.message e)).sum
            ≤ receiveLimit := by
  constructor
  · intro h
    rcases Nat.lt_or_ge events.length streamThreshold with hlen | hlen
    · obtain ⟨s, hrun⟩ := Session.run_request hlen
      have hfit := h s _ hrun _ (List.mem_singleton.mpr rfl)
      rw [ByteSize.sent, hsize.request] at hfit
      exact .inr hfit
    · exact .inl hlen
  · intro h s out hrun m hm
    rcases (Session.sends_run hrun).2 m hm with ⟨hlen, rfl⟩ | ⟨-, e, he, rfl⟩
    · rcases h with hlen' | hfit
      · omega
      · rw [ByteSize.sent, hsize.request]
        exact hfit
    · exact hfits e he

end Sizes

/-! ## The messages of `event_service.proto` -/

/-- Here and in `eventSize` the length of a text is its size in bytes, since a
`Char` stands for one of them. -/
def payloadSize (p : EventPayload) : Nat :=
  Wire.text p.rawLine.length + Wire.optional (p.parsedIp.map String.length)
    + Wire.enum p.filterDecision.number + Wire.optional (p.rejectReason.map String.length)

def eventSize (e : Event) : Nat :=
  Wire.text e.sourceService.length + Wire.text e.timestampUtc.length + Wire.enum e.status.number
    + Wire.optional (e.payload.map payloadSize)

/-- The sizes of the generated code. -/
def protobuf : ByteSize where
  event := eventSize
  saveEventRequest r := (r.event.map fun e => Wire.delimited (eventSize e)).sum
  saveEventsRequest r := Wire.optional (r.event.map eventSize)

theorem protobuf_lawful : protobuf.Lawful where
  saveEventRequest _ := rfl
  saveEventsRequest _ := rfl
  rawLine e := by
    show e.getPayload.rawLine.length ≤ eventSize e
    rw [Event.getPayload, eventSize]
    cases e.payload with
    | none => exact Nat.zero_le _
    | some p =>
        have hline := Wire.le_text p.rawLine.length
        have hpayload := Wire.le_delimited (payloadSize p)
        simp only [Option.getD_some, Option.map_some, Wire.optional]
        unfold payloadSize at hpayload ⊢
        omega

/-- An accepted line of `n` bytes. -/
def lineOf (n : Nat) : Dto.Event :=
  { sourceService := "ipv4_filter", timestampUtc := "2026-01-01 00:00:00", status := .success,
    payload := { rawLine := String.ofList (List.replicate n 'x'), filterDecision := "accepted" } }

theorem length_lineOf (n : Nat) : (lineOf n).payload.rawLine.length = n := by
  simp [lineOf]

/-- The stream message of a line that is not too long takes 50 bytes more. -/
theorem delimited_lineOf {n : Nat} (hn : n ≤ 1000000) :
    Wire.delimited (eventSize (toProtoEvent (lineOf n))) ≤ n + 50 := by
  have hsource : Wire.text "ipv4_filter".length ≤ 13 := Wire.text_le (k := 0) (by decide)
  have htime : Wire.text "2026-01-01 00:00:00".length ≤ 21 := Wire.text_le (k := 0) (by decide)
  have henum : Wire.enum 1 = 2 := rfl
  have hline : Wire.text n ≤ n + 4 := Wire.text_le (k := 2) (by omega)
  have hpayload : payloadSize { rawLine := (lineOf n).payload.rawLine,
                                filterDecision := .accepted } ≤ n + 6 := by
    show Wire.text (lineOf n).payload.rawLine.length + 0 + Wire.enum 1 + 0 ≤ n + 6
    rw [length_lineOf, henum]
    omega
  have hevent : eventSize (toProtoEvent (lineOf n)) ≤ n + 46 := by
    have hembedded := Wire.delimited_le (k := 2) (lt_of_le_of_lt hpayload (by omega))
    show Wire.text "ipv4_filter".length + Wire.text "2026-01-01 00:00:00".length + Wire.enum 1
      + Wire.delimited (payloadSize { rawLine := (lineOf n).payload.rawLine,
                                      filterDecision := .accepted }) ≤ n + 46
    rw [henum]
    omega
  have := Wire.delimited_le (k := 2) (lt_of_le_of_lt hevent (by omega))
  omega

/-- Two short lines. -/
theorem two_lines_fit :
    protobuf.saveEventRequest (Session.request [lineOf 10, lineOf 20]) ≤ receiveLimit := by
  have h10 := delimited_lineOf (n := 10) (by decide)
  have h20 := delimited_lineOf (n := 20) (by decide)
  rw [protobuf_lawful.request]
  simp only [List.map_cons, List.map_nil, List.sum_cons, List.sum_nil, protobuf_lawful.message]
  show Wire.delimited (eventSize _) + (Wire.delimited (eventSize _) + 0) ≤ receiveLimit
  unfold receiveLimit
  omega

theorem batch_deliverable_iff_sample :
    Session.Deliverable protobuf [lineOf 10, lineOf 20] := by
  refine (batch_deliverable_iff protobuf_lawful (protobuf_lawful.fits two_lines_fit)).mpr (.inr ?_)
  rw [← protobuf_lawful.request]
  exact two_lines_fit

/-- Lines that the stream carries and one request does not. -/
theorem five_lines {n : Nat} (hn : n ≤ 1000000) (hmany : receiveLimit < 5 * n) :
    (∀ e ∈ List.replicate 5 (lineOf n),
      protobuf.saveEventsRequest (Session.message e) ≤ receiveLimit)
    ∧ receiveLimit < protobuf.saveEventRequest (Session.request (List.replicate 5 (lineOf n))) := by
  constructor
  · intro e he
    obtain rfl := List.eq_of_mem_replicate he
    have hfit : protobuf.saveEventsRequest (Session.message (lineOf n)) ≤ n + 50 :=
      delimited_lineOf hn
    unfold receiveLimit
    omega
  · have hlines := protobuf_lawful.rawLines (List.replicate 5 (lineOf n))
    rw [List.map_replicate, length_lineOf, List.sum_replicate_nat] at hlines
    exact hmany.trans_le hlines

theorem lines_not_delivered {n : Nat} (hn : n ≤ 1000000) (hmany : receiveLimit < 5 * n) :
    ¬Session.Deliverable protobuf (List.replicate 5 (lineOf n)) := by
  intro h
  obtain ⟨s, hrun⟩ := @Session.run_request (List.replicate 5 (lineOf n))
    (by rw [List.length_replicate]; decide)
  have hfit := h s _ hrun _ (List.mem_singleton.mpr rfl)
  exact absurd hfit (Nat.not_le_of_lt (five_lines hn hmany).2)

/-- Five lines of a million bytes: each would be delivered, the request with
all of them is not. -/
theorem long_lines_not_delivered :
    (∀ e ∈ List.replicate 5 (lineOf 1000000),
      protobuf.saveEventsRequest (Session.message e) ≤ receiveLimit)
    ∧ ¬Session.Deliverable protobuf (List.replicate 5 (lineOf 1000000)) :=
  ⟨(five_lines (Nat.le_refl _) (by decide)).1, lines_not_delivered (Nat.le_refl _) (by decide)⟩

end EventHistory
