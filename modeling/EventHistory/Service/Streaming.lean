import Mathlib.Algebra.BigOperators.Ring.List
import Mathlib.Algebra.Ring.Nat
import EventHistory.Lib.Machine
import EventHistory.Service.Handlers

/-!
# What the stream handler keeps in step

The invariant of one `SaveEventsStream` call, over every order of answers it
can get. Its heart is `Synced`: the messages handled so far are valid, their
events are what was persisted followed by the buffer, the two counters are
the lengths of the two parts, and every batch passed to `Execute` was a full
one and was accepted. `StreamCall.Inv` says at each program point which
messages have been handled (all of them, or all but the one in the loop
body), how full the buffer is, and how an answered call ended. Each piece of
the handler's code has one lemma; `inv_next` and `inv_run` assemble them.

The handlers become machines here (`SaveEventCall.machine`,
`StreamCall.machine`): the output of a step is the list of events it
persists.
-/

namespace EventHistory

open Proto Transition
open Grpc (Status)

/-- A unary call on `request`, as a machine that outputs what it persists. -/
def SaveEventCall.machine (request : SaveEventRequest) :
    Machine SaveEventCall Dto.Event :=
  .ofFn (· = .received request) next writes

namespace StreamCall

/-- A streaming call, as a machine that outputs what it persists. -/
def machine : Machine StreamCall Dto.Event :=
  .ofFn (· = {}) next writes

/-! ## The invariant -/

/-- A message the loop body accepts. -/
def ValidMessage (r : SaveEventsRequest) : Prop :=
  (validateSaveEventsRequest r).isOk = true

/-- After handling the messages `rs`, with `out` persisted: the counters,
the buffer and the store are in step. -/
structure Synced (c : StreamCall) (out : List Dto.Event)
    (rs : List SaveEventsRequest) : Prop where
  valid : ∀ r ∈ rs, ValidMessage r
  split : events rs = out ++ c.batch
  total : c.totalEvents = int32 rs.length
  saved : c.savedEvents = int32 out.length
  out_eq : out = c.passed
  allOk : ∀ b ∈ c.executed, b.2 = true
  full : ∀ b ∈ c.executed, b.1.length = batchSize

/-- How an answered call ended. Success means that `Read` returned false and
every `Execute` succeeded, and then everything received is persisted; a
failure has persisted whole batches only, and, unless it is the cancel
status, less than what was received. -/
structure Answered (c : StreamCall) (out : List Dto.Event) (status : Status)
    (response : SaveEventsResponse) : Prop where
  out_eq : out = c.accepted.flatten
  handled : ∃ rs, rs <+: c.received ∧ (∀ r ∈ rs, ValidMessage r)
    ∧ out <+: events rs ∧ c.passed <+: events rs
  success : response.success = true ↔
    c.readEnded = true ∧ ∀ b ∈ c.executed, b.2 = true
  complete : response.success = true →
    (∀ r ∈ c.received, ValidMessage r) ∧ out = events c.received
  full : response.success = false → ∀ b ∈ c.accepted, b.length = batchSize
  strict : response.success = false → status.isOk = true →
    out.length < c.received.length

/-- The invariant, by program point. -/
def Inv (c : StreamCall) (out : List Dto.Event) : Prop :=
  match c.pc with
  | .read | .isCancelled =>
      c.Synced out c.received ∧ c.batch.length < batchSize ∧ c.readEnded = false
  | .body r =>
      ∃ rs, c.received = rs ++ [r] ∧ c.Synced out rs ∧
        c.batch.length < batchSize ∧ c.readEnded = false
  | .executeBatch =>
      c.Synced out c.received ∧ c.batch.length = batchSize ∧ c.readEnded = false
  | .finalBatch =>
      c.Synced out c.received ∧ 0 < c.batch.length ∧ c.readEnded = true
  | .done status response => c.Answered out status response

theorem inv_init : ({} : StreamCall).Inv [] := by
  refine ⟨⟨by simp, rfl, rfl, rfl, rfl, ?_, ?_⟩, by decide, rfl⟩ <;> simp

/-! ## Counters -/

theorem int32_add (a b : Int) : int32 (int32 a + b) = int32 (a + b) := by
  simp [int32]

/-- `out` is a whole number of batches. -/
theorem Synced.dvd_length {c : StreamCall} {out : List Dto.Event}
    {rs : List SaveEventsRequest} (h : c.Synced out rs) :
    batchSize ∣ out.length := by
  rw [h.out_eq, passed, List.length_flatten]
  refine List.dvd_sum ?_
  intro n hn
  obtain ⟨l, hl, rfl⟩ := List.mem_map.mp hn
  obtain ⟨b, hb, rfl⟩ := List.mem_map.mp hl
  rw [h.full b hb]

theorem Synced.length {c : StreamCall} {out : List Dto.Event}
    {rs : List SaveEventsRequest} (h : c.Synced out rs) :
    rs.length = out.length + c.batch.length := by
  rw [← events_length, h.split, List.length_append]

theorem Synced.isPrefix {c : StreamCall} {out : List Dto.Event}
    {rs : List SaveEventsRequest} (h : c.Synced out rs) :
    out <+: events rs := by
  rw [h.split]; exact List.prefix_append ..

/-- With nothing refused, what was accepted is what was passed. -/
theorem accepted_flatten_of_allOk {c : StreamCall}
    (h : ∀ b ∈ c.executed, b.2 = true) : c.accepted.flatten = c.passed := by
  rw [accepted, passed, List.filter_eq_self.mpr h]

theorem Synced.full_accepted {c : StreamCall} {out : List Dto.Event}
    {rs : List SaveEventsRequest} (h : c.Synced out rs) :
    ∀ b ∈ c.accepted, b.length = batchSize := by
  intro b hb
  obtain ⟨p, hp, rfl⟩ := List.mem_map.mp hb
  exact h.full p (List.mem_filter.mp hp).1

/-- Moving the program point, or logging a message, keeps what is in step. -/
theorem Synced.move {c : StreamCall} {out : List Dto.Event}
    {rs : List SaveEventsRequest} (h : c.Synced out rs) (pc : StreamPc)
    (received : List SaveEventsRequest) (readEnded : Bool) :
    StreamCall.Synced { c with pc, received, readEnded } out rs :=
  ⟨h.valid, h.split, h.total, h.saved, h.out_eq, h.allOk, h.full⟩

/-- A call answered with a failure before its next `Execute`: it has
persisted whole batches only, and passed nothing else to `Execute`. -/
theorem Synced.answered {c : StreamCall} {out : List Dto.Event}
    {rs : List SaveEventsRequest} (h : c.Synced out rs) (hrs : rs <+: c.received)
    (hread : c.readEnded = false) (status : Status) (message : String)
    (hstrict : status.isOk = true → out.length < c.received.length) :
    (c.answer status false message).Inv out where
  out_eq := h.out_eq.trans (accepted_flatten_of_allOk h.allOk).symm
  handled := ⟨rs, hrs, h.valid, h.isPrefix, h.out_eq ▸ h.isPrefix⟩
  success := iff_of_false Bool.false_ne_true fun hc =>
    Bool.false_ne_true (hread.symm.trans hc.1)
  complete := fun hs => absurd hs Bool.false_ne_true
  full := fun _ => h.full_accepted
  strict := fun _ => hstrict

/-- A call answered with a failure because `Execute` refused its non-empty
buffer: the attempt is on record, and nothing of it is persisted. -/
theorem Synced.answered_refused {c : StreamCall} {out : List Dto.Event}
    (h : c.Synced out c.received) (hb : 0 < c.batch.length) (message : String) :
    StreamCall.Inv
      { c with
        executed := c.executed ++ [(c.batch, false)]
        pc := .done .ok { success := false, message } } out := by
  have hacc : StreamCall.accepted { c with executed := c.executed ++ [(c.batch, false)] }
      = c.accepted := by simp [accepted]
  have hpassed : StreamCall.passed { c with executed := c.executed ++ [(c.batch, false)] }
      = events c.received := by
    rw [h.split, h.out_eq]
    simp [passed]
  refine ⟨?_, ⟨c.received, List.prefix_refl _, h.valid, h.isPrefix, ?_⟩, ?_, ?_, ?_, ?_⟩
  · exact (h.out_eq.trans (accepted_flatten_of_allOk h.allOk).symm).trans
      (congrArg List.flatten hacc.symm)
  · exact hpassed ▸ List.prefix_refl _
  · refine iff_of_false Bool.false_ne_true ?_
    intro hc
    exact Bool.false_ne_true (hc.2 (c.batch, false) (by simp))
  · exact fun hs => absurd hs Bool.false_ne_true
  · exact fun _ => hacc.symm ▸ h.full_accepted
  · intro _ _
    show out.length < c.received.length
    rw [h.length]
    omega

/-! ## One lemma for each piece of the handler -/

/-- Leaving the loop: an empty buffer completes the call, with everything
received persisted; a rest goes to the final batch. -/
theorem inv_endLoop {c : StreamCall} {out : List Dto.Event}
    (h : c.Synced out c.received) : c.endLoop.Inv out := by
  unfold endLoop
  by_cases hb : c.batch.isEmpty = true
  · have hnil : c.batch = [] := List.isEmpty_iff.mp hb
    have hall : events c.received = out := by rw [h.split, hnil, List.append_nil]
    rw [if_pos hb]
    refine ⟨?_, ⟨c.received, List.prefix_refl _, h.valid, h.isPrefix, h.out_eq ▸ h.isPrefix⟩,
      iff_of_true rfl ⟨rfl, h.allOk⟩, fun _ => ⟨h.valid, hall.symm⟩,
      fun hs => absurd hs.symm Bool.false_ne_true,
      fun hs => absurd hs.symm Bool.false_ne_true⟩
    exact h.out_eq.trans (accepted_flatten_of_allOk h.allOk).symm
  · rw [if_neg hb]
    refine ⟨h.move .finalBatch c.received true, ?_, rfl⟩
    exact List.length_pos_iff.mpr fun hnil => hb (List.isEmpty_iff.mpr hnil)

/-- Accepting a valid message into the buffer. -/
theorem Synced.push {c : StreamCall} {out : List Dto.Event}
    {rs : List SaveEventsRequest} {r : SaveEventsRequest}
    (h : c.Synced out rs) (hv : ValidMessage r) (pc : StreamPc) :
    StreamCall.Synced
      { c with
        batch := c.batch ++ [toDtoEvent r.getEvent]
        totalEvents := int32 (c.totalEvents + 1)
        pc := pc } out (rs ++ [r]) := by
  refine ⟨?_, ?_, ?_, h.saved, h.out_eq, h.allOk, h.full⟩
  · intro r' hr'
    rcases List.mem_append.mp hr' with hr' | hr'
    · exact h.valid r' hr'
    · exact (List.mem_singleton.mp hr') ▸ hv
  · rw [events_append, h.split, List.append_assoc]
    rfl
  · rw [h.total, int32_add, List.length_append, List.length_singleton]
    push_cast
    rfl

/-- The loop body: an accepted message moves into the buffer and is counted,
a refused one ends the call. -/
theorem inv_loopBody {c : StreamCall} {out : List Dto.Event}
    {rs : List SaveEventsRequest} {r : SaveEventsRequest}
    (hrec : c.received = rs ++ [r]) (h : c.Synced out rs)
    (hlt : c.batch.length < batchSize) (hread : c.readEnded = false) :
    (c.loopBody r).Inv out := by
  unfold loopBody
  by_cases hv : (validateSaveEventsRequest r).isOk = true
  · have hsync := fun pc => h.push hv pc
    rw [← hrec] at hsync
    rw [if_pos hv]
    by_cases hfull : c.batch.length + 1 ≥ batchSize
    · rw [if_pos hfull]
      exact ⟨hsync _, by rw [List.length_append, List.length_singleton]; omega, hread⟩
    · rw [if_neg hfull]
      exact ⟨hsync _, by rw [List.length_append, List.length_singleton]; omega, hread⟩
  · rw [if_neg hv]
    refine h.answered (hrec ▸ List.prefix_append ..) hread _ _ ?_
    intro _
    have := h.length
    rw [hrec, List.length_append, List.length_singleton]
    omega

/-- What `Execute` persists extends `out` by the whole batch or by nothing. -/
theorem accepted_snoc (c : StreamCall) (b : List Dto.Event) (ok : Bool) :
    StreamCall.accepted { c with executed := c.executed ++ [(b, ok)] } =
      c.accepted ++ if ok then [b] else [] := by
  cases ok <;> simp [accepted]

theorem passed_snoc (c : StreamCall) (b : List Dto.Event) (ok : Bool) :
    StreamCall.passed { c with executed := c.executed ++ [(b, ok)] } =
      c.passed ++ b := by
  simp [passed]

/-- An unsuccessful `Execute` ends the call with `success` false, and
changes nothing else but the record of the attempt. -/
theorem afterExecute_of_not_success (c : StreamCall) (failure : String)
    {o : Outcome} (ho : o.success = false) :
    ∃ message, c.afterExecute failure o =
      { c with
        executed := c.executed ++ [(c.batch, false)]
        pc := .done .ok { success := false, message } } := by
  cases o with
  | threw what => exact ⟨_, rfl⟩
  | returned result =>
      have hr : result.success = false := ho
      refine ⟨failure ++ result.errorMessage, ?_⟩
      simp [afterExecute, Outcome.success, hr, answer]

theorem afterExecute_of_success (c : StreamCall) (failure : String)
    {o : Outcome} (ho : o.success = true) :
    c.afterExecute failure o =
      { c with
        executed := c.executed ++ [(c.batch, true)]
        savedEvents := int32 (c.savedEvents + c.batch.length) } := by
  cases o with
  | threw what => cases ho
  | returned result =>
      have hr : result.success = true := ho
      simp [afterExecute, Outcome.success, hr]

/-- The full batch inside the loop: on success it is counted, appended to
the store and the buffer is emptied; otherwise the call ends. -/
theorem inv_afterBatch {c : StreamCall} {out : List Dto.Event}
    (h : c.Synced out c.received) (hlen : c.batch.length = batchSize)
    (hread : c.readEnded = false) (o : Outcome) :
    (c.afterBatch o).Inv (out ++ if o.success then c.batch else []) := by
  unfold afterBatch
  cases ho : o.success with
  | true =>
      rw [if_pos rfl, if_pos rfl, afterExecute_of_success c _ ho]
      refine ⟨⟨h.valid, ?_, h.total, ?_, ?_, ?_, ?_⟩, Nat.zero_lt_succ _, hread⟩
      · rw [h.split, List.append_nil]
      · rw [h.saved, int32_add, List.length_append]
        push_cast
        rfl
      · rw [h.out_eq]
        exact (passed_snoc c c.batch true).symm
      · exact List.forall_mem_append.mpr ⟨h.allOk, by simp⟩
      · exact List.forall_mem_append.mpr ⟨h.full, by simpa using hlen⟩
  | false =>
      obtain ⟨message, heq⟩ := afterExecute_of_not_success c
        ("Failed to save batch at event " ++ toString c.totalEvents ++ ": ") ho
      rw [if_neg Bool.false_ne_true, if_neg Bool.false_ne_true, heq, List.append_nil]
      exact h.answered_refused (by rw [hlen]; decide) message

/-- The final batch: on success everything received is persisted, otherwise
the rest is dropped. -/
theorem inv_afterFinalBatch {c : StreamCall} {out : List Dto.Event}
    (h : c.Synced out c.received) (hb : 0 < c.batch.length)
    (hread : c.readEnded = true) (o : Outcome) :
    (c.afterFinalBatch o).Inv (out ++ if o.success then c.batch else []) := by
  unfold afterFinalBatch
  cases ho : o.success with
  | true =>
      rw [if_pos rfl, if_pos rfl, afterExecute_of_success c _ ho, ← h.split]
      have hacc := congrArg List.flatten (accepted_snoc c c.batch true)
      rw [List.flatten_append, accepted_flatten_of_allOk h.allOk, ← h.out_eq,
        if_pos rfl, List.flatten_singleton, ← h.split] at hacc
      have hpassed := passed_snoc c c.batch true
      rw [← h.out_eq, ← h.split] at hpassed
      refine ⟨hacc.symm, ⟨c.received, List.prefix_refl _, h.valid, List.prefix_refl _, ?_⟩,
        iff_of_true rfl ⟨hread, ?_⟩, fun _ => ⟨h.valid, rfl⟩,
        fun hs => absurd hs.symm Bool.false_ne_true,
        fun hs => absurd hs.symm Bool.false_ne_true⟩
      · exact hpassed ▸ List.prefix_refl _
      · exact List.forall_mem_append.mpr ⟨h.allOk, by simp⟩
  | false =>
      obtain ⟨message, heq⟩ :=
        afterExecute_of_not_success c "Failed to save final batch: " ho
      rw [if_neg Bool.false_ne_true, if_neg Bool.false_ne_true, heq, List.append_nil]
      exact h.answered_refused hb message

/-- The cancel check: back to `Read`, or an answer with nothing more
persisted. -/
theorem inv_afterIsCancelled {c : StreamCall} {out : List Dto.Event}
    (h : c.Synced out c.received) (hlt : c.batch.length < batchSize)
    (hread : c.readEnded = false) (b : Bool) : (c.afterIsCancelled b).Inv out := by
  unfold afterIsCancelled
  cases b with
  | true =>
      rw [if_pos rfl]
      exact h.answered (List.prefix_refl _) hread _ _ fun hok => absurd hok (by decide)
  | false =>
      rw [if_neg Bool.false_ne_true]
      exact ⟨h.move .read c.received c.readEnded, hlt, hread⟩

/-! ## Steps and runs -/

/-- Every step of the handler preserves the invariant, along with what the
step persists. -/
theorem inv_next {c c' : StreamCall} {out : List Dto.Event} {i : Input}
    (h : c.Inv out) (hnext : c.next i = some c') : c'.Inv (out ++ c.writes i) := by
  unfold next at hnext
  unfold Inv at h
  split at hnext
  all_goals first
    | (obtain rfl := Option.some.inj hnext)
    | cases hnext
  all_goals rename_i hpc; simp only [hpc] at h
  · obtain ⟨hs, hlt, hread⟩ := h
    rw [show c.writes (.read (some _)) = [] from rfl, List.append_nil]
    exact ⟨c.received, rfl, hs.move _ _ _, hlt, hread⟩
  · rw [show c.writes (.read none) = [] from rfl, List.append_nil]
    exact inv_endLoop h.1
  · obtain ⟨rs, hrec, hs, hlt, hread⟩ := h
    rw [show c.writes .proceed = [] from rfl, List.append_nil]
    exact inv_loopBody hrec hs hlt hread
  · exact inv_afterBatch h.1 h.2.1 h.2.2 _
  · rw [show c.writes (.isCancelled _) = [] from rfl, List.append_nil]
    exact inv_afterIsCancelled h.1 h.2.1 h.2.2 _
  · exact inv_afterFinalBatch h.1 h.2.1 h.2.2 _

/-- The invariant holds along every run of a streaming call. -/
theorem inv_run {c : StreamCall} {out : List Dto.Event} (h : machine.Run c out) :
    c.Inv out := by
  refine h.invariant (fun c hc => hc ▸ inv_init) ?_
  rintro c out o c' hinv ⟨i, hnext, rfl⟩
  exact inv_next hinv hnext

/-! ## Reading the invariant -/

theorem Inv.atRead {c : StreamCall} {out : List Dto.Event} (h : c.Inv out)
    (hpc : c.pc = .read) :
    c.Synced out c.received ∧ c.batch.length < batchSize ∧ c.readEnded = false := by
  unfold Inv at h
  rwa [hpc] at h

theorem Inv.answered {c : StreamCall} {out : List Dto.Event} (h : c.Inv out)
    {status : Status} {response : SaveEventsResponse}
    (hpc : c.pc = .done status response) : c.Answered out status response := by
  unfold Inv at h
  rwa [hpc] at h

/-- An unsuccessful call has persisted a whole number of batches. -/
theorem Answered.dvd_length {c : StreamCall} {out : List Dto.Event} {status : Status}
    {response : SaveEventsResponse} (h : c.Answered out status response)
    (hs : response.success = false) : batchSize ∣ out.length := by
  rw [h.out_eq, List.length_flatten]
  refine List.dvd_sum ?_
  intro n hn
  obtain ⟨b, hb, rfl⟩ := List.mem_map.mp hn
  rw [h.full hs b hb]

/-- At every point, what was persisted and what was passed to `Execute` are
prefixes of the events of some valid messages received first. -/
theorem Inv.handled {c : StreamCall} {out : List Dto.Event} (h : c.Inv out) :
    ∃ rs, rs <+: c.received ∧ (∀ r ∈ rs, ValidMessage r)
      ∧ out <+: events rs ∧ c.passed <+: events rs := by
  have hsync : ∀ {rs}, c.Synced out rs → rs <+: c.received →
      ∃ rs, rs <+: c.received ∧ (∀ r ∈ rs, ValidMessage r)
        ∧ out <+: events rs ∧ c.passed <+: events rs :=
    fun hs hrs => ⟨_, hrs, hs.valid, hs.isPrefix, hs.out_eq ▸ hs.isPrefix⟩
  unfold Inv at h
  split at h
  · exact hsync h.1 (List.prefix_refl _)
  · exact hsync h.1 (List.prefix_refl _)
  · obtain ⟨rs, hrec, hs, -⟩ := h
    exact hsync hs (hrec ▸ List.prefix_append ..)
  · exact hsync h.1 (List.prefix_refl _)
  · exact hsync h.1 (List.prefix_refl _)
  · exact h.handled

theorem prefix_events {rs rs' : List SaveEventsRequest} (h : rs <+: rs') :
    events rs <+: events rs' := by
  obtain ⟨t, rfl⟩ := h
  rw [events_append]
  exact List.prefix_append ..

/-- What is persisted is a prefix of what was received, at every point. -/
theorem Inv.isPrefix {c : StreamCall} {out : List Dto.Event} (h : c.Inv out) :
    out <+: events c.received := by
  obtain ⟨rs, hrs, -, hout, -⟩ := h.handled
  exact hout.trans (prefix_events hrs)

/-- Nothing at or after an invalid message reaches `Execute`. -/
theorem Inv.passed_length_le {c : StreamCall} {out : List Dto.Event} (h : c.Inv out)
    {k : Nat} {r : SaveEventsRequest} (hk : c.received[k]? = some r)
    (hr : ¬ValidMessage r) : c.passed.length ≤ k := by
  obtain ⟨rs, ⟨t, ht⟩, hvalid, -, hpassed⟩ := h.handled
  have hle : rs.length ≤ k := by
    by_contra hlt
    have hget : rs[k]? = some r := by
      rwa [← ht, List.getElem?_append_left (by omega)] at hk
    exact hr (hvalid r (List.mem_of_getElem? hget))
  exact (hpassed.length_le.trans (by rw [events_length])).trans hle

end StreamCall

end EventHistory
