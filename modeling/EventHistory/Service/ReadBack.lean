import EventHistory.Utils
import EventHistory.Db.Constraints
import EventHistory.Rpc.GetEvents
import EventHistory.Service.OverPostgres

/-!
# What was saved is what is read back

The way of an event from the wire into the two tables and back to a client:
proto to DTO, DTO to parameters, two rows, a row of the join to DTO by column
position, DTO to proto, proto to DTO. `Unchanged` says what becomes of each
field, given what PostgreSQL does with a text and an address.
-/

namespace EventHistory

open Proto Sql Transition

/-! ## Events that came over the wire -/

/-- The image of an event that validation accepts. -/
def FromWire (e : Dto.Event) : Prop := ∃ event, ValidEvent event ∧ e = toDtoEvent event

theorem fromWire_of_valid {rs : List SaveEventsRequest}
    (h : ∀ r ∈ rs, StreamCall.ValidMessage r) : ∀ e ∈ StreamCall.events rs, FromWire e := by
  intro e he
  obtain ⟨r, hr, rfl⟩ := List.mem_map.mp he
  obtain ⟨event, hevent, hvalid⟩ := validateSaveEventsRequest_isOk.mp (h r hr)
  refine ⟨event, hvalid, ?_⟩
  rw [SaveEventsRequest.getEvent, hevent]
  rfl

/-- A streaming call saves, and passes to `Execute`, what it received. -/
theorem StreamCall.Inv.fromWire {c : StreamCall} {out : List Dto.Event} (h : c.Inv out) :
    ∀ e ∈ out ++ (Call.saveEventsStream c).executing.getD [], FromWire e := by
  intro e he
  rcases List.mem_append.mp he with he | he
  · obtain ⟨rs, -, hvalid, hout, -⟩ := h.handled
    exact fromWire_of_valid hvalid e (hout.subset he)
  · have hsynced : c.Synced out c.received → e ∈ c.batch → FromWire e := by
      intro hs hbatch
      refine fromWire_of_valid hs.valid e ?_
      rw [hs.split]
      exact List.mem_append_right _ hbatch
    unfold Inv at h
    simp only [Call.executing] at he
    cases hpc : c.pc with
    | executeBatch =>
        rw [hpc] at h he
        exact hsynced h.1 he
    | finalBatch =>
        rw [hpc] at h he
        exact hsynced h.1 he
    | _ =>
        rw [hpc] at he
        cases he

theorem SaveEventCall.fromWire_next {c c' : SaveEventCall} {input : Input}
    (h : c.next input = some c') :
    ∀ e ∈ c.writes input ++ (Call.saveEvent c').executing.getD [],
      e ∈ (Call.saveEvent c).executing.getD [] ∨ FromWire e := by
  intro e he
  unfold next at h
  split at h
  · rename_i request
    split at h
    · rename_i hvalid
      obtain rfl := Option.some.inj h
      obtain ⟨event, hevent, rfl⟩ := List.mem_map.mp he
      exact Or.inr ⟨event, (validateSaveEventRequest_isOk.mp hvalid).2 event hevent, rfl⟩
    · obtain rfl := Option.some.inj h
      cases he
  · rename_i events result
    obtain rfl := Option.some.inj h
    have he : e ∈ (if result.success then events else []) ++ [] := he
    rw [List.append_nil] at he
    split at he
    · exact Or.inl he
    · cases he
  · obtain rfl := Option.some.inj h
    cases he
  · cases h

/-- What a call has saved, and what it has passed to `Execute`, came over
the wire. -/
theorem Call.fromWire_run {rpc : Rpc} {call : Call} {out : List Dto.Event}
    (h : (machine rpc).Run call out) : ∀ e ∈ out ++ call.executing.getD [], FromWire e := by
  induction h with
  | @start call h0 =>
      intro e he
      obtain rfl := h0
      cases rpc with
      | saveEvent request => cases he
      | saveEventsStream => cases he
  | @step call call' out o hrun hs ih =>
      obtain ⟨input, hnext, rfl⟩ := hs
      cases call with
      | saveEventsStream c =>
          obtain ⟨c', hc, rfl⟩ := Option.map_eq_some_iff.mp hnext
          have hinv := StreamCall.inv_run (stream_run hrun c rfl)
          exact (StreamCall.inv_next hinv hc).fromWire
      | saveEvent c =>
          obtain ⟨c', hc, rfl⟩ := Option.map_eq_some_iff.mp hnext
          intro e he
          rw [List.append_assoc] at he
          rcases List.mem_append.mp he with he | he
          · exact ih e (List.mem_append_left _ he)
          · rcases SaveEventCall.fromWire_next hc e he with he | he
            · exact ih e (List.mem_append_right _ he)
            · exact he

/-- Everything that `SaveEvents` saved for the service came over the wire. -/
theorem HistoryService.fromWire_run {ι : Type} [DecidableEq ι] {rpc : ι → Rpc} {pg : Pg}
    {s : HistoryService ι} {out : List (ι × Finished)} (h : (machine rpc pg).Run s out) :
    ∀ e ∈ savedEvents (out.map (·.2)), FromWire e := by
  intro e he
  have hinv := inv_run h
  obtain ⟨store, hservice, hstore⟩ := hinv.service
  obtain ⟨i, hi⟩ : ∃ i, e ∈ savedEvents (share i out) := by
    obtain ⟨f, hf, hsuccess, hef⟩ := mem_savedEvents.mp he
    obtain ⟨⟨i, f'⟩, hmem, rfl⟩ := List.mem_map.mp hf
    exact ⟨i, mem_savedEvents.mpr ⟨f', mem_share.mpr hmem, hsuccess, hef⟩⟩
  rw [hstore i] at hi
  refine Call.fromWire_run (hservice.component i) e ?_
  rcases List.mem_append.mp hi with hi | hi
  · exact List.mem_append_left _ hi
  · refine List.mem_append_right _ ?_
    unfold SaveCall.unseen at hi
    split at hi
    · rename_i result hpc
      rw [hinv.blocked i (by simp [hpc])]
      split at hi
      · exact hi
      · cases hi
    · cases hi

/-! ## Fields -/

/-- An `INET` that holds a canonical dotted-quad prints as that text. -/
def KeepsInet (pg : Pg) : Prop :=
  ∀ addr, pg.inetIn (ipv4AddressToString addr) = some (ipv4AddressToString addr)

/-- The timestamp `ORDER BY` sees. -/
def storedTimestamp (pg : Pg) (e : Dto.Event) : WithTop Int :=
  match pg.timestamptzIn e.timestampUtc with
  | some t => t
  | none => ⊤

/-- What a client reads of a saved event: the timestamp as PostgreSQL prints
it, and every other field as it was. -/
structure Unchanged (pg : Pg) (saved read : Dto.Event) : Prop where
  sourceService : read.sourceService = saved.sourceService
  timestampUtc :
    (pg.timestamptzIn saved.timestampUtc).map pg.timestamptzOut = some read.timestampUtc
  status : read.status = saved.status
  rawLine : NulFree saved.payload.rawLine → read.payload.rawLine = saved.payload.rawLine
  parsedIpAbsent : read.payload.parsedIp = none ↔ saved.payload.parsedIp = none
  parsedIp : ∀ addr, saved.payload.parsedIp = some (ipv4AddressToString addr) →
    read.payload.parsedIp = saved.payload.parsedIp
  filterDecision : read.payload.filterDecision = saved.payload.filterDecision
  rejectReasonAbsent : read.payload.rejectReason = none ↔ saved.payload.rejectReason = none
  rejectReason : ∀ reason, saved.payload.rejectReason = some reason → NulFree reason →
    read.payload.rejectReason = saved.payload.rejectReason

section Fields

variable {pg : Pg} {e : Dto.Event} {p : EventRow × PayloadRow}

theorem mapM_eq_none_iff {f : String → Option String} {o r : Option String}
    (h : o.mapM f = some r) : r = none ↔ o = none := by
  cases o with
  | none =>
      obtain rfl := Option.some.inj h
      rfl
  | some s =>
      rw [Option.mapM_some] at h
      obtain ⟨t, -, rfl⟩ := Option.map_eq_some_iff.mp h
      simp

theorem mapM_of_keeps {f : String → Option String} {r : Option String} {s : String}
    (hs : f s = some s) (h : (some s).mapM f = some r) : r = some s := by
  rw [Option.mapM_some, hs] at h
  exact (Option.some.inj h).symm

theorem eq_of_keepsText (htext : KeepsText pg) {s t : String} (hs : NulFree s)
    (h : pg.textIn s = some t) : t = s :=
  Option.some.inj (h.symm.trans (htext s hs))

/-- The event read from two rows survives the wire: its decision passed the
check. -/
theorem toDtoEvent_eventOf (h : Keeps pg p e) :
    toDtoEvent (toProtoEvent (eventOf pg (pairRow p))) = eventOf pg (pairRow p) := by
  obtain ⟨t, ht⟩ := Option.isSome_iff_exists.mp h.event.notNull
  obtain ⟨status, -, hstatus⟩ := exists_status h.event.checkStatus
  refine toDtoEvent_toProtoEvent_of_decision ?_
  rw [eventOf, decode_pairRow ht hstatus]
  rcases List.mem_cons.mp h.payload.checkFilterDecision with hd | hd
  · exact Or.inl hd
  · exact Or.inr (Or.inl (List.mem_singleton.mp hd))

/-- What the client reads of the two rows of an event. -/
theorem unchanged_of_keeps (htext : KeepsText pg) (hinet : KeepsInet pg) (hwire : FromWire e)
    (h : Keeps pg p e) : Unchanged pg e (toDtoEvent (toProtoEvent (eventOf pg (pairRow p)))) := by
  obtain ⟨event, hvalid, rfl⟩ := hwire
  obtain ⟨t, ht⟩ := Option.isSome_iff_exists.mp h.event.notNull
  have hsource : p.1.sourceService = event.sourceService := by
    refine eq_of_keepsText htext ?_ h.event.sourceService
    show NulFree event.sourceService
    rw [hvalid.sourceService]
    decide
  have hstatus : p.1.status = Dto.statusToStr (toDtoEvent event).status :=
    eq_of_keepsText htext (nulFree_statusToStr _) h.event.status
  have hdecision : p.2.filterDecision = (toDtoEvent event).payload.filterDecision :=
    eq_of_keepsText htext (nulFree_fromProtoFilterDecision _) h.payload.filterDecision
  rw [toDtoEvent_eventOf h, eventOf, decode_pairRow ht hstatus]
  refine
    { sourceService := hsource
      timestampUtc := ?_
      status := rfl
      rawLine := fun hfree => eq_of_keepsText htext hfree h.payload.rawLine
      parsedIpAbsent := mapM_eq_none_iff h.payload.parsedIp
      parsedIp := fun addr hip => ?_
      filterDecision := hdecision
      rejectReasonAbsent := mapM_eq_none_iff h.payload.rejectReason
      rejectReason := fun reason hreason hfree => ?_ }
  · rw [← h.event.timestampUtc, ht]
    rfl
  · have hrow := h.payload.parsedIp
    rw [hip] at hrow ⊢
    exact mapM_of_keeps (hinet addr) hrow
  · have hrow := h.payload.rejectReason
    rw [hreason] at hrow ⊢
    exact mapM_of_keeps (htext reason hfree) hrow

/-- A row of the join stands for an event of the service. -/
def Stored (pg : Pg) (e : Dto.Event) (r : Joined) : Prop :=
  FromWire e ∧ ∃ p, r = pairRow p ∧ Keeps pg p e

theorem Stored.unchanged {r : Joined} (htext : KeepsText pg) (hinet : KeepsInet pg)
    (h : Stored pg e r) : Unchanged pg e (toDtoEvent (toProtoEvent (eventOf pg r))) := by
  obtain ⟨hwire, p, rfl, hkeeps⟩ := h
  exact unchanged_of_keeps htext hinet hwire hkeeps

theorem Keeps.timestamp {p : EventRow × PayloadRow} (h : Keeps pg p e)
    (payload : Option PayloadRow) : storedTimestamp pg e = orderKey (p.1, payload) := by
  have hrow := h.event.timestampUtc
  cases hsaved : pg.timestamptzIn e.timestampUtc with
  | none => simp [storedTimestamp, orderKey, hrow, hsaved]
  | some t => simp [storedTimestamp, orderKey, hrow, hsaved]

theorem Stored.timestamp {r : Joined} (h : Stored pg e r) :
    storedTimestamp pg e = orderKey r := by
  obtain ⟨-, p, rfl, hkeeps⟩ := h
  exact hkeeps.timestamp (some p.2)

end Fields

/-! ## The whole way -/

/-- **What was saved is what is read back.** In every reachable state of the
service with at most 10^9 stored events, `GetEvents` with an empty filter,
called by the client, returns the events of the successful calls of
`SaveEvents`, each exactly as often as it was saved, ordered by stored
timestamp and unchanged. -/
theorem saved_read_back {ι : Type} [DecidableEq ι] {rpc : ι → Rpc} {pg : Pg}
    (htext : KeepsText pg) (hinet : KeepsInet pg) {s : HistoryService ι}
    {out : List (ι × Finished)} (h : (HistoryService.machine rpc pg).Run s out)
    (hlen : s.repo.db.tables.events.length ≤ 1000000000) {arrange : Arrangement}
    (harr : Admissible arrange) (tu : TimeUtil) :
    ∃ saved read, saved.Perm (savedEvents (out.map (·.2)))
      ∧ GrpcService.getEventsImpl tu
          (getEventsHandler tu (getEvents pg arrange s.repo.db.tables)) {} = .ok (some read)
      ∧ List.Forall₂ (Unchanged pg) saved read
      ∧ saved.Pairwise fun a b => storedTimestamp pg a ≤ storedTimestamp pg b := by
  have hr := Repo.inv_run (HistoryService.inv_run h).repo
  obtain ⟨pairs, htables, hkeeps⟩ := hr.stored
  have hnodup : (Tables.ofPairs pairs).ids.Nodup := htables ▸ hr.distinct.committed
  rw [htables] at hlen ⊢
  have hpairs : pairs.length ≤ 1000000000 := by
    rwa [Tables.ofPairs, List.length_map] at hlen
  have hrows : List.Forall₂ (Stored pg) (savedEvents (out.map (·.2))) (pairs.map pairRow) := by
    have hflip : List.Forall₂ (fun e p => Keeps pg p e) (savedEvents (out.map (·.2))) pairs :=
      hkeeps.flip
    have hboth := (List.forall₂_and_left _ _).mpr ⟨HistoryService.fromWire_run h, hflip⟩
    rw [List.forall₂_map_right_iff]
    exact hboth.imp fun e p he => ⟨he.1, p, rfl, he.2⟩
  have hsame : statusRows pairs none = pairs.map pairRow := by
    simp [statusRows]
  have hexec := getEvents_status htext hkeeps hnodup hpairs harr none
  rw [hsame] at hexec
  obtain ⟨saved, hperm, hstored⟩ := (harr (pairs.map pairRow)).exists_perm hrows
  refine ⟨saved, _, hperm, GrpcService.getEventsImpl_empty hexec, ?_, ?_⟩
  · rw [List.map_map, List.forall₂_map_right_iff]
    exact hstored.imp fun e r he => he.unchanged htext hinet
  · exact (harr _).pairwise (hstored.imp fun e r he => he.timestamp)

/-- A unary and a streaming call have saved an event each, the stream while
the unary call was in its transaction; a client reads both. -/
theorem saved_read_back_sample :
    ∃ s out saved read, (HistoryService.machine sampleRpc samplePg).Run s out
      ∧ saved.Perm [sampleEvent, sampleEvent]
      ∧ GrpcService.getEventsImpl ⟨fun _ => none, fun _ => ""⟩
          (getEventsHandler ⟨fun _ => none, fun _ => ""⟩
            (getEvents samplePg (Sql.arrange orderKey) s.repo.db.tables)) {} = .ok (some read)
      ∧ List.Forall₂ (Unchanged samplePg) saved read := by
  have hrun := (Machine.Run.start (M := HistoryService.machine sampleRpc samplePg) rfl).steps
    (Machine.steps_of_feed
      (l := [(false, .handler .proceed), (false, .execute), (false, .save .proceed),
        (false, .save (.insertEvent 1)), (true, .handler (.read (some sampleMessage))),
        (true, .handler .proceed), (true, .handler (.isCancelled false)),
        (true, .handler (.read none)), (true, .execute), (true, .save .proceed),
        (true, .save (.insertEvent 2)), (true, .save .proceed), (true, .save .proceed),
        (true, .resume), (false, .save .proceed), (false, .save .proceed)]) rfl)
  obtain ⟨saved, read, hperm, hread, hall, -⟩ :=
    saved_read_back (fun _ _ => rfl) (fun _ => rfl) hrun (by decide)
      (arranged_arrange orderKey) ⟨fun _ => none, fun _ => ""⟩
  exact ⟨_, _, saved, read, hrun, hperm, hread, hall⟩

end EventHistory
