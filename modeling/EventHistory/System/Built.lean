import EventHistory.Client.Builder
import EventHistory.Db.Inet
import EventHistory.Service.Insertable

/-!
# What a client builds can be saved

From the log entries of a file to the tables: the events that the builder
makes pass the validation of both handlers, come through the wire as they are,
and are insertable. What is asked of an entry is that its line has no NUL,
which no text of PostgreSQL may have, and that the clock showed a time which
PostgreSQL can read.
-/

namespace EventHistory

open Proto Transition

/-- The database can read the line of the entry and the time it was built at. -/
structure Readable (pg : Pg) (localtime : Int → Tm) (entry : LogEntry × Int) : Prop where
  rawLine : NulFree entry.1.rawLine
  timestampUtc : (pg.timestamptzIn (formatTimestamp localtime entry.2)).isSome = true

theorem nulFree_filterRejectReasonToStr {reason : RejectReason} {text : String}
    (h : filterRejectReasonToStr reason = some text) : NulFree text := by
  cases reason with
  | none | other value => cases h
  | invalidFormat | invalidIPAddress | filterRejected =>
      obtain rfl := Option.some.inj h
      decide

theorem getFilterDecision_mem_filterDecisions (reason : RejectReason) :
    getFilterDecision reason ∈ filterDecisions ∧ NulFree (getFilterDecision reason) := by
  rcases getFilterDecision_mem reason with h | h
  · rw [h]
    decide
  · rw [h]
    decide

namespace EventBuilder

variable {pg : Pg} {b : EventBuilder} {localtime : Int → Tm} {entry : LogEntry × Int}
  {batches : List (List (LogEntry × Int))} {e : Dto.Event}

/-- The texts of a built event pass the columns. -/
theorem storable_of_build (hname : b.srcServiceName = "ipv4_filter")
    (h : b.build localtime entry.2 entry.1 = some e) : Storable e := by
  have hsource : b.srcServiceName ∈ sourceServices := by
    rw [hname]
    decide
  unfold build at h
  split at h
  · cases h
  · obtain rfl := Option.some.inj h
    refine storable_of_checks hsource ?_ (getFilterDecision_mem_filterDecisions _).1
    dsimp only
    split
    · decide
    · decide

/-- And PostgreSQL can read them. -/
theorem insertable_of_build (htext : KeepsText pg) (hquads : TakesQuads pg)
    (hname : b.srcServiceName = "ipv4_filter") (hentry : Readable pg localtime entry)
    (h : b.build localtime entry.2 entry.1 = some e) : Insertable pg e := by
  have hstorable := storable_of_build hname h
  have hsource : NulFree b.srcServiceName := by
    rw [hname]
    decide
  unfold build at h
  split at h
  · cases h
  · obtain rfl := Option.some.inj h
    refine hstorable.insertable htext hsource hentry.timestampUtc hentry.rawLine ?_
      (getFilterDecision_mem_filterDecisions _).2 ?_
    · intro ip hip
      obtain ⟨addr, -, rfl⟩ := Option.map_eq_some_iff.mp hip
      exact hquads _ (by rw [read_ipv4AddressToString]; rfl)
    · intro reason hreason
      exact nulFree_filterRejectReasonToStr hreason

/-- What a `save` collects was built from its entries. -/
theorem entry_of_collect (he : e ∈ b.collect localtime batches) :
    ∃ batch ∈ batches, ∃ entry ∈ batch, b.build localtime entry.2 entry.1 = some e := by
  obtain ⟨batch, hbatch, he⟩ := List.mem_flatMap.mp he
  obtain ⟨entry, hentry, he⟩ := List.mem_filterMap.mp he
  exact ⟨batch, hbatch, entry, hentry, he⟩

end EventBuilder

/-! ## From the file to the answer -/

section Built

variable {pg : Pg} {getenv : Environment} {localtime : Int → Tm}
  {batches : List (List (LogEntry × Int))}

/-- What the server makes of a built event is insertable. -/
theorem insertable_of_collect (htext : KeepsText pg) (hquads : TakesQuads pg)
    (hname : NamesIpv4Filter getenv)
    (hentries : ∀ batch ∈ batches, ∀ entry ∈ batch, Readable pg localtime entry) {e : Dto.Event}
    (he : e ∈ (mainBuilder getenv).collect localtime batches) :
    ValidEvent (toProtoEvent e) ∧ Insertable pg (toDtoEvent (toProtoEvent e)) := by
  have hsource := namesIpv4Filter_iff.mpr hname
  have hvalid := (EventBuilder.validEvent_of_collect he).mpr hsource
  obtain ⟨batch, hbatch, entry, hentry, hbuild⟩ := EventBuilder.entry_of_collect he
  rw [toDtoEvent_toProtoEvent_of_valid hvalid]
  exact ⟨hvalid, EventBuilder.insertable_of_build htext hquads hsource
    (hentries batch hbatch entry hentry) hbuild⟩

/-- **What a client builds is saved.** Take a client that has the name the
service knows, and a file with readable entries. In any run of the service,
whatever else it is served and whatever happens to the others: a call whose
repository nothing fails from outside is answered success if it is unary and
sends some of the collected events, or a stream of such events that has been
read to its end. -/
theorem built_saved (htext : KeepsText pg) (hquads : TakesQuads pg)
    (hname : NamesIpv4Filter getenv)
    (hentries : ∀ batch ∈ batches, ∀ entry ∈ batch, Readable pg localtime entry)
    {ι : Type} [DecidableEq ι] {rpc : ι → Rpc} {alone : ι → Prop} {s : HistoryService ι}
    {out : List (ι × Finished)} (h : (HistoryService.undisturbed rpc pg alone).Run s out) {i : ι}
    (hi : alone i) :
    (∀ events status response, rpc i = .saveEvent (Session.request events) → events ≠ [] →
        events ⊆ (mainBuilder getenv).collect localtime batches →
        s.handlers i = .saveEvent (.done status response) → response.success = true)
      ∧ ∀ c events status response, s.handlers i = .saveEventsStream c →
        c.received = events.map Session.message → c.readEnded = true →
        events ⊆ (mainBuilder getenv).collect localtime batches →
        c.pc = .done status response → response.success = true := by
  have hbuilt := fun {e : Dto.Event} (he : e ∈ (mainBuilder getenv).collect localtime batches) =>
    insertable_of_collect htext hquads hname hentries he
  refine ⟨?_, ?_⟩
  · intro events status response hrpc hne hevents hdone
    have hjudged := HistoryService.judged_run h hi
    rw [hrpc, hdone] at hjudged
    refine hjudged.mpr ⟨validateSaveEventRequest_isOk.mpr ⟨?_, ?_⟩, ?_⟩
    · simpa [Session.request] using hne
    · exact List.forall_mem_map.mpr fun e he => (hbuilt (hevents he)).1
    · exact List.forall_mem_map.mpr fun e he => (hbuilt (hevents he)).2
  · intro c events status response hc hreceived hread hevents hdone
    refine (HistoryService.stream_judged h hi hc hdone).mpr ⟨hread, ?_⟩
    rw [hreceived]
    exact List.forall_mem_map.mpr fun e he => (hbuilt (hevents he)).2

end Built

/-- A database that reads dotted quads, and any time. -/
def builtPg : Pg := { quadPg with timestamptzIn := fun _ => some 0 }

theorem takesQuads_builtPg : TakesQuads builtPg := by
  intro text h
  simpa [builtPg, quadPg] using h

/-- The two entries of a file. -/
def builtBatches : List (List (LogEntry × Int)) := [[(sampleEntry, 0)], [(sampleEntry, 1)]]

def builtEvents : List Dto.Event :=
  (mainBuilder fun _ => none).collect (fun _ => sampleTime) builtBatches

def builtInputs : List (Unit × HistoryInput) :=
  [((), .handler .proceed), ((), .execute), ((), .save .proceed), ((), .save (.insertEvent 1)),
    ((), .save .proceed), ((), .save (.insertEvent 2)), ((), .save .proceed),
    ((), .save .proceed), ((), .resume)]

theorem readable_builtBatches :
    ∀ batch ∈ builtBatches, ∀ entry ∈ batch, Readable builtPg (fun _ => sampleTime) entry := by
  intro batch hbatch entry hentry
  have hline : entry.1 = sampleEntry := by
    simp only [builtBatches, List.mem_cons, List.not_mem_nil, or_false] at hbatch
    rcases hbatch with rfl | rfl
    · rw [List.mem_singleton.mp hentry]
    · rw [List.mem_singleton.mp hentry]
  exact ⟨by rw [hline]; decide, rfl⟩

/-- The two events of the file, sent in the other order. -/
theorem built_saved_sample : ∃ s out status response,
    (HistoryService.undisturbed (fun _ : Unit => .saveEvent (Session.request builtEvents.reverse))
        builtPg fun _ => True).Run s out
      ∧ s.handlers () = .saveEvent (.done status response) ∧ response.success = true := by
  have hinputs : ∀ a ∈ builtInputs, a.2.harmless = true := by decide
  have hrun := (Machine.Run.start (M := HistoryService.undisturbed
      (fun _ : Unit => .saveEvent (Session.request builtEvents.reverse)) builtPg fun _ => True)
      rfl).steps
    (Machine.steps_of_feed_where (l := builtInputs) (fun a ha _ _ => hinputs a ha) rfl)
  refine ⟨_, _, _, _, hrun, rfl, ?_⟩
  exact (built_saved (fun _ _ => rfl) takesQuads_builtPg (Or.inl rfl) readable_builtBatches hrun
    (i := ()) trivial).1 _ _ _ rfl (by decide) (List.reverse_subset.mpr (List.Subset.refl _)) rfl

end EventHistory
