import EventHistory.Db.Pagination
import EventHistory.System.EventLog

/-!
# Reading while others save

Two things a reader wants who does not stop the others. `reads_grow`: what is
read later is at least what was read before, by whatever threads. And
`paging_while_saving`: a client that fetches the history page by page gets
each event of the moment at which it began exactly once, as long as what is
saved in the meantime has later times, and no page boundary falls between
unlike events of one time.
-/

namespace EventHistory

open Sql Paging Transition

/-! ## Answers of growing logs -/

theorem filterMap_of_forall₂ {α β : Type} {f : α → Option β} {l : List α} {u : List β}
    (h : List.Forall₂ (fun a b => f a = some b) l u) : l.filterMap f = u := by
  induction h with
  | nil => rfl
  | cons hab _ ih => rw [List.filterMap_cons_some hab, ih]

theorem map_of_forall₂ {α β : Type} {f : α → Option β} {l : List α} {u : List β}
    (h : List.Forall₂ (fun a b => f a = some b) l u) : u.map some = l.map f := by
  induction h with
  | nil => rfl
  | cons hab _ ih => rw [List.map_cons, List.map_cons, hab, ih]

/-- The events of the log that the filter asks for. -/
def asked (pg : Pg) (filter : Dto.EventFilter) (log : List Dto.Event) : List Dto.Event :=
  log.filter fun e => Wants pg filter e

section Answers

variable {pg : Pg} {filter : Dto.EventFilter} {log log' events events' : List Dto.Event}

theorem length_asked_le : (asked pg filter log).length ≤ log.length := List.length_filter_le ..

/-- An answer has no more events than the log. -/
theorem Answers.length_le (h : Answers pg log filter events) : events.length ≤ log.length := by
  obtain ⟨wanted, hperm, -, hshown⟩ := h
  calc events.length
    _ = ((wanted.drop (offsetIn filter)).take (limitIn filter)).length := hshown.length_eq.symm
    _ ≤ wanted.length := by
        rw [List.length_take, List.length_drop]
        omega
    _ ≤ log.length := hperm.length_eq.trans_le length_asked_le

/-- Without a page, all that is asked for is shown. -/
theorem Answers.perm (h : Answers pg log filter events) (hlimit : filter.limit = none)
    (hoffset : filter.offset = none) (hlen : log.length ≤ 1000000000) :
    events.Perm ((asked pg filter log).filterMap (readBack pg)) := by
  obtain ⟨wanted, hperm, -, hshown⟩ := h
  have hfirst : offsetIn filter = 0 := by simp [offsetIn, hoffset]
  have hall : limitIn filter = 1000000000 := by simp [limitIn, hlimit]
  have hfits : wanted.length ≤ 1000000000 :=
    (hperm.length_eq.trans_le length_asked_le).trans hlen
  rw [hfirst, hall, List.drop_zero, List.take_of_length_le hfits] at hshown
  rw [← filterMap_of_forall₂ hshown]
  exact hperm.filterMap _

/-- A longer log shows what the shorter one did. -/
theorem Answers.subperm (h : Answers pg log filter events) (h' : Answers pg log' filter events')
    (hlog : log <+: log') (hlimit : filter.limit = none) (hoffset : filter.offset = none)
    (hlen : log'.length ≤ 1000000000) : events.Subperm events' := by
  have hsub : ((asked pg filter log).filterMap (readBack pg)).Sublist
      ((asked pg filter log').filterMap (readBack pg)) :=
    ((hlog.filter _).sublist).filterMap _
  have hfirst := h.perm hlimit hoffset (hlog.length_le.trans hlen)
  exact hfirst.subperm.trans (hsub.subperm.trans (h'.perm hlimit hoffset hlen).symm.subperm)

/-- No count of `a` is above that of `b`. -/
def Dto.Stats.Below (a b : Dto.Stats) : Prop :=
  a.eventsTotal ≤ b.eventsTotal ∧ a.eventsSuccess ≤ b.eventsSuccess
    ∧ a.eventsError ≤ b.eventsError

theorem ofNat_le {m n : Nat} (h : m ≤ n) (hn : n < 2 ^ 64) : UInt64.ofNat m ≤ UInt64.ofNat n := by
  rw [UInt64.le_iff_toNat_le, UInt64.toNat_ofNat_of_lt' hn,
    UInt64.toNat_ofNat_of_lt' (h.trans_lt hn)]
  exact h

theorem countEvents_below (hlog : log <+: log') (hlen : log'.length < 2 ^ 64) :
    (countEvents log).Below (countEvents log') := by
  have hcount (p : Dto.Event → Bool) : UInt64.ofNat (log.countP p) ≤ .ofNat (log'.countP p) :=
    ofNat_le (hlog.sublist.countP_le) (List.countP_le_length.trans_lt hlen)
  exact ⟨ofNat_le hlog.length_le hlen, hcount _, hcount _⟩

/-- The events of a page, as the rows `wanted` has in its place. -/
theorem Answers.page {k count j : Nat} (h : Answers pg log (pageFilter filter k j) events)
    (hj : j < count) (hsize : count * k < 2 ^ 64) :
    ∃ wanted, Arranged (storedTimestamp pg) (asked pg filter log) wanted
      ∧ events.map some = (window k (j * k) wanted).map (readBack pg) := by
  obtain ⟨wanted, hperm, hsorted, hshown⟩ := h
  have hk : k ≤ count * k := Nat.le_mul_of_pos_left k (Nat.zero_lt_of_lt hj)
  have hjk : j * k ≤ count * k := Nat.mul_le_mul_right k hj.le
  have hlimit : limitIn (pageFilter filter k j) = k :=
    UInt64.toNat_ofNat_of_lt' (hk.trans_lt hsize)
  have hoffset : offsetIn (pageFilter filter k j) = j * k :=
    UInt64.toNat_ofNat_of_lt' (hjk.trans_lt hsize)
  rw [hlimit, hoffset] at hshown
  exact ⟨wanted, ⟨hperm, hsorted⟩, map_of_forall₂ hshown⟩

end Answers

/-! ## Reads of a run -/

section Shows

variable {ι : Type} {pg : Pg} {log : List (ι × Dto.Event)}

theorem stats_of_shows {stats : Dto.Stats} (h : Shows pg log .getStats (.stats (.ok stats))) :
    stats = countEvents (log.map (·.2)) :=
  Option.some.inj (congrArg Result.data h)

theorem answers_of_shows {filter : Dto.EventFilter} {events : List Dto.Event}
    (h : Shows pg log (.getEvents (some filter)) (.events (.ok events))) :
    Answers pg (log.map (·.2)) filter events := by
  obtain ⟨f, shown, hf, hok, hanswers⟩ := h
  obtain rfl := Option.some.inj hf
  obtain rfl : events = shown := Option.some.inj (congrArg Result.data hok)
  exact hanswers

end Shows

namespace Repository

variable {ι : Type} [DecidableEq ι] {pg : Pg} {r r' : Repository ι}
  {out o : List (ι × Label RepoOp RepoResult)}

/-- **Nothing that has been read goes away.** Compare a read that returned in
the course of a run with one that is called later, by the same thread or by
another one: no count gets smaller, a list that no limit cuts has all the
events that the first one had, each as often, and no list ever had more events
than are counted later. -/
theorem reads_grow (htext : KeepsText pg) (h : (machine ι pg).Run r out)
    (hs : (machine ι pg).Steps r o r') (hlen : r'.log.length < 2 ^ 64) :
    (∀ i j stats stats', Completed i (.read .getStats) (.stats (.ok stats)) out →
        Completed j (.read .getStats) (.stats (.ok stats')) o → stats.Below stats')
      ∧ (∀ i j filter events events', filter.limit = none → filter.offset = none →
        Completed i (.read (.getEvents (some filter))) (.events (.ok events)) out →
        Completed j (.read (.getEvents (some filter))) (.events (.ok events')) o →
        r'.log.length ≤ 1000000000 → events.Subperm events')
      ∧ ∀ i j filter events stats,
        Completed i (.read (.getEvents (some filter))) (.events (.ok events)) out →
        Completed j (.read .getStats) (.stats (.ok stats)) o →
        events.length ≤ stats.eventsTotal.toNat := by
  have hstart : (machine ι pg).Run {} [] := .start rfl
  have hearly {i : ι} {op : ReadOp} {result : RepoResult} (hc : Completed i (.read op) result out)
      (hsuccess : result.success = true) : ∃ log, log <+: r.log ∧ Shows pg log op result := by
    obtain ⟨log, -, hle, hshows⟩ := shows_of_completed htext hstart (steps_of_run h) hc hsuccess
    exact ⟨log, hle, hshows⟩
  refine ⟨fun i j stats stats' hc hc' => ?_,
    fun i j filter events events' hlimit hoffset hc hc' hmany => ?_,
    fun i j filter events stats hc hc' => ?_⟩
  all_goals
    obtain ⟨log, hlog, hshows⟩ := hearly hc rfl
    obtain ⟨log', hlog', hend, hshows'⟩ := shows_of_completed htext h hs hc' rfl
    have hgrown : log.map (·.2) <+: log'.map (·.2) := (hlog.trans hlog').map _
    have hlast : (log'.map (·.2)).length ≤ r'.log.length := by
      rw [List.length_map]
      exact hend.length_le
  · obtain rfl := stats_of_shows hshows
    obtain rfl := stats_of_shows hshows'
    exact countEvents_below hgrown (hlast.trans_lt hlen)
  · exact (answers_of_shows hshows).subperm (answers_of_shows hshows') hgrown hlimit hoffset
      (hlast.trans hmany)
  · obtain rfl := stats_of_shows hshows'
    rw [countEvents, UInt64.toNat_ofNat_of_lt' (hlast.trans_lt hlen)]
    exact (answers_of_shows hshows).length_le.trans hgrown.length_le

/-- **Paging while others save.** A client begins in some reachable state to
fetch `count` pages of size `k`, which hold all that is asked for there; the
pages may be fetched by any threads in any order. If what is saved in the
meantime has later times, and no boundary falls between unlike events of one
time, then the first events it gets are those asked for in that state, each
exactly once. -/
theorem paging_while_saving (htext : KeepsText pg) (h : (machine ι pg).Run r out)
    (hs : (machine ι pg).Steps r o r') (filter : Dto.EventFilter) (k count : Nat) (hk : 1 ≤ k)
    (hsize : count * k < 2 ^ 64) (page : Nat → List Dto.Event)
    (hpages : ∀ j < count, ∃ i, Completed i (.read (.getEvents (some (pageFilter filter k j))))
      (.events (.ok (page j))) o)
    (hcount : (asked pg filter (r.log.map (·.2))).length ≤ count * k)
    (hlater : ∀ e ∈ asked pg filter (r.log.map (·.2)),
      ∀ e' ∈ asked pg filter ((r'.log.drop r.log.length).map (·.2)),
        storedTimestamp pg e < storedTimestamp pg e')
    (hclean : ∀ j, CleanCut (storedTimestamp pg) (readBack pg) (asked pg filter (r.log.map (·.2)))
      (j * k)) :
    ((((List.range count).flatMap page).take (asked pg filter (r.log.map (·.2))).length).map
      some).Perm ((asked pg filter (r.log.map (·.2))).map (readBack pg)) := by
  have hperm : (((List.range count).flatMap fun j => (page j).map some).take _).Perm _ :=
    pages_grown hk hcount hclean fun j hj => ?_
  · rwa [← List.map_flatMap, ← List.map_take] at hperm
  · obtain ⟨i, hc⟩ := hpages j hj
    obtain ⟨log, ⟨more, rfl⟩, ⟨rest, hend⟩, hshows⟩ := shows_of_completed htext h hs hc rfl
    obtain ⟨wanted, harr, hwindow⟩ := (answers_of_shows hshows).page hj hsize
    rw [List.map_append, asked, List.filter_append] at harr
    refine ⟨_, wanted, fun e he e' he' => hlater e he e' ?_, harr, hwindow⟩
    rw [← hend, List.append_assoc, List.drop_left, List.map_append, asked, List.filter_append]
    exact List.mem_append_left _ he'

/-! ### One event after another -/

/-- A read that nobody disturbs leaves the repository as it was. -/
theorem steps_read (i : ι) (op : ReadOp) {arrange : Arrangement} (hidle : r.calls i = .idle)
    (harr : Admissible arrange) (hsuccess : (op.exec pg arrange r.db.tables).success = true) :
    (machine ι pg).Steps r
      [(i, .call (.read op)), (i, .ret (op.exec pg arrange r.db.tables))] r := by
  have hfeed : Machine.feed (next pg) labels r
      [(i, .call (.read op)), (i, .read (.exec arrange)), (i, .read .commit), (i, .leave)] =
        some (r, [(i, .call (.read op)), (i, .ret (op.exec pg arrange r.db.tables))]) := by
    have hback : { r with calls := Function.update r.calls i .idle } = r := by
      rw [← hidle, Function.update_eq_self]
    simp [Machine.feed, next, labels, hidle, RepoCall.start, ReadCall.next, ReadCall.exec,
      hsuccess, RepoCall.result, setCall, hback]
  refine Machine.steps_of_feed_where (fun a ha s => ?_) hfeed
  simp only [List.mem_cons, List.not_mem_nil, or_false] at ha
  rcases ha with rfl | rfl | rfl | rfl
  · trivial
  · exact harr
  · trivial
  · trivial

/-- A database that knows two instants. -/
def clockPg : Pg :=
  { samplePg with
    timestamptzIn := fun s => if s = "2026-07-08 11:55:30+00" then some 1 else some 0
    timestamptzOut := fun t =>
      if t = 1 then "2026-07-08 11:55:30+00" else "2026-07-08 11:55:29+00" }

def laterEvent : Dto.Event := { sampleEvent with timestampUtc := "2026-07-08 11:55:30+00" }

/-- Thread `false` saves an event, which gets the identifier `id`. -/
def saving (e : Dto.Event) (id : Int) : List (Bool × RepoInput) :=
  [(false, .call (.saveEvents [e])), (false, .save .proceed), (false, .save (.insertEvent id)),
    (false, .save .proceed), (false, .save .proceed), (false, .leave)]

def laterHistory : List (Bool × Label RepoOp RepoResult) :=
  [(false, .call (.saveEvents [laterEvent])), (false, .ret (.saved (.returned .ok)))]

/-- A read of thread `true`. -/
def reading (op : ReadOp) (result : RepoResult) : List (Bool × Label RepoOp RepoResult) :=
  [(true, .call (.read op)), (true, .ret result)]

/-- The repository when an event has been saved. -/
def savedOne : Repository Bool :=
  ((Machine.feed (next clockPg) labels {} (saving sampleEvent 1)).getD ({}, [])).1

/-- And when a later one has been saved too. -/
def savedTwo : Repository Bool :=
  ((Machine.feed (next clockPg) labels savedOne (saving laterEvent 2)).getD ({}, [])).1

theorem orders_saving {e : Dto.Event} {id : Int} :
    ∀ a ∈ saving e id, Repository Bool → Orders a := by
  intro a ha _
  simp only [saving, List.mem_cons, List.not_mem_nil, or_false] at ha
  rcases ha with rfl | rfl | rfl | rfl | rfl | rfl <;> trivial

theorem run_savedOne : (machine Bool clockPg).Run savedOne sampleHistory :=
  (Machine.Run.start (M := machine Bool clockPg) rfl).steps
    (Machine.steps_of_feed_where (l := saving sampleEvent 1) orders_saving rfl)

theorem steps_savedTwo : (machine Bool clockPg).Steps savedOne laterHistory savedTwo :=
  Machine.steps_of_feed_where (l := saving laterEvent 2) orders_saving rfl

/-- The later event is saved while the first one has been counted and read. -/
theorem reads_grow_sample :
    Dto.Stats.Below { eventsTotal := 1, eventsSuccess := 1, eventsError := 0 }
        { eventsTotal := 2, eventsSuccess := 2, eventsError := 0 }
      ∧ [sampleBack].Subperm [sampleBack, laterEvent] := by
  have hadm : Admissible (Sql.arrange orderKey) := arranged_arrange orderKey
  have hrun := (run_savedOne.steps (steps_read true .getStats rfl hadm rfl)).steps
    (steps_read true (.getEvents (some {})) rfl hadm rfl)
  have hsteps := (steps_savedTwo.trans (steps_read true .getStats rfl hadm rfl)).trans
    (steps_read true (.getEvents (some {})) rfl hadm rfl)
  have hgrow := reads_grow (fun _ _ => rfl) hrun hsteps (by decide)
  exact ⟨hgrow.1 true true _ _ ⟨[], [_, _], rfl⟩ ⟨[], [_, _], rfl⟩,
    hgrow.2.1 true true {} _ _ rfl rfl ⟨[_, _], [], rfl⟩ ⟨[_, _], [], rfl⟩ (by decide)⟩

/-- Thread `true` fetches a page of one event. -/
theorem steps_page {r : Repository Bool} {j : Nat} {events : List Dto.Event}
    (hidle : r.calls true = .idle) (hj : j * 1 < 2 ^ 31)
    (hrows : (window 1 (j * 1) (Sql.arrange orderKey
      (GetEventsQuery.rows ⟨none, none, none, none, 1, j * 1⟩ r.db.tables))).mapM
      (decode clockPg) = .ok events) :
    (machine Bool clockPg).Steps r
      [(true, .call (.read (.getEvents (some (pageFilter {} 1 j))))),
        (true, .ret (.events (.ok events)))] r := by
  have hopen : bindGetEvents clockPg (filterParams (unpaged {})) =
      .ok ⟨none, none, none, none, 1000000000, 0⟩ := rfl
  have hbind : bindGetEvents clockPg (filterParams (pageFilter {} 1 j)) =
      .ok ⟨none, none, none, none, 1, j * 1⟩ := bind_window hopen (by decide) hj
  have hexec : ReadOp.exec clockPg (Sql.arrange orderKey) r.db.tables
      (.getEvents (some (pageFilter {} 1 j))) = .events (.ok events) := by
    simp only [ReadOp.exec, getEvents, execGetEvents, Option.map_some, Option.getD_some, hbind,
      hrows]
  have hsteps : (machine Bool clockPg).Steps r _ r :=
    steps_read true _ hidle (arranged_arrange orderKey) (congrArg RepoResult.success hexec)
  rwa [hexec] at hsteps

/-- The later event is saved between the first page and the second one. -/
theorem paging_while_saving_sample :
    (([sampleBack, laterEvent].take 1).map some).Perm
      ([sampleEvent].map (readBack clockPg)) := by
  have hsteps := ((steps_page (j := 0) rfl (by decide) rfl).trans steps_savedTwo).trans
    (steps_page (j := 1) rfl (by decide) rfl)
  refine paging_while_saving (fun _ _ => rfl) run_savedOne hsteps {} 1 2 (by decide) (by decide)
    (fun j => if j = 0 then [sampleBack] else [laterEvent]) ?_ (by decide) (by decide) ?_
  · intro j hj
    match j, hj with
    | 0, _ => exact ⟨true, [], [_, _], rfl⟩
    | 1, _ => exact ⟨true, [_, _], [], rfl⟩
  · intro j x hx y hy _ _
    obtain rfl : x = sampleEvent := List.mem_singleton.mp hx
    obtain rfl : y = sampleEvent := List.mem_singleton.mp hy
    rfl

end Repository

end EventHistory
