import EventHistory.Service.ReadBack
import EventHistory.System.Clients
import EventHistory.System.EventLog

/-!
# What clients see of each other

The whole system over the event log, one client at a time. A `SaveBatch`
client and its handler write to the log what its session persists (`Saving`);
a reading client is shown what is right for the log at a moment of its call
(`Reading`). Both are outlines: the other clients, whatever they do, keep
them. `saves_are_seen` puts them together with the simulation of the
repository: once a `SaveBatch` has returned true, every later read of any
client shows its events.
-/

namespace EventHistory

open Proto Transition
open Grpc (Status)

/-! ## The handler of a session -/

namespace Server

variable {v v' : Server} {events : List Dto.Event}

theorem executing_eq_none_of_answer {r : Status × SaveEventsResponse} (h : v.answer = some r) :
    v.executing = none := by
  cases v with
  | idle => rfl
  | saveEvent c b =>
      cases c with
      | received _ | execute _ => cases h
      | done _ _ => rfl
  | saveEventsStream t =>
      simp [executing, Call.executing, done_of_answer h]

/-- A handler that is not in `Execute` persists nothing. -/
theorem writes_of_not_executing (h : v.executing = none) (late : Bool) (o : Outcome) :
    v.writes (.serve late o) = [] := by
  cases v with
  | idle => rfl
  | saveEvent c b =>
      cases c with
      | execute _ => cases h
      | received _ | done _ _ => rfl
  | saveEventsStream t =>
      simp only [executing, Call.executing] at h
      simp only [writes, Serving.writes, StreamCall.input]
      cases hpc : t.call.pc with
      | executeBatch | finalBatch => simp [hpc] at h
      | body _ | isCancelled | done _ _ => rfl
      | read => cases t.channel.read late <;> rfl

/-- `Execute` returns to its handler. -/
theorem serve_of_executing (h : v.executing = some events) (late : Bool) (o : Outcome) :
    (∃ v', v.next (.serve late o) = some v')
      ∧ v.writes (.serve late o) = if o.success then events else [] := by
  cases v with
  | idle => cases h
  | saveEvent c b =>
      cases c with
      | received _ | done _ _ => cases h
      | execute es =>
          obtain rfl := Option.some.inj h
          cases o with
          | returned _ | threw _ => exact ⟨⟨_, rfl⟩, rfl⟩
  | saveEventsStream t =>
      simp only [executing, Call.executing] at h
      simp only [next, writes, Serving.next, Serving.writes, StreamCall.input]
      cases hpc : t.call.pc with
      | executeBatch | finalBatch =>
          simp only [hpc, Option.some.injEq] at h
          refine ⟨⟨_, by simp [StreamCall.next, hpc]; rfl⟩, ?_⟩
          simp [StreamCall.writes, h]
      | read | body _ | isCancelled | done _ _ => simp [hpc] at h

/-- Only that takes it out of `Execute`. -/
theorem executing_next {a : Serving.Act} (h : v.executing = some events)
    (ha : ∀ late o, a ≠ .serve late o) (hn : v.next a = some v') : v'.executing = some events := by
  cases v with
  | idle => cases h
  | saveEvent c b =>
      cases a with
      | serve late o => exact absurd rfl (ha late o)
      | cancel => exact (Option.some.inj hn) ▸ h
      | write _ | writesDone => cases hn
  | saveEventsStream t =>
      obtain ⟨t', ht, rfl⟩ := next_stream hn
      rcases Serving.next_cases ht with
        ⟨m, rfl, -, rfl⟩ | ⟨rfl, rfl⟩ | ⟨rfl, rfl⟩ | ⟨late, o, -, -, rfl, -⟩
      · exact h
      · exact h
      · exact h
      · exact absurd rfl (ha late o)

end Server

/-! ## What a session persists -/

namespace Session

variable {events out : List Dto.Event} {s s' : Session}

theorem persisted (h : (machine events).Run s out) : out <+: events := by
  obtain ⟨hwrote, hroute, -⟩ := inv_run h
  obtain ⟨client, server⟩ := s
  cases server with
  | idle =>
      obtain rfl : out = [] := hwrote
      exact List.nil_prefix
  | saveEventsStream t => exact hroute.2.persisted hwrote
  | saveEvent c b =>
      cases c with
      | received _ =>
          obtain rfl : out = [] := hwrote.2
          exact List.nil_prefix
      | execute _ =>
          obtain rfl : out = [] := hwrote.2.2
          exact List.nil_prefix
      | done status response =>
          by_cases hok : (status.isOk && response.success) = true
          · rw [unary_saved hwrote hok]
          · obtain rfl : out = [] := by
              simpa only [Server.Wrote, SaveEventCall.Inv, if_neg hok] using hwrote
            exact List.nil_prefix

/-- A client that was told true has saved its list. -/
theorem saved (h : (machine events).Run s out) (hreturned : s.client = .returned true) :
    out = events ∧ s.server.executing = none := by
  obtain ⟨hwrote, hroute, htold⟩ := inv_run h
  obtain ⟨client, server⟩ := s
  obtain rfl : client = .returned true := hreturned
  by_cases hidle : server = .idle
  · subst hidle
    rcases hroute with hc | hc | ⟨-, hnil⟩
    · cases hc
    · cases hc
    · exact ⟨hnil ▸ hwrote, rfl⟩
  · rcases htold hidle true rfl with ⟨-, hc⟩ | ⟨hopen, ⟨status, response⟩, hans, hok⟩
    · cases hc
    · refine ⟨?_, Server.executing_eq_none_of_answer hans⟩
      cases server with
      | idle => exact absurd rfl hidle
      | saveEvent c b =>
          cases c with
          | received _ | execute _ => cases hans
          | done status' response' =>
              obtain ⟨rfl, rfl⟩ := Prod.mk.inj (Option.some.inj hans)
              exact unary_saved hwrote hok
      | saveEventsStream t =>
          have hsuccess : response.success = true := (Bool.and_eq_true _ _ |>.mp hok).2
          exact hroute.2.saved hwrote hopen (Server.done_of_answer hans) hsuccess

theorem fromWire (h : (machine events).Run s out) : ∀ e ∈ out, FromWire e := by
  intro e he
  obtain ⟨hwrote, -, -⟩ := inv_run h
  obtain ⟨client, server⟩ := s
  cases server with
  | idle =>
      obtain rfl : out = [] := hwrote
      cases he
  | saveEventsStream t =>
      have hinv := StreamCall.inv_run (Serving.call_run hwrote)
      exact hinv.fromWire e (List.mem_append_left _ he)
  | saveEvent c b =>
      cases c with
      | received _ =>
          obtain rfl : out = [] := hwrote.2
          cases he
      | execute _ =>
          obtain rfl : out = [] := hwrote.2.2
          cases he
      | done status response =>
          simp only [Server.Wrote, SaveEventCall.Inv] at hwrote
          split at hwrote
          · obtain ⟨hvalid, rfl⟩ := hwrote
            obtain ⟨event, hevent, rfl⟩ := List.mem_map.mp he
            exact ⟨event, hvalid event hevent, rfl⟩
          · subst hwrote
            cases he

/-- A session whose handler is not in `Execute`, or does not return from it,
persists nothing by its step. -/
theorem writes_eq_nil {a : Act}
    (h : ∀ late o, a = .serve late o → s.server.executing = none) : s.writes a = [] := by
  cases a with
  | serve late o => exact Server.writes_of_not_executing (h late o rfl) late o
  | call _ | write _ | writesDone | finish | cancel => rfl

theorem executing_step {a : Act} {es : List Dto.Event} (hrun : (machine events).Run s out)
    (h : s.server.executing = some es) (ha : ∀ late o, a ≠ .serve late o)
    (hs : Step events s a s') : s'.server.executing = some es := by
  cases hs with
  | call stub hstart =>
      have hidle := (hstart ▸ (inv_run hrun).route).idle_of_start
      rw [hidle] at h
      cases h
  | write _ hn | writesDone _ hn | cancel _ hn =>
      exact Server.executing_next h (fun _ _ heq => by cases heq) hn
  | writeFailed | finish => exact h
  | serve late o => exact absurd rfl (ha late o)

end Session

/-! ## Clients over the event log -/

section Outlines

variable {ι : Type} [DecidableEq ι] {pg : Pg} {tu : TimeUtil} {i : ι}
  {log log' : List (ι × Dto.Event)}

/-- An operation adds to the share of its own caller only. -/
theorem share_of_apply {j : ι} {op : RepoOp} {result : RepoResult}
    (h : (eventLog ι pg).apply j log op result log') (hj : j ≠ i) : share i log' = share i log := by
  cases op with
  | saveEvents events =>
      cases result with
      | saved outcome =>
          rw [h.1]
          split
          · rw [share_append, share_tag_of_ne hj, List.append_nil]
          · rw [List.append_nil]
      | events _ | stats _ => exact h.elim
  | read op =>
      rw [(read_of_apply h).1]

/-- What a `SaveBatch` client, its handler and its call of the repository
have to do with the log: the log has what the session has persisted, and what
the repository has saved for a handler that has not yet seen it. -/
inductive Saving (events : List Dto.Event) (i : ι) :
    ClientCall → Phase RepoOp RepoResult → List (ι × Dto.Event) → Prop
  | idle {s : Session} {log : List (ι × Dto.Event)} :
      (Session.machine events).Run s (share i log) → Saving events i (.saveBatch s) .idle log
  | called {s : Session} {log : List (ι × Dto.Event)} {es : List Dto.Event} :
      (Session.machine events).Run s (share i log) → s.server.executing = some es →
      Saving events i (.saveBatch s) (.called (.saveEvents es)) log
  | applied {s : Session} {out es : List Dto.Event} {log : List (ι × Dto.Event)}
      {outcome : Outcome} :
      (Session.machine events).Run s out → s.server.executing = some es →
      share i log = out ++ (if outcome.success then es else []) →
      Saving events i (.saveBatch s) (.applied (.saveEvents es) (.saved outcome)) log

/-- A step of the session by itself. -/
theorem saving_own {events : List Dto.Event} {c c' : ClientCall} {p : Phase RepoOp RepoResult}
    {input : ClientInput} (h : Saving events i c p log) (hanswer : c.answer input = none)
    (hn : c.next tu (.saveBatch events) input = some c') : Saving events i c' p log := by
  have hstep : ∀ {s : Session} {out : List Dto.Event}, c = .saveBatch s →
      (Session.machine events).Run s out → ∃ s', c' = .saveBatch s'
        ∧ (Session.machine events).Run s' out
        ∧ ∀ es, s.server.executing = some es → s'.server.executing = some es := by
    rintro s out rfl hrun
    cases input with
    | read a => cases hn
    | saveBatch a =>
        obtain ⟨s', hs', rfl⟩ := Option.map_eq_some_iff.mp hn
        have hserve : ∀ late o, a = .serve late o → s.server.executing = none := by
          rintro late o rfl
          simpa [ClientCall.answer] using hanswer
        have hrun' := hrun.step ⟨a, hs', rfl⟩
        rw [Session.writes_eq_nil hserve, List.append_nil] at hrun'
        refine ⟨s', rfl, hrun', fun es hes => ?_⟩
        refine Session.executing_step hrun hes (fun late o ha => ?_) (Session.step_of_next hs')
        rw [hserve late o ha] at hes
        cases hes
  cases h with
  | idle hrun =>
      obtain ⟨s', rfl, hrun', -⟩ := hstep rfl hrun
      exact .idle hrun'
  | called hrun hes =>
      obtain ⟨s', rfl, hrun', hexecuting⟩ := hstep rfl hrun
      exact .called hrun' (hexecuting _ hes)
  | applied hrun hes hshare =>
      obtain ⟨s', rfl, hrun', hexecuting⟩ := hstep rfl hrun
      exact .applied hrun' (hexecuting _ hes) hshare

theorem outline_saving (tu : TimeUtil) (pg : Pg) (events : List Dto.Event) (i : ι) :
    Outline (ClientCall.program tu (.saveBatch events)) (eventLog ι pg) i (Saving events i) where
  own h hanswer hn := saving_own h hanswer hn
  call h hpending := by
    cases h with
    | idle hrun =>
        obtain ⟨es, hes, rfl⟩ := Option.map_eq_some_iff.mp hpending
        exact .called hrun hes
  apply {c log op result log'} h happly := by
    cases h with
    | called hrun hes =>
        cases result with
        | saved outcome =>
            refine .applied hrun hes ?_
            rw [happly.1, share_append]
            cases outcome.success with
            | true => simp
            | false => simp
        | events _ | stats _ => exact happly.elim
  ret {c log op input result c'} h hanswer hn := by
    cases h with
    | @applied s out es log outcome hrun hes hshare =>
        cases input with
        | read a => cases hn
        | saveBatch a =>
            obtain ⟨s', hs', rfl⟩ := Option.map_eq_some_iff.mp hn
            cases a with
            | serve late o =>
                simp only [ClientCall.program, ClientCall.answer, hes, Option.map_some,
                  Option.some.injEq, RepoResult.saved.injEq] at hanswer
                obtain rfl := hanswer
                have hrun' := hrun.step ⟨_, hs', rfl⟩
                rw [show s.writes (.serve late o) = _ from
                  (Server.serve_of_executing hes late o).2, ← hshare] at hrun'
                exact .idle hrun'
            | call _ | write _ | writesDone | finish | cancel => cases hanswer
  others {c p log j op result log'} h hj happly := by
    have hshare := share_of_apply happly hj
    cases h with
    | idle hrun => exact .idle (hshare.symm ▸ hrun)
    | called hrun hes => exact .called (hshare.symm ▸ hrun) hes
    | applied hrun hes hout => exact .applied hrun hes (hshare.trans hout)

/-- The log has a first part of the client's list. What the repository has
saved for a handler could have been seen by it already. -/
theorem Saving.persisted {events : List Dto.Event} {c : ClientCall} {p : Phase RepoOp RepoResult}
    (h : Saving events i c p log) :
    ∃ s, (Session.machine events).Run s (share i log) := by
  cases h with
  | idle hrun | called hrun _ => exact ⟨_, hrun⟩
  | @applied s out es log outcome hrun hes hshare =>
      obtain ⟨⟨v', hv'⟩, hwrites⟩ := Server.serve_of_executing hes false outcome
      have hn : s.next events (.serve false outcome) = some { s with server := v' } := by
        rw [Session.next, Session.serverStep, hv']
        rfl
      have hrun' := hrun.step ⟨_, hn, rfl⟩
      rw [show s.writes (.serve false outcome) = _ from hwrites, ← hshare] at hrun'
      exact ⟨_, hrun'⟩

/-- All of it, once the client was told true. -/
theorem Saving.saved {events : List Dto.Event} {s : Session} {p : Phase RepoOp RepoResult}
    (h : Saving events i (.saveBatch s) p log) (hreturned : s.client = .returned true) :
    share i log = events := by
  cases h with
  | idle hrun | called hrun _ => exact (Session.saved hrun hreturned).1
  | applied hrun hes hshare =>
      obtain ⟨-, hnone⟩ := Session.saved hrun hreturned
      rw [hnone] at hes
      cases hes

/-- Nothing, before the client has begun. -/
theorem Saving.nothing {events : List Dto.Event} {p : Phase RepoOp RepoResult}
    (h : Saving events i (.saveBatch {}) p log) : share i log = [] := by
  cases h with
  | idle hrun => exact (Session.inv_run hrun).wrote
  | called _ hexecuting | applied _ hexecuting => cases hexecuting

/-! ## Reading clients -/

/-- A result that the client may be shown is right for a log between the
two. -/
def Shown (pg : Pg) (u log : List (ι × Dto.Event)) (op : ReadOp) (result : RepoResult) : Prop :=
  result.success = true → ∃ w, u <+: w ∧ w <+: log ∧ Shows pg w op result

omit [DecidableEq ι] in
theorem Shown.mono {u : List (ι × Dto.Event)} {op : ReadOp} {result : RepoResult}
    (h : Shown pg u log op result) (hle : log <+: log') : Shown pg u log' op result := by
  intro hsuccess
  obtain ⟨w, hu, hw, hshows⟩ := h hsuccess
  exact ⟨w, hu, hw.trans hle, hshows⟩

/-- What a reading handler and its call of the repository have to do with the
log, since it was `u`. -/
inductive Handled (tu : TimeUtil) (pg : Pg) (query : ReadQuery) (u log : List (ι × Dto.Event)) :
    ReadHandler → Phase RepoOp RepoResult → Prop
  | idle : Handled tu pg query u log .idle .idle
  | received {request : ReadRequest} :
      query.request tu = .ok request → Handled tu pg query u log (.received request) .idle
  | execute {request : ReadRequest} :
      query.request tu = .ok request → Handled tu pg query u log (.execute request) .idle
  | called {request : ReadRequest} :
      query.request tu = .ok request →
      Handled tu pg query u log (.execute request) (.called (.read (request.op tu)))
  | applied {request : ReadRequest} {result : RepoResult} :
      query.request tu = .ok request → Shown pg u log (request.op tu) result →
      Handled tu pg query u log (.execute request) (.applied (.read (request.op tu)) result)
  | done {request : ReadRequest} {result : RepoResult} {status : Status}
      {response : ReadResponse} :
      query.request tu = .ok request → Shown pg u log (request.op tu) result →
      request.respond tu result = some (status, response) →
      Handled tu pg query u log (.done status response) .idle

omit [DecidableEq ι] in
theorem Handled.mono {query : ReadQuery} {u : List (ι × Dto.Event)} {handler : ReadHandler}
    {p : Phase RepoOp RepoResult} (h : Handled tu pg query u log handler p) (hle : log <+: log') :
    Handled tu pg query u log' handler p := by
  cases h with
  | idle => exact .idle
  | received hrequest => exact .received hrequest
  | execute hrequest => exact .execute hrequest
  | called hrequest => exact .called hrequest
  | applied hrequest hshown => exact .applied hrequest (hshown.mono hle)
  | done hrequest hshown hrespond => exact .done hrequest (hshown.mono hle) hrespond

/-- What the client was shown, as the result it stands for. -/
def Reply.result : Reply → Option RepoResult
  | .events (some es) => some (.events (.ok es))
  | .stats (some counts) => some (.stats (.ok counts))
  | _ => none

/-- The client has called its handler, and was shown nothing but its answer. -/
structure ReadSession.Fair (s : ReadSession) : Prop where
  start : s.client = .start → s.handler = .idle
  returned : ∀ reply result, s.client = .returned reply → reply.result = some result →
    ∃ status response, s.handler = .done status response ∧ reply = response.reply status

/-- While the handler is at work, the client was shown nothing. -/
theorem ReadSession.Fair.working {s : ReadSession} (h : s.Fair) (handler : ReadHandler)
    (hidle : s.handler ≠ .idle)
    (hdone : ∀ status response, s.handler ≠ .done status response) :
    ({ s with handler } : ReadSession).Fair where
  start hc := absurd (h.start hc) hidle
  returned reply result hc hresult := by
    obtain ⟨status, response, hhandler, -⟩ := h.returned reply result hc hresult
    exact absurd hhandler (hdone status response)

theorem ReadSession.fair_step {query : ReadQuery} {s s' : ReadSession} {a : ReadSession.Act}
    (h : s.Fair) (hs : Step tu query s a s') : s'.Fair := by
  cases hs with
  | call => exact ⟨fun hc => (by cases hc), fun _ _ hc => (by cases hc)⟩
  | cancel => exact ⟨h.start, h.returned⟩
  | threw =>
      refine ⟨fun hc => (by cases hc), fun reply result hc hresult => ?_⟩
      obtain rfl := ReadClient.returned.inj hc
      cases hresult
  | @finish status response _ houtcome =>
      refine ⟨fun hc => (by cases hc), fun reply result hc hresult => ?_⟩
      obtain rfl := ReadClient.returned.inj hc
      unfold outcome at houtcome
      split at houtcome
      · obtain ⟨rfl, rfl⟩ := Prod.mk.inj (Option.some.inj houtcome)
        cases query with
        | getEvents _ | getStats => cases hresult
      · split at houtcome
        · rename_i hhandler
          obtain ⟨rfl, rfl⟩ := Prod.mk.inj (Option.some.inj houtcome)
          exact ⟨_, _, hhandler, rfl⟩
        · cases houtcome
  | proceed hhandler => exact h.working _ (by simp [hhandler]) (by simp [hhandler])
  | execute hhandler => exact h.working _ (by simp [hhandler]) (by simp [hhandler])

/-- A reading client over the log: it adds nothing, and its handler answers
what is right. -/
structure Reading (tu : TimeUtil) (pg : Pg) (query : ReadQuery) (u : List (ι × Dto.Event)) (i : ι)
    (c : ClientCall) (p : Phase RepoOp RepoResult) (log : List (ι × Dto.Event)) : Prop where
  grown : u <+: log
  nothing : share i log = []
  session : ∃ s, c = .read s ∧ s.Fair ∧ Handled tu pg query u log s.handler p

theorem outline_reading (tu : TimeUtil) (pg : Pg) (query : ReadQuery)
    (u : List (ι × Dto.Event)) (i : ι) :
    Outline (ClientCall.program tu (.read query)) (eventLog ι pg) i
      (Reading tu pg query u i) where
  own {c p log input c'} h hanswer hn := by
    obtain ⟨hgrown, hnothing, s, rfl, hfair, hhandled⟩ := h
    cases input with
    | saveBatch a => cases hn
    | read a =>
        obtain ⟨s', hs', rfl⟩ := Option.map_eq_some_iff.mp hn
        have hstep := ReadSession.step_of_next hs'
        refine ⟨hgrown, hnothing, s', rfl, ReadSession.fair_step hfair hstep, ?_⟩
        cases hstep with
        | call hstart hrequest =>
            rw [hfair.start hstart] at hhandled
            cases hhandled with
            | idle => exact .received hrequest
        | threw | cancel | finish => exact hhandled
        | proceed hhandler =>
            rw [hhandler] at hhandled
            cases hhandled with
            | received hrequest => exact .execute hrequest
        | execute => cases hanswer
  call {c log op} h hpending := by
    obtain ⟨hgrown, hnothing, s, rfl, hfair, hhandled⟩ := h
    refine ⟨hgrown, hnothing, s, rfl, hfair, ?_⟩
    obtain ⟨readOp, hexecuting, rfl⟩ := Option.map_eq_some_iff.mp hpending
    unfold ReadSession.executing at hexecuting
    split at hexecuting
    · rename_i hhandler
      obtain rfl := Option.some.inj hexecuting
      rw [hhandler] at hhandled ⊢
      cases hhandled with
      | execute hrequest => exact .called hrequest
    · cases hexecuting
  apply {c log op result log'} h happly := by
    obtain ⟨hgrown, hnothing, s, rfl, hfair, hhandled⟩ := h
    generalize hhandler : s.handler = handler at hhandled
    cases hhandled with
    | called hrequest =>
        obtain ⟨rfl, hshows⟩ := read_of_apply happly
        refine ⟨hgrown, hnothing, s, rfl, hfair, hhandler ▸ .applied hrequest ?_⟩
        exact fun hsuccess => ⟨_, hgrown, List.prefix_refl _, hshows hsuccess⟩
  ret {c log op input result c'} h hanswer hn := by
    obtain ⟨hgrown, hnothing, s, rfl, hfair, hhandled⟩ := h
    cases input with
    | saveBatch a => cases hn
    | read a =>
        obtain ⟨s', hs', rfl⟩ := Option.map_eq_some_iff.mp hn
        have hstep := ReadSession.step_of_next hs'
        refine ⟨hgrown, hnothing, s', rfl, ReadSession.fair_step hfair hstep, ?_⟩
        cases hstep with
        | execute hhandler hrespond =>
            obtain rfl := Option.some.inj hanswer
            rw [hhandler] at hhandled
            cases hhandled with
            | applied hrequest hshown => exact .done hrequest hshown hrespond
        | call | threw | cancel | finish | proceed => cases hanswer
  others {c p log j op result log'} h hj happly := by
    have hle := eventLog_grows.apply happly
    obtain ⟨hgrown, hnothing, s, rfl, hfair, hhandled⟩ := h
    exact ⟨hgrown.trans hle, (share_of_apply happly hj).trans hnothing, s, rfl, hfair,
      hhandled.mono hle⟩

/-! ## All clients -/

omit [DecidableEq ι] in
/-- An event that came over the wire and was read back survives it again. -/
theorem codec_of_readBack (htext : KeepsText pg) {e event : Dto.Event} (hwire : FromWire e)
    (h : readBack pg e = some event) : toDtoEvent (toProtoEvent event) = event := by
  have hdecision : pg.textIn e.payload.filterDecision = some event.payload.filterDecision := by
    simp only [readBack, Option.bind_eq_bind, Option.bind_eq_some_iff] at h
    obtain ⟨_, -, _, -, _, -, _, -, decision, hdecision, _, -, hevent⟩ := h
    obtain rfl := Option.some.inj hevent
    exact hdecision
  obtain ⟨event', -, rfl⟩ := hwire
  have hsame := eq_of_keepsText htext (nulFree_fromProtoFilterDecision _) hdecision
  rw [toDtoEvent_toProtoEvent_iff, hsame]
  exact fromProtoFilterDecision_carried _

omit [DecidableEq ι] in
theorem codec_of_answers (htext : KeepsText pg) {events saved : List Dto.Event}
    {filter : Dto.EventFilter} (hwire : ∀ e ∈ saved, FromWire e)
    (h : Answers pg saved filter events) :
    (events.map fun e => toDtoEvent (toProtoEvent e)) = events := by
  obtain ⟨wanted, hperm, -, hread⟩ := h
  have hpage : ∀ e ∈ (wanted.drop (offsetIn filter)).take (limitIn filter), FromWire e := by
    intro e he
    have hwanted := hperm.mem_iff.mp (List.mem_of_mem_drop (List.mem_of_mem_take he))
    exact hwire e (List.mem_filter.mp hwanted).1
  have hboth := (List.forall₂_and_left _ _).mpr ⟨hpage, hread⟩
  have hsame : List.Forall₂ (fun a b => toDtoEvent (toProtoEvent a) = b) events events := by
    refine forall₂_along (fun e a b ha hb => ?_) hboth hboth
    obtain rfl := Option.some.inj (ha.2.symm.trans hb.2)
    exact codec_of_readBack htext ha.1 ha.2
  rwa [← List.forall₂_map_left_iff, List.forall₂_eq_eq_eq] at hsame

omit [DecidableEq ι] in
/-- What the client was shown is what the use case returned. -/
theorem Shown.reply (htext : KeepsText pg) {u : List (ι × Dto.Event)} {request : ReadRequest}
    {result result' : RepoResult} {status : Status} {response : ReadResponse}
    (hwire : ∀ e ∈ log, FromWire e.2) (h : Shown pg u log (request.op tu) result)
    (hrespond : request.respond tu result = some (status, response))
    (hresult : (response.reply status).result = some result') :
    ∃ w, u <+: w ∧ w <+: log ∧ Shows pg w (request.op tu) result' := by
  cases request with
  | getStats =>
      cases result with
      | saved _ | events _ => cases hrespond
      | stats result =>
          rw [reply_getStats hrespond] at hresult
          cases hstats : GrpcService.doGetStatsRequest (getStatsHandler result) with
          | none =>
              rw [hstats] at hresult
              cases hresult
          | some stats =>
              rw [hstats] at hresult
              obtain rfl := Option.some.inj hresult
              obtain ⟨hsuccess, hdata⟩ := GrpcService.doGetStatsRequest_handler.mp hstats
              obtain ⟨w, hu, hw, hshows⟩ := h hsuccess
              obtain rfl : result = .ok (countEvents (w.map (·.2))) := hshows
              obtain rfl := Option.some.inj hdata
              exact ⟨w, hu, hw, rfl⟩
  | getEvents request =>
      cases result with
      | saved _ | stats _ => cases hrespond
      | events result =>
          rw [reply_getEvents hrespond] at hresult
          cases hevents : GrpcService.doGetEventsRequest
              (fun _ => getEventsHandler tu (fun _ => result) request) {} with
          | none =>
              rw [hevents] at hresult
              cases hresult
          | some events =>
              rw [hevents] at hresult
              obtain rfl := Option.some.inj hresult
              obtain ⟨hsuccess, rfl⟩ := GrpcService.doGetEventsRequest_handler hevents
              obtain ⟨w, hu, hw, f, events, hf, rfl, hanswers⟩ := h hsuccess
              have hwire' : ∀ e ∈ w.map (·.2), FromWire e :=
                List.forall_mem_map.mpr fun e he => hwire e (hw.subset he)
              have hcodec := codec_of_answers htext hwire' hanswers
              exact ⟨w, hu, hw, f, events, hf, congrArg Result.ok hcodec, hanswers⟩

end Outlines

/-! ## All clients -/

/-- What a client asks of the repository. -/
def ReadQuery.op (tu : TimeUtil) (query : ReadQuery) : Except String ReadOp :=
  (query.request tu).map (·.op tu)

section System

variable {ι : Type} [DecidableEq ι] {pg : Pg} {tu : TimeUtil} {ops : ι → ClientOp}
  {calls calls' : ι → ClientCall} {r r' : Repository ι}
  {out o : List (ι × Label RepoOp RepoResult)}

/-- Every event of the log is one that its client sent, and came over the
wire. -/
theorem log_of_callers {a : Spec.State ι (List (ι × Dto.Event)) RepoOp RepoResult}
    (h : (callers (fun i => ClientCall.program tu (ops i)) (eventLog ι pg).atomic).Run (calls, a)
      out) :
    (∀ i events, ops i = .saveBatch events →
        Saving events i (calls i) (a.phase i) a.value)
      ∧ (∀ i query, ops i = .read query → Reading tu pg query [] i (calls i) (a.phase i) a.value)
      ∧ ∀ e ∈ a.value, FromWire e.2 := by
  have hsaving : ∀ i events, ops i = .saveBatch events →
      Saving events i (calls i) (a.phase i) a.value := by
    intro i events hop
    refine Outline.run (hop ▸ outline_saving tu pg events i) ?_ h
    rintro y rfl
    have hstart : (Session.machine events).Run {} (share i ([] : List (ι × Dto.Event))) :=
      .start rfl
    rw [hop]
    exact .idle hstart
  have hreading : ∀ i query, ops i = .read query →
      Reading tu pg query [] i (calls i) (a.phase i) a.value := by
    intro i query hop
    refine Outline.run (hop ▸ outline_reading tu pg query [] i) ?_ h
    rintro y rfl
    refine ⟨List.nil_prefix, rfl, {}, by rw [hop]; rfl, ⟨fun _ => rfl, fun _ _ hc => ?_⟩, .idle⟩
    cases hc
  refine ⟨hsaving, hreading, ?_⟩
  rintro ⟨i, e⟩ he
  have hshare : e ∈ share i a.value := mem_share.mpr he
  cases hop : ops i with
  | saveBatch events =>
      obtain ⟨s, hrun⟩ := (hsaving i events hop).persisted
      exact Session.fromWire hrun e hshare
  | read query =>
      rw [(hreading i query hop).nothing] at hshare
      cases hshare

/-! ### Over whatever the event log simulates -/

section Over

variable {τ : Type} {M : Machine τ (ι × Label RepoOp RepoResult)}
  {R : τ → Spec.State ι (List (ι × Dto.Event)) RepoOp RepoResult → Prop}
  {log : τ → List (ι × Dto.Event)} {t t' : τ} {i : ι}

theorem log_over (hR : M.SimulatedBack (eventLog ι pg).atomic R)
    (hlog : ∀ t a, R t a → a.value = log t)
    (h : (callers (fun i => ClientCall.program tu (ops i)) M).Run (calls, t) out) :
    ∃ phase : ι → Phase RepoOp RepoResult,
      (∀ i events, ops i = .saveBatch events → Saving events i (calls i) (phase i) (log t))
      ∧ (∀ i query, ops i = .read query →
        Reading tu pg query [] i (calls i) (phase i) (log t))
      ∧ ∀ e ∈ log t, FromWire e.2 := by
  obtain ⟨a, ha⟩ := hR.total t
  obtain ⟨a, ha, hrun, -⟩ := callers_simulatedBack hR _ h .refl ha
  rw [← hlog t a ha]
  exact ⟨a.phase, log_of_callers hrun⟩

/-- What the log has of a `SaveBatch`. -/
theorem saved_over (hR : M.SimulatedBack (eventLog ι pg).atomic R)
    (hlog : ∀ t a, R t a → a.value = log t)
    (h : (callers (fun i => ClientCall.program tu (ops i)) M).Run (calls, t) out)
    {events : List Dto.Event} (hop : ops i = .saveBatch events) :
    share i (log t) <+: events
      ∧ ∀ s, calls i = .saveBatch s → s.client = .returned true → share i (log t) = events := by
  obtain ⟨phase, hsaving, -⟩ := log_over hR hlog h
  have hi := hsaving i events hop
  refine ⟨?_, fun s hcall hreturned => ?_⟩
  · obtain ⟨s, hpersisted⟩ := hi.persisted
    exact Session.persisted hpersisted
  · rw [hcall] at hi
    exact hi.saved hreturned

/-- What a client is shown that begins to read after some steps. -/
theorem shown_over (hR : M.SimulatedBack (eventLog ι pg).atomic R)
    (hlog : ∀ t a, R t a → a.value = log t) (htext : KeepsText pg)
    (h : (callers (fun i => ClientCall.program tu (ops i)) M).Run (calls, t) out)
    (hs : (callers (fun i => ClientCall.program tu (ops i)) M).Steps (calls, t) o (calls', t'))
    {query : ReadQuery} {s : ReadSession} {reply : Reply} {result : RepoResult}
    (hop : ops i = .read query) (hstart : calls i = .read {}) (hend : calls' i = .read s)
    (hreply : s.client = .returned reply) (hresult : reply.result = some result) :
    ∃ op w, query.op tu = .ok op ∧ log t <+: w ∧ w <+: log t' ∧ Shows pg w op result := by
  obtain ⟨a', ha'⟩ := hR.total t'
  obtain ⟨a, ha, hrun, hsteps⟩ := callers_simulatedBack hR _ h hs ha'
  obtain ⟨-, hreading, -⟩ := log_of_callers hrun
  obtain ⟨-, -, hwire⟩ := log_of_callers (hrun.steps hsteps)
  -- the client has not begun, so it may as well begin from this log
  have hfrom : Reading tu pg query (log t) i (calls i) (a.phase i) a.value := by
    have ha := hlog t a ha
    obtain ⟨-, hnothing, s₀, hs₀, hfair, hhandled⟩ := hreading i query hop
    obtain rfl := ClientCall.read.inj (hstart.symm.trans hs₀)
    refine ⟨ha ▸ List.prefix_refl _, hnothing, {}, hstart, hfair, ?_⟩
    generalize a.phase i = p at hhandled ⊢
    cases hhandled with
    | idle => exact .idle
  obtain ⟨-, -, s', hs', hfair, hhandled⟩ :=
    Outline.steps (hop ▸ outline_reading tu pg query (log t) i) hfrom hsteps
  obtain rfl := ClientCall.read.inj (hend.symm.trans hs')
  obtain ⟨status, response, hdone, rfl⟩ := hfair.returned reply result hreply hresult
  rw [hdone] at hhandled
  generalize a'.phase i = p at hhandled
  cases hhandled with
  | @done request result₀ _ _ hrequest hshown hrespond =>
      obtain ⟨w, hu, hw, hshows⟩ := hshown.reply htext hwire hrespond hresult
      refine ⟨request.op tu, w, ?_, hu, hlog t' a' ha' ▸ hw, hshows⟩
      rw [ReadQuery.op, hrequest]
      rfl

end Over

/-- **What is saved is seen by all.** Take any reachable state of the two
services, and any state that is reached from it. The tables hold the log, and
the log holds a first part of the list of each `SaveBatch`, all of it where the
client was told true. A client that begins to read in the first state, and
was shown something in the second, was shown what is right for the log of the
first state or for an extension of it. -/
theorem saves_are_seen (htext : KeepsText pg) (h : (system tu pg ops).Run (calls, r) out)
    (hs : (system tu pg ops).Steps (calls, r) o (calls', r')) :
    r.db.tables.Holds pg (r.log.map (·.2))
      ∧ (∀ i events, ops i = .saveBatch events → share i r.log <+: events
        ∧ ∀ s, calls i = .saveBatch s → s.client = .returned true → share i r.log = events)
      ∧ ∀ i query s reply result, ops i = .read query → calls i = .read {} →
        calls' i = .read s → s.client = .returned reply → reply.result = some result →
        ∃ op log, query.op tu = .ok op ∧ r.log <+: log ∧ log <+: r'.log
          ∧ Shows pg log op result := by
  have hback := Repository.simulatedBack (ι := ι) htext
  have hlog (r : Repository ι) (a : Spec.State ι (List (ι × Dto.Event)) RepoOp RepoResult)
      (ha : Repository.Simulates r a) : a.value = r.log := ha.1
  exact ⟨(Repository.inv_run (Machine.sync_snd h)).holds.1,
    fun i events hop => saved_over hback hlog h hop,
    fun i query s reply result hop hstart hend hreply hresult =>
      shown_over hback hlog htext h hs hop hstart hend hreply hresult⟩

/-! ### A client that saves and one that reads -/

def sampleOps : Bool → ClientOp
  | false => .saveBatch [sampleEvent]
  | true => .read (.getEvents {})

def sampleTu : TimeUtil := ⟨fun _ => none, fun _ => ""⟩

def samplePrograms : Machine (Bool → ClientCall) (Bool × Label RepoOp RepoResult) :=
  programs fun i => ClientCall.program sampleTu (sampleOps i)

/-- The first client is told true, before the other one begins to read. -/
theorem sampleSaves : ∃ calls, samplePrograms.Run calls Repository.sampleHistory
    ∧ (∃ s, calls false = .saveBatch s ∧ s.client = .returned true) ∧ calls true = .read {} := by
  have h₀ : samplePrograms.Run (fun i => ClientCall.start (sampleOps i)) [] := .start fun i => rfl
  have h₁ := h₀.step (.own (i := false) (k := .saveBatch (.call true)) rfl rfl)
  have h₂ := h₁.step (.own (i := false) (k := .saveBatch (.serve false (.returned .ok))) rfl rfl)
  have h₃ := h₂.step (.call (i := false) (show _ = some (.saveEvents [sampleEvent]) from rfl))
  have h₄ := h₃.step (.ret (i := false) (k := .saveBatch (.serve false (.returned .ok))) rfl rfl)
  have h₅ := h₄.step (.own (i := false) (k := .saveBatch .finish) rfl rfl)
  exact ⟨_, h₅, ⟨_, rfl, rfl⟩, rfl⟩

/-- A client that reads what the first one has saved. -/
theorem programs_sampleRead {ι : Type} [DecidableEq ι]
    {P : ι → Program ClientCall ClientInput RepoOp RepoResult} {i : ι} {calls : ι → ClientCall}
    (hP : P i = ClientCall.program sampleTu (.read (.getEvents {})))
    (hstart : calls i = .read {}) :
    ∃ s : ReadSession, s.client = .returned (.events (some [Repository.sampleBack]))
      ∧ (programs P).Steps calls
        [(i, .call (.read (.getEvents (some {})))),
          (i, .ret (.events (.ok [Repository.sampleBack])))]
        (Function.update calls i (.read s)) := by
  have hrequest : ReadQuery.request sampleTu (.getEvents {}) =
      .ok (.getEvents { eventFilter := some {} }) := rfl
  have hrespond : (ReadRequest.getEvents { eventFilter := some {} }).respond sampleTu
      (.events (.ok [Repository.sampleBack])) = some (.ok, .getEvents
        { success := true, message := "GetEvents successful."
          events := [toProtoEvent Repository.sampleBack] }) := rfl
  exact ⟨_, rfl, programs_read hP hrequest hrespond hstart⟩

/-- The second client is shown the event of the first. -/
theorem saves_are_seen_sample : ∃ (r r' : Repository Bool) (log : List (Bool × Dto.Event)),
    share false r.log = [sampleEvent] ∧ r.log <+: log ∧ log <+: r'.log
      ∧ Shows samplePg log (.getEvents (some {})) (.events (.ok [Repository.sampleBack])) := by
  obtain ⟨calls, hcalls, ⟨s, hs, htrue⟩, hstart⟩ := sampleSaves
  obtain ⟨s', hreply, hsteps⟩ := programs_sampleRead
    (P := fun i => ClientCall.program sampleTu (sampleOps i)) (i := true) rfl hstart
  obtain ⟨r, r', hr, hr'⟩ := Repository.sampleRun
  have hbrief : samplePrograms.Brief := brief_programs _
  have hrepo := Repository.brief_machine (ι := Bool) samplePg
  obtain ⟨-, hsaved, hseen⟩ := saves_are_seen (fun _ _ => rfl)
    (Machine.sync_of_run hbrief hrepo hcalls hr) (Machine.sync_steps hbrief hrepo hsteps hr')
  obtain ⟨op, log, hop, hlog, hlog', hshows⟩ :=
    hseen true (.getEvents {}) s' _ _ rfl hstart (Function.update_self ..) hreply rfl
  obtain rfl : .getEvents (some {}) = op := Except.ok.inj hop
  exact ⟨r, r', log, (hsaved false _ rfl).2 s hs htrue, hlog, hlog', hshows⟩

end System

end EventHistory
