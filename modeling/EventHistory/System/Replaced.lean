import EventHistory.System.Pooled

/-!
# What becomes of a lost connection

`ReturnConnection` replaces a connection that it does not find open. The
replacement has a new session, nobody prepares the statements in it, and it
stays in the queue as long as it is open. A call that is handed one of these
fails, whatever it is: `replaced_connection_fails`.
-/

namespace EventHistory

open Transition

namespace Pooled

variable {ι : Type} [DecidableEq ι]

/-! ## Sessions -/

/-- The sessions that `CreatePreparedPool` prepared have the statements; those
that came later have none. -/
structure Sessions (n : Nat) (p : Pool) : Prop where
  made : ∀ c < n, ∀ name ∈ statements, name ∈ p.heap.prepared c
  fresh : ∀ c, n ≤ c → p.heap.prepared c = []
  next : n ≤ p.heap.next

/-- The call has executed nothing and gets its connection next, or has done
nothing with it yet, or has failed. -/
inductive Unserved : RepoCall → Prop
  | wants {c : RepoCall} : c.wants = true → Unserved c
  | begun {c : SaveCall} {event : Dto.Event} {rest : List Dto.Event} :
      c.pc = .loop (event :: rest) → Unserved (.saving c)
  | failed {c : RepoCall} {result : RepoResult} :
      c.result = some result → result.success = false → Unserved c

section Replaced

variable {pg : Pg} {n : Nat} {s s' : Pooled ι} {i j : ι} {c : ConnId} {u : ConnUse}
  {out o : List (ι × Label RepoOp RepoResult)}

theorem sessions_step {p p' : Pool} {a : Pool.Act} (hp : Sessions n p) (hs : Pool.Step p a p') :
    Sessions n p' := by
  have hsame (heap : Heap) (hprepared : heap.prepared = p.heap.prepared)
      (hnext : heap.next = p.heap.next) (q : Pool) (hq : q.heap = heap) : Sessions n q := by
    subst hq
    exact ⟨fun c hc => hprepared ▸ hp.made c hc, fun c hc => hprepared ▸ hp.fresh c hc,
      hnext ▸ hp.next⟩
  have hdrop (conn : Option ConnId) : (p.heap.drop conn).prepared = p.heap.prepared
      ∧ (p.heap.drop conn).next = p.heap.next := by
    cases conn with
    | none | some c => exact ⟨rfl, rfl⟩
  cases hs with
  | destroy | assign => exact hsame _ (hdrop _).1 (hdrop _).2 _ rfl
  | finishAssign => exact hsame _ rfl rfl _ rfl
  | connectionBreaks c => exact hsame (p.heap.close c) rfl rfl _ rfl
  | @testOpen h conn caller connects hx =>
      by_cases hopen : conn.any p.heap.isOpen = true
      · refine hsame p.heap rfl rfl _ ?_
        simp [Pool.testOpen, hopen]
      · cases connects with
        | false =>
            refine hsame p.heap rfl rfl _ ?_
            simp [Pool.testOpen, hopen]
        | true =>
            have hheap : (Pool.testOpen p.heap conn true).1 = p.heap.connect.drop conn := by
              simp [Pool.testOpen, hopen]
            have hprepared : (p.heap.connect.drop conn).prepared =
                Function.update p.heap.prepared p.heap.next [] := by
              cases conn with
              | none | some c => rfl
            have hnext : (p.heap.connect.drop conn).next = p.heap.next + 1 := by
              cases conn with
              | none | some c => rfl
            refine ⟨fun c hc name hname => ?_, fun c hc => ?_, ?_⟩
            · rw [hheap, hprepared, Function.update_of_ne (Nat.ne_of_lt (hc.trans_le hp.next))]
              exact hp.made c hc name hname
            · rw [hheap, hprepared]
              by_cases hcn : c = p.heap.next
              · rw [hcn, Function.update_self]
              · rw [Function.update_of_ne hcn]
                exact hp.fresh c hc
            · rw [hheap, hnext]
              exact Nat.le_succ_of_le hp.next
  | _ => exact hsame _ rfl rfl _ rfl

/-- `PrepareStatements` on one connection. -/
theorem prepareStatements_prepared (heap : Heap) (d : ConnId) :
    (Pool.prepareStatements d heap).1.prepared =
      Function.update heap.prepared d (heap.prepared d ++ statements) := by
  simp [Pool.prepareStatements, statements, Heap.prepare]

/-- And on one after the other. -/
theorem onAll_prepared (conns : List ConnId) (heap : Heap) (c : ConnId) :
    (∀ name ∈ statements, c ∈ conns ∨ name ∈ heap.prepared c →
        name ∈ (Pool.prepareStatements.onAll heap conns).prepared c)
      ∧ (c ∉ conns → (Pool.prepareStatements.onAll heap conns).prepared c = heap.prepared c) := by
  induction conns generalizing heap with
  | nil => exact ⟨fun name _ h => h.resolve_left (by simp), fun _ => rfl⟩
  | cons d conns ih =>
      obtain ⟨hmem, hnot⟩ := ih (Pool.prepareStatements d heap).1
      rw [prepareStatements_prepared] at hmem hnot
      by_cases hcd : c = d
      · subst hcd
        rw [Function.update_self] at hmem
        exact ⟨fun name hname _ => hmem name hname (.inr (by simp [hname])),
          fun hc => absurd (List.mem_cons_self ..) hc⟩
      · rw [Function.update_of_ne hcd] at hmem hnot
        exact ⟨fun name hname h => hmem name hname
            (h.imp_left fun hc => (List.mem_cons.mp hc).resolve_left hcd),
          fun hc => hnot fun hmem => hc (List.mem_cons_of_mem _ hmem)⟩

omit [DecidableEq ι] in
theorem sessions_init (h : init n s) : Sessions n s.pool := by
  obtain rfl := eq_of_init h
  have hprepared := onAll_prepared (List.range n) (Pool.construct n).heap
  exact
    { made := fun c hc name hname => (hprepared c).1 name hname (.inl (List.mem_range.mpr hc))
      fresh := fun c hc => (hprepared c).2 (by simpa using hc)
      next := (onAll_heap (List.range n) (Pool.construct n).heap).2.ge }

theorem sessions_run (h : (machine ι pg n).Run s out) : Sessions n s.pool := by
  refine h.invariant (I := fun s _ => Sessions n s.pool) (fun _ => sessions_init) ?_
  rintro s out o s' hs ⟨a, -, hn, -⟩
  cases step_of_next hn with
  | repo | leave => exact hs
  | pool hmine hp => exact sessions_step hs (Pool.step_of_next hp)
  | connectionBreaks c => exact sessions_step hs (.connectionBreaks c)

/-! ## Calls that are handed a replacement -/

/-- Where such a call of `SaveEvents` is. -/
theorem Unserved.saving {c : SaveCall} (h : Unserved (.saving c)) :
    (c.pc = .entered ∧ c.events ≠ []) ∨ (∃ event rest, c.pc = .loop (event :: rest))
      ∨ ∃ outcome, c.pc.outcome = some outcome := by
  cases h with
  | wants hwants =>
      refine .inl ?_
      cases hpc : c.pc with
      | entered => simpa [RepoCall.wants, hpc] using hwants
      | idle | loop | payload | returned | threw => simp [RepoCall.wants, hpc] at hwants
  | begun hpc => exact .inr (.inl ⟨_, _, hpc⟩)
  | failed hres =>
      obtain ⟨outcome, houtcome, -⟩ := Option.map_eq_some_iff.mp hres
      exact .inr (.inr ⟨outcome, houtcome⟩)

/-- An exception ends the call with a failure. -/
theorem Unserved.fail (c : SaveCall) (what : String) : Unserved (.saving (c.fail what)) :=
  have hresult : (RepoCall.saving (c.fail what)).result =
      some (.saved (.returned (.notOk ("[Postgres] " ++ what)))) := rfl
  .failed hresult rfl

omit [DecidableEq ι] in
/-- Without its statements, a connection is of no use. -/
theorem Unserved.moves {c c' : RepoCall} {input : RepoInput} (hc : Unserved c)
    (hm : Moves pg s i c input c') (hnone : ∀ name ∈ statements, s.canExecute i name = false) :
    Unserved c' := by
  cases hm with
  | call op => cases hc with
    | wants hwants => cases hwants
    | failed hres => cases hres
  | save hallows hs =>
      have hevent : s.canExecute i "insert_event" = false := hnone _ (by simp [statements])
      cases hs with
      | acquire hpc hne =>
          obtain ⟨event, rest, hevents⟩ := List.exists_cons_of_ne_nil hne
          exact .begun (congrArg SavePc.loop hevents)
      | failed what hpc => exact .fail _ what
      | nothing hpc hnil => simpa [hpc, hnil, SavePc.outcome] using hc.saving
      | insertPayload hpc | payloadRefused what hpc | commit hpc =>
          simpa [hpc, SavePc.outcome] using hc.saving
      | acquireThrows what hpc => simp [allowsSave, hpc] at hallows
      | insertEvent hpc | eventRefused id what hpc => simp [allowsSave, hevent] at hallows
      | call events hpc | leave hpc => simp [allowsSave] at hallows
  | @read c c' input hallows hn =>
      cases input with
      | exec arrange =>
          have hstatement : c.op.statement ∈ statements := by
            cases c.op with
            | getEvents | getStats => simp [ReadOp.statement, statements]
          simp [allowsRead, hnone _ hstatement] at hallows
      | commit =>
          exfalso
          cases hpc : c.pc <;> simp [ReadCall.next, hpc] at hn
          cases hc with
          | wants hwants => simp [RepoCall.wants, hpc] at hwants
          | failed hres => simp [RepoCall.result, hpc] at hres
      | fail what =>
          cases hpc : c.pc <;> simp [ReadCall.next, hpc] at hn
          all_goals
            subst hn
            exact .failed rfl (c.op.notOk_success what)

/-- A step of the pool leaves the connections of other threads alone. -/
theorem conn?_of_ne {p : Pool} {act : Pool.Act} (hs : s.Inv n) (hm : Mine s i act p u)
    (hj : j ≠ i) :
    conn? { s with pool := p, uses := Function.update s.uses i u } j = s.conn? j := by
  unfold conn?
  simp only [Function.update_of_ne hj]
  cases hu : s.uses j with
  | nothing | waiting k => rfl
  | holding h =>
      have hlt := (hu ▸ hs.uses j).handle_lt
      have hsame : p.handles[h]? = s.pool.handles[h]? := by
        cases hm with
        | acquire => rfl
        | take => exact getElem?_snoc_of_ne (Nat.ne_of_lt hlt)
        | stay _ _ hhandles => rw [hhandles]
        | @release h' _ _ _ _ hh' _ _ _ _ _ hhandles =>
            have hne : h' ≠ h := by
              rintro rfl
              exact hj (hs.apart j i (hu.trans hh'.symm) (by simp [hu]))
            rw [hhandles, List.getElem?_set_ne hne]
      simp only [hsame]

omit [DecidableEq ι] in
/-- A thread that has a handle goes on with it when it has its result. -/
theorem Mine.result_of_holding {p : Pool} {act : Pool.Act} {h : Nat} (hm : Mine s i act p u)
    (hh : s.uses i = .holding h) : (s.repo.calls i).result.isSome = true := by
  cases hm with
  | acquire huse | take huse | stay huse => simp [hh] at huse
  | release _ hres => exact hres

/-- A thread gets a connection from its `Acquire` only. -/
theorem wants_of_conn? {p : Pool} {act : Pool.Act} (hs : s.Inv n) (hm : Mine s i act p u)
    (hc : conn? { s with pool := p, uses := Function.update s.uses i u } i = some c) :
    (s.repo.calls i).wants = true := by
  obtain ⟨h, x, hh, hx, -⟩ := conn?_eq_some.mp hc
  simp only [Function.update_self] at hh
  have hself := hs.uses i
  cases hm with
  | acquire hnothing hwants => exact hwants
  | take hk | stay hk =>
      rw [hk] at hself
      cases hself with
      | waiting hwants => exact hwants
  | release hh' hres hx' hne hy hsame hhandles =>
      obtain rfl := ConnUse.holding.inj hh
      have hlt := (List.getElem?_eq_some_iff.mp hx').1
      simp only [hhandles, List.getElem?_set_self hlt, Option.some.injEq] at hx
      rcases hy with rfl | ⟨pc, rfl⟩ <;> cases hx

omit [DecidableEq ι] in
/-- A replacement can execute none of the statements. -/
theorem Sessions.canExecute_eq_false (hs : Sessions n s.pool) (hc : s.conn? i = some c)
    (hreplaced : n ≤ c) (name : String) : s.canExecute i name = false := by
  simp [canExecute, hc, hs.fresh c hreplaced]

/-- Calls that are handed a replacement get nowhere with it. -/
theorem unserved_run (h : (machine ι pg n).Run s out) (hc : s.conn? i = some c)
    (hreplaced : n ≤ c) : Unserved (s.repo.calls i) := by
  induction h generalizing i with
  | start hinit =>
      obtain ⟨connects, made, -, rfl⟩ := hinit
      cases hc
  | @step s s' out o hrun hstep ih =>
      obtain ⟨a, -, hn, -⟩ := hstep
      have hs := inv_run hrun
      cases step_of_next hn with
      | @repo j input repo hallows hrepo hleave =>
          obtain ⟨c', hcalls, hm⟩ := moves_of_next hallows hrepo hleave
          have hc' : s.conn? i = some c := hc
          by_cases hi : i = j
          · subst hi
            simpa only [hcalls, Function.update_self] using (ih hc').moves hm
              fun name _ => (sessions_run hrun).canExecute_eq_false hc' hreplaced name
          · simpa only [hcalls, Function.update_of_ne hi] using ih hc'
      | @leave j result hreleased hresult =>
          by_cases hi : i = j
          · subst hi
            simp [conn?] at hc
          · have hc' : s.conn? i = some c := by
              simpa only [conn?, Function.update_of_ne hi] using hc
            simpa only [Repository.setCall, Function.update_of_ne hi] using ih hc'
      | @pool j act p hmine hp =>
          have hm := mine_of_next (hs.uses _) hmine hp
          by_cases hi : i = j
          · subst hi
            exact .wants (wants_of_conn? (s := s) hs hm hc)
          · exact ih ((conn?_of_ne hs hm hi).symm.trans hc)
      | connectionBreaks d => exact ih hc

/-! ## Until the call returns -/

/-- The call fails, with the connection it was handed or without. -/
def Failing (c : ConnId) (s : Pooled ι) (i : ι) : Prop :=
  Unserved (s.repo.calls i) ∧ (s.conn? i = some c ∨ (s.repo.calls i).result.isSome = true)

omit [DecidableEq ι] in
/-- What it comes back with is a failure. -/
theorem Unserved.result {c : RepoCall} {result : RepoResult} (hc : Unserved c)
    (hresult : c.result = some result) : result.success = false := by
  cases hc with
  | wants hwants =>
      cases c with
      | idle => cases hresult
      | saving c | reading c =>
          cases hpc : c.pc <;>
            simp [RepoCall.wants, RepoCall.result, SavePc.outcome, hpc] at hwants hresult
  | begun hpc => simp [RepoCall.result, SavePc.outcome, hpc] at hresult
  | failed hres hfail => exact Option.some.inj (hres.symm.trans hresult) ▸ hfail

/-- And it has saved nothing. -/
theorem Unserved.saves_nothing {c c' : SaveCall} (hc : Unserved (.saving c')) :
    savedEvents (c.finished c') = [] := by
  unfold SaveCall.finished
  split
  · rfl
  · rename_i result hpc _
    have hresult : (RepoCall.saving c').result = some (.saved (.returned result)) := by
      simp [RepoCall.result, hpc, SavePc.outcome]
    have hfail : result.success = false := hc.result hresult
    rw [savedEvents_singleton, hfail]
    rfl
  · rfl

omit [DecidableEq ι] in
theorem Unserved.not_called {c c' : RepoCall} {op : RepoOp} (hc : Unserved c) :
    ¬Moves pg s i c (.call op) c' := by
  intro hm
  cases hm with
  | call => cases hc with
    | wants hwants => cases hwants
    | failed hres => cases hres

theorem share_labels {input : RepoInput} {r : Repository ι} (hi : i ≠ j) :
    share i (r.labels (j, input)) = [] := by
  refine List.eq_nil_iff_forall_not_mem.mpr fun b hb => hi ?_
  have hmem := mem_share.mp hb
  cases input with
  | call op => exact congrArg Prod.fst (List.mem_singleton.mp hmem)
  | save | read => cases hmem
  | leave =>
      obtain ⟨result, -, heq⟩ := List.mem_map.mp hmem
      exact (congrArg Prod.fst heq).symm

/-- A call of the repository adds to the log when it returns success. -/
theorem share_log {input : RepoInput} {repo : Repository ι}
    (hn : s.repo.next pg (j, input) = some repo) (hleave : input ≠ .leave)
    (hi : i = j → Unserved (repo.calls j)) : share i repo.log = share i s.repo.log := by
  cases input with
  | call op =>
      cases hc : s.repo.calls j <;> simp [Repository.next, hc] at hn
      exact hn ▸ rfl
  | read input =>
      cases hc : s.repo.calls j <;> simp only [Repository.next, hc, reduceCtorEq] at hn
      obtain ⟨c', -, rfl⟩ := Option.map_eq_some_iff.mp hn
      rfl
  | leave => exact absurd rfl hleave
  | save input =>
      cases hc : s.repo.calls j <;> simp only [Repository.next, hc, reduceCtorEq] at hn
      rename_i c
      split at hn
      · obtain ⟨⟨db, c'⟩, -, rfl⟩ := Option.map_eq_some_iff.mp hn
        by_cases hij : i = j
        · subst hij
          have hunserved := hi rfl
          simp only [Function.update_self] at hunserved
          rw [share_append, share_tag_self, hunserved.saves_nothing, List.append_nil]
        · rw [share_append, share_tag_of_ne fun hji => hij hji.symm, List.append_nil]
      · cases hn

/-- One step of anybody. -/
theorem failing_step (h : (machine ι pg n).Run s out) (hf : Failing c s i) (hreplaced : n ≤ c)
    (hstep : (machine ι pg n).step s o s') :
    (share i o = [] ∧ share i s'.repo.log = share i s.repo.log ∧ Failing c s' i)
      ∨ ∃ result, share i o = [.ret result] ∧ result.success = false := by
  have hs := inv_run h
  obtain ⟨hunserved, hconn⟩ := hf
  obtain ⟨a, -, hn, rfl⟩ := hstep
  cases step_of_next hn with
  | @repo j input repo hallows hrepo hleave =>
      obtain ⟨c', hcalls, hm⟩ := moves_of_next hallows hrepo hleave
      by_cases hi : i = j
      · subst hi
        have hc := hconn.resolve_right (by simp [hm.result_eq_none])
        have hself : repo.calls i = c' := by rw [hcalls, Function.update_self]
        have hunserved' : Unserved (repo.calls i) := hself ▸ hunserved.moves hm
          fun name _ => (sessions_run h).canExecute_eq_false hc hreplaced name
        have hquiet : share i (labels s (.repo i input)) = [] := by
          cases input with
          | call op => exact absurd hm hunserved.not_called
          | save | read => rfl
          | leave => exact absurd rfl hleave
        exact .inl ⟨hquiet, share_log hrepo hleave fun _ => hunserved', hunserved', .inl hc⟩
      · have hself : repo.calls i = s.repo.calls i := by
          rw [hcalls, Function.update_of_ne hi]
        exact .inl ⟨share_labels hi, share_log hrepo hleave fun hij => absurd hij hi,
          hself.symm ▸ hunserved, hconn.imp id fun hres => hself.symm ▸ hres⟩
  | @leave j result hreleased hresult =>
      by_cases hi : i = j
      · subst hi
        refine .inr ⟨result, ?_, hunserved.result hresult⟩
        simp [labels, Repository.labels, hresult]
      · have hquiet : share i (s.repo.labels (j, .leave)) = [] := share_labels hi
        refine .inl ⟨hquiet, rfl, ?_, ?_⟩
        · simpa only [Repository.setCall, Function.update_of_ne hi] using hunserved
        · simpa only [conn?, Repository.setCall, Function.update_of_ne hi] using hconn
  | @pool j act p hmine hp =>
      refine .inl ⟨rfl, rfl, hunserved, ?_⟩
      have hm := mine_of_next (hs.uses _) hmine hp
      by_cases hi : i = j
      · subst hi
        rcases hconn with hc | hres
        · obtain ⟨h, x, hh, -⟩ := conn?_eq_some.mp hc
          exact .inr (hm.result_of_holding hh)
        · exact .inr hres
      · exact hconn.imp_left (conn?_of_ne hs hm hi).trans
  | connectionBreaks d => exact .inl ⟨rfl, rfl, hunserved, hconn⟩

/-- **A call that is handed a replaced connection fails.** The connections that
have the statements are the `n` that `CreatePreparedPool` prepared. From the
moment a thread has another one, it saves nothing, and the next thing it sees
of its call is a failure. -/
theorem replaced_connection_fails (h : (machine ι pg n).Run s out) :
    (∀ c, ∀ name ∈ statements, name ∈ s.pool.heap.prepared c ↔ c < n)
      ∧ ∀ i c o s', s.conn? i = some c → n ≤ c → (machine ι pg n).Steps s o s' →
        (share i o = [] ∧ share i s'.repo.log = share i s.repo.log)
          ∨ ∃ result rest, share i o = .ret result :: rest ∧ result.success = false := by
  have hsessions := sessions_run h
  refine ⟨fun c name hname => ⟨fun hmem => ?_, fun hc => hsessions.made c hc name hname⟩,
    fun i c o s' hc hreplaced hs => ?_⟩
  · by_contra hle
    rw [hsessions.fresh c (Nat.le_of_not_lt hle)] at hmem
    cases hmem
  · suffices hinv : (share i o = [] ∧ share i s'.repo.log = share i s.repo.log ∧ Failing c s' i)
        ∨ ∃ result rest, share i o = .ret result :: rest ∧ result.success = false from
      hinv.imp_left fun ⟨ho, hlog, _⟩ => ⟨ho, hlog⟩
    induction hs with
    | refl => exact .inl ⟨rfl, rfl, unserved_run h hc hreplaced, .inl hc⟩
    | @tail s₁ s₂ o o' hs hstep ih =>
        rw [share_append]
        rcases ih with ⟨ho, hlog, hfailing⟩ | ⟨result, rest, ho, hfail⟩
        · rw [ho, List.nil_append]
          rcases failing_step (h.steps hs) hfailing hreplaced hstep with
            ⟨ho', hlog', hfailing'⟩ | ⟨result, ho', hfail⟩
          · exact .inl ⟨ho', hlog'.trans hlog, hfailing'⟩
          · exact .inr ⟨result, [], ho', hfail⟩
        · exact .inr ⟨result, rest ++ share i o', by rw [ho, List.cons_append], hfail⟩

end Replaced

/-! ### A connection breaks while it is used -/

/-- The call fails; the handle that it had gives back a replacement, and the
next call is handed it. -/
def sampleBreaks : List (PooledInput Bool) :=
  [.repo false (.call (.saveEvents [sampleEvent])), .pool false (.acquire false),
    .pool false (.check 1 false), .repo false (.save .proceed), .connectionBreaks 0,
    .repo false (.save (.fail "connection lost")), .pool false (.destroy 1),
    .pool false (.testOpen 1 true), .pool false (.push 1), .pool false (.notify 1 none),
    .pool false (.finish 1), .repo false .leave, .repo true (.call (.read .getStats)),
    .pool true (.acquire false), .pool true (.check 2 false)]

def sampleFails : List (PooledInput Bool) :=
  [.repo true (.read (.fail "prepared statement \"get_stats\" does not exist")),
    .pool true (.destroy 2), .pool true (.testOpen 2 true), .pool true (.push 2),
    .pool true (.notify 2 none), .pool true (.finish 2), .repo true .leave]

def sampleRefused : RepoResult :=
  .stats (.notOk "[Postgres] prepared statement \"get_stats\" does not exist")

theorem sampleBroken : ∃ s s' : Pooled Bool, ∃ out, (machine Bool samplePg 1).Run s out
    ∧ s.conn? true = some 1
    ∧ (machine Bool samplePg 1).Steps s [(true, .ret sampleRefused)] s' := by
  have horders : ∀ a ∈ sampleBreaks ++ sampleFails, Orders a := by
    simp [sampleBreaks, sampleFails, Orders, Repository.Orders]
  have hrun := (Machine.Run.start (M := machine Bool samplePg 1) init_sampleStart).steps
    (Machine.steps_of_feed_where (l := sampleBreaks)
      (fun a ha _ => horders a (List.mem_append_left _ ha)) rfl)
  exact ⟨_, _, _, hrun, rfl, Machine.steps_of_feed_where (l := sampleFails)
    (fun a ha _ => horders a (List.mem_append_right _ ha)) rfl⟩

/-- The second thread is told of a failure. -/
theorem replaced_connection_fails_sample : ∃ (s s' : Pooled Bool),
    s.conn? true = some 1 ∧ (machine Bool samplePg 1).Steps s [(true, .ret sampleRefused)] s'
      ∧ sampleRefused.success = false := by
  obtain ⟨s, s', out, hrun, hc, hsteps⟩ := sampleBroken
  obtain ⟨-, hfails⟩ := replaced_connection_fails hrun
  rcases hfails true 1 _ _ hc (by decide) hsteps with ⟨hnone, -⟩ | ⟨result, rest, hret, hfail⟩
  · cases hnone
  · obtain rfl : sampleRefused = result := Label.ret.inj (List.cons.inj hret).1
    exact ⟨s, s', hc, hsteps, hfail⟩

end Pooled

end EventHistory
