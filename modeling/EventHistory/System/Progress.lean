import Mathlib.Algebra.BigOperators.Group.Finset.Basic
import EventHistory.System.Pooled

/-!
# Every call of the repository returns

The calls of the repository wait for each other's connections and for nothing
else. From any moment on let no call be added: then every schedule of the
threads comes to an end, however the statements turn out, unless waiters wake
up on their own or connections break again and again, which the bound counts;
and at its end every call has returned and all connections are in the queue.
`Pool.drained_of_stuck` says so of the pool
by itself, provided that all handles are destroyed; here it is the code of the
repository that destroys them.
-/

namespace EventHistory

open Transition

/-- The steps that a call of the repository has left, at most. -/
def RepoCall.work : RepoCall → Nat
  | .saving c =>
      match c.pc with
      | .entered => 2 * c.events.length + 4
      | .loop rest => 2 * rest.length + 3
      | .payload _ _ rest => 2 * rest.length + 4
      | .idle | .returned _ | .threw _ => 1
  | .reading c =>
      match c.pc with
      | .entered => 3
      | .executed _ => 2
      | .returned _ => 1
  | .idle => 0

/-- The steps of the calls that are there. -/
def PooledInput.goesOn {ι : Type} : PooledInput ι → Bool
  | .repo _ (.call _) | .pool _ (.wake _) | .connectionBreaks _ => false
  | .repo _ _ | .pool _ _ => true

/-- What happens to them from outside. -/
def PooledInput.disturbs {ι : Type} : PooledInput ι → Bool
  | .pool _ act => act.disturbs
  | .connectionBreaks _ => true
  | .repo _ _ => false

namespace Pooled

variable {ι : Type} [DecidableEq ι]

/-- With the call of `Acquire` that it has still to make. -/
def callWork (s : Pooled ι) (i : ι) : Nat :=
  (s.repo.calls i).work + if s.uses i = .nothing ∧ (s.repo.calls i).wants = true then 11 else 0

/-- What the threads `T` have left to do. -/
def work (T : Finset ι) (s : Pooled ι) : Nat :=
  s.pool.work + ∑ i ∈ T, s.callWork i

/-- The calls are all of threads `T`. -/
def Within (T : Finset ι) (s : Pooled ι) : Prop := ∀ i, i ∉ T → s.repo.calls i = .idle

section Work

variable {pg : Pg} {n : Nat} {s s' : Pooled ι} {i : ι} {T : Finset ι} {c c' : RepoCall}
  {input : RepoInput} {out o : List (ι × Label RepoOp RepoResult)}

omit [DecidableEq ι] in
/-- Each step of a call leaves it less to do, and it acquires only once. -/
theorem Moves.work_lt (hm : Moves pg s i c input c') (hcall : ∀ op, input ≠ .call op) :
    c'.work < c.work ∧ c'.wants = false := by
  cases hm with
  | call op => exact absurd rfl (hcall op)
  | save hallows hs =>
      cases hs with
      | nothing hpc | acquire hpc | insertEvent hpc | insertPayload hpc | commit hpc
      | eventRefused _ _ hpc | payloadRefused _ hpc | acquireThrows _ hpc =>
          simp [RepoCall.work, RepoCall.wants, SaveCall.fail, hpc]
          try omega
      | failed what hpc =>
          rcases hpc with ⟨rest, hpc⟩ | ⟨id, event, rest, hpc⟩ <;>
            simp [RepoCall.work, RepoCall.wants, SaveCall.fail, hpc]
      | call | leave => simp [allowsSave] at hallows
  | @read c c' input hallows hn =>
      unfold ReadCall.next at hn
      split at hn
      next arrange hpc =>
        obtain rfl := Option.some.inj hn
        simp only [ReadCall.exec]
        split <;> simp [RepoCall.work, RepoCall.wants, hpc]
      next result hpc =>
        obtain rfl := Option.some.inj hn
        simp [RepoCall.work, RepoCall.wants, hpc]
      next what hpc =>
        obtain rfl := Option.some.inj hn
        simp [RepoCall.work, RepoCall.wants, hpc]
      next what hpc =>
        obtain rfl := Option.some.inj hn
        simp [RepoCall.work, RepoCall.wants, hpc]
      next => cases hn

/-- One thread takes a step. -/
theorem sum_callWork (s s' : Pooled ι) (hi : i ∈ T)
    (hother : ∀ j, j ≠ i → s'.callWork j = s.callWork j) :
    ∑ j ∈ T, s'.callWork j + s.callWork i = ∑ j ∈ T, s.callWork j + s'.callWork i := by
  have hrest : ∑ j ∈ T.erase i, s'.callWork j = ∑ j ∈ T.erase i, s.callWork j :=
    Finset.sum_congr rfl fun j hj => hother j (Finset.ne_of_mem_erase hj)
  rw [← Finset.add_sum_erase T _ hi, ← Finset.add_sum_erase T s.callWork hi, hrest]
  omega

omit [DecidableEq ι] in
theorem callWork_of_busy (h : s.uses i ≠ .nothing ∨ (s.repo.calls i).wants = false) :
    s.callWork i = (s.repo.calls i).work := by
  rw [callWork, if_neg, Nat.add_zero]
  rintro ⟨hnothing, hwants⟩
  rcases h with h | h
  · exact h hnothing
  · simp [hwants] at h

omit [DecidableEq ι] in
/-- Behind a step of the pool, thread `i` has a call of `Acquire` or a handle. -/
theorem Mine.ne_nothing {act : Pool.Act} {p : Pool} {u : ConnUse} (hm : Mine s i act p u) :
    u ≠ .nothing := by
  cases hm with
  | acquire | take | stay | release => simp

omit [DecidableEq ι] in
theorem Mine.ne_idle {act : Pool.Act} {p : Pool} {u : ConnUse} (hm : Mine s i act p u)
    (hs : s.Inv n) : s.repo.calls i ≠ .idle := by
  have hself := hs.uses i
  intro hidle
  rw [hidle] at hself
  cases hm with
  | acquire _ hwants => simp [hidle, RepoCall.wants] at hwants
  | take hk | stay hk =>
      rw [hk] at hself
      cases hself with
      | waiting hwants => cases hwants
  | release _ hres => simp [hidle, RepoCall.result] at hres

omit [DecidableEq ι] in
/-- The pool has a call of `Acquire` more, or less to do. -/
theorem pool_work_lt {act : Pool.Act} {p : Pool} (hmine : s.mine i act = true)
    (hgoes : PooledInput.goesOn (.pool i act) = true) (hp : s.pool.next act = some p) :
    p.work < s.pool.work
      ∨ p.work = s.pool.work + 10 ∧ s.uses i = .nothing ∧ (s.repo.calls i).wants = true := by
  cases act with
  | acquire timed =>
      simp only [mine, Bool.and_eq_true, Bool.not_eq_true', decide_eq_true_eq] at hmine
      obtain rfl := Option.some.inj hp
      refine .inr ⟨?_, hmine.1.2, hmine.2⟩
      simp only [Pool.work, List.map_append, List.sum_append, List.map_cons, List.map_nil,
        List.sum_cons, List.sum_nil, AcquirePc.work]
      omega
  | check | destroy | testOpen | push | notify | finish =>
      exact .inl (Pool.work_step rfl (Pool.step_of_next hp))
  | wake => cases hgoes
  | moveConstruct | moveAssign | connectionBreaks => cases hmine

/-- Each step leaves less to do. -/
theorem goesOn_step {a : PooledInput ι} (hs : s.Inv n) (hT : Within T s)
    (hgoes : a.goesOn = true) (h : Step pg s a s') : Within T s' ∧ s'.work T < s.work T := by
  have hmem {i : ι} (hi : s.repo.calls i ≠ .idle) : i ∈ T := by
    by_contra hnot
    exact hi (hT i hnot)
  cases h with
  | @repo i input repo hallows hn hleave =>
      obtain ⟨c', hcalls, hm⟩ := moves_of_next hallows hn hleave
      have hcall : ∀ op, input ≠ .call op := by
        rintro op rfl
        cases hgoes
      obtain ⟨hlt, hwants⟩ := hm.work_lt hcall
      have hi : i ∈ T := hmem fun hidle => by
        rw [hidle] at hlt
        cases hlt
      have hself : repo.calls i = c' := by rw [hcalls, Function.update_self]
      have hrest {j : ι} (hj : j ≠ i) : repo.calls j = s.repo.calls j := by
        rw [hcalls, Function.update_of_ne hj]
      have hsum := sum_callWork s { s with repo } hi fun j hj => by
        simp only [callWork, hrest hj]
      have hafter : callWork { s with repo } i < s.callWork i := by
        rw [callWork_of_busy (.inr (by simpa only [hself] using hwants))]
        simp only [hself, callWork]
        omega
      refine ⟨fun j hj => (hrest (by rintro rfl; exact hj hi)).trans (hT j hj), ?_⟩
      simp only [work]
      omega
  | @leave i result hreleased hresult =>
      have hi : i ∈ T := hmem fun hidle => by
        rw [hidle] at hresult
        cases hresult
      have hlt : 0 < (s.repo.calls i).work := by
        cases hc : s.repo.calls i with
        | idle => simp [hc, RepoCall.result] at hresult
        | saving c | reading c => cases hpc : c.pc <;> simp [RepoCall.work, hpc]
      have hsum := sum_callWork s { s with
          repo := s.repo.setCall i .idle
          uses := Function.update s.uses i .nothing } hi fun j hj => by
        simp only [callWork, Repository.setCall, Function.update_of_ne hj]
      have hafter : callWork { s with
          repo := s.repo.setCall i .idle
          uses := Function.update s.uses i .nothing } i = 0 := by
        simp [callWork, RepoCall.work, RepoCall.wants]
      have hbefore : 0 < s.callWork i := Nat.lt_of_lt_of_le hlt (Nat.le_add_right ..)
      refine ⟨fun j hj => ?_, ?_⟩
      · have hne : j ≠ i := by
          rintro rfl
          exact hj hi
        exact (Function.update_of_ne hne ..).trans (hT j hj)
      · simp only [work]
        omega
  | @pool i act p hmine hp =>
      have hm := mine_of_next (hs.uses i) hmine hp
      have hi : i ∈ T := hmem (hm.ne_idle hs)
      have hsum := sum_callWork s { s with
          pool := p
          uses := Function.update s.uses i (s.useAfter i p act) } hi fun j hj => by
        simp only [callWork, Function.update_of_ne hj]
      have hafter : callWork { s with
          pool := p
          uses := Function.update s.uses i (s.useAfter i p act) } i = (s.repo.calls i).work :=
        callWork_of_busy (.inl (by simpa using hm.ne_nothing))
      refine ⟨hT, ?_⟩
      simp only [work]
      rcases pool_work_lt hmine hgoes hp with hlt | ⟨heq, hnothing, hwants⟩
      · have hbefore : (s.repo.calls i).work ≤ s.callWork i := Nat.le_add_right ..
        omega
      · have hbefore : s.callWork i = (s.repo.calls i).work + 11 := by
          rw [callWork, if_pos ⟨hnothing, hwants⟩]
        omega
  | connectionBreaks c => cases hgoes

/-- A waiter that wakes up on its own, or a broken connection, adds one step at
most. -/
theorem disturbed_step {a : PooledInput ι} (hs : s.Inv n) (hT : Within T s)
    (hdisturbs : a.disturbs = true) (h : Step pg s a s') :
    Within T s' ∧ s'.work T ≤ s.work T + 1 := by
  cases h with
  | repo | leave => cases hdisturbs
  | connectionBreaks c => exact ⟨hT, Nat.le_succ _⟩
  | @pool i act p hmine hp =>
      have hm := mine_of_next (hs.uses i) hmine hp
      have hpool := Pool.work_disturbed hdisturbs (Pool.step_of_next hp)
      -- its thread has a call of `Acquire` or a handle already
      have hself : callWork { s with
          pool := p
          uses := Function.update s.uses i (s.useAfter i p act) } i ≤ s.callWork i := by
        rw [callWork_of_busy (.inl (by simpa using hm.ne_nothing))]
        exact Nat.le_add_right ..
      have hsum : ∑ j ∈ T, callWork { s with
          pool := p
          uses := Function.update s.uses i (s.useAfter i p act) } j ≤ ∑ j ∈ T, s.callWork j := by
        refine Finset.sum_le_sum fun j _ => ?_
        by_cases hj : j = i
        · exact hj ▸ hself
        · simp only [callWork, Function.update_of_ne hj]
          exact Nat.le_refl _
      refine ⟨hT, ?_⟩
      simp only [work]
      omega

end Work

/-! ## Where it ends -/

/-- No call can go on. -/
def Stuck (pg : Pg) (s : Pooled ι) : Prop :=
  ∀ a : PooledInput ι, a.goesOn = true → s.next pg a = none

section End

variable {pg : Pg} {n : Nat} {s s' : Pooled ι} {i : ι} {out o : List (ι × Label RepoOp RepoResult)}

theorem Stuck.pool_next (h : s.Stuck pg) {act : Pool.Act} (hmine : s.mine i act = true)
    (hgoes : PooledInput.goesOn (.pool i act) = true) : s.pool.next act = none := by
  have hn := h (.pool i act) hgoes
  simpa [next, hmine] using hn

theorem Stuck.repo_next (h : s.Stuck pg) (input : RepoInput) (hallows : s.allows i input = true)
    (hcall : ∀ op, input ≠ .call op) : s.repo.next pg (i, input) = none := by
  have hgoes : PooledInput.goesOn (.repo i input) = true := by
    cases input with
    | call op => exact absurd rfl (hcall op)
    | save | read | leave => rfl
  simpa [next, hallows] using h (.repo i input) hgoes

/-- A call that has its result, and nothing of the pool, returns. -/
theorem Stuck.not_released (h : s.Stuck pg) (hreleased : s.released i = true) :
    (s.repo.calls i).result = none := by
  have hn := h.repo_next .leave hreleased (by simp)
  cases hc : s.repo.calls i with
  | idle => rfl
  | saving c | reading c => simpa only [Repository.next, hc, Option.map_eq_none_iff] using hn

/-- A call that has a connection has its result: at any point before it an
exception could end it. -/
theorem Stuck.result_of_conn (h : s.Stuck pg) (hs : s.Inv n)
    (hconn : (s.conn? i).isSome = true) (hidle : s.repo.calls i ≠ .idle) :
    (s.repo.calls i).result.isSome = true := by
  cases hc : s.repo.calls i with
  | idle => exact absurd hc hidle
  | saving c =>
      have hfail := h.repo_next (i := i) (.save (.fail ""))
      have hproceed := h.repo_next (i := i) (.save .proceed)
      cases hpc : c.pc with
      | entered => simp [allows, allowsSave, hc, hpc, hconn, Repository.next, SaveInput.inside,
          SaveCall.next] at hproceed
      | loop | payload => simp [allows, allowsSave, hc, hpc, hconn, Repository.next,
          SaveInput.inside, SaveCall.next] at hfail
      | returned result => simp [RepoCall.result, hpc, SavePc.outcome]
      | idle => exact absurd hpc (hs.inside i c hc).1
      | threw what => exact absurd hpc ((hs.inside i c hc).2 what)
  | reading c =>
      have hfail := h.repo_next (i := i) (.read (.fail ""))
      cases hpc : c.pc with
      | entered | executed => simp [allows, allowsRead, hc, hpc, hconn, Repository.next,
          ReadCall.next] at hfail
      | returned result => simp [RepoCall.result, hpc]

/-- The pool has nothing left to do either: each of its steps would be one of
some thread. -/
theorem Stuck.pool (h : s.Stuck pg) (hs : s.Inv n) : s.pool.Stuck := by
  intro act hgives
  by_contra hne
  obtain ⟨p, hp⟩ := Option.ne_none_iff_exists'.mp hne
  have howner {k : Nat} {x : HandleState} (hx : s.pool.handles[k]? = some x)
      (hxne : x ≠ .destroyed) : ∃ i, s.uses i = .holding k := hs.holders k x hx hxne
  have hnot (i : ι) (hmine : s.mine i act = true)
      (hgoes : PooledInput.goesOn (.pool i act) = true) : False :=
    hne (h.pool_next hmine hgoes)
  cases Pool.step_of_next hp with
  | take ha hlooks | sleep ha hlooks =>
      obtain ⟨i, hi⟩ := hs.waiters _ ⟨_, ha, ne_returned_of_looks hlooks⟩
      exact hnot i (decide_eq_true hi) rfl
  | giveUp ha =>
      obtain ⟨i, hi⟩ := hs.waiters _ ⟨_, ha, by simp⟩
      exact hnot i (decide_eq_true hi) rfl
  | destroyReturning hx | destroy hx =>
      have hget := Pool.getElem?_of_handle? hx
      obtain ⟨i, hi⟩ := howner hget (by simp)
      have hself := hs.uses i
      rw [hi] at hself
      cases hself with
      | holding hidle hlive =>
          have hconn : (s.conn? i).isSome = true :=
            Option.isSome_iff_exists.mpr ⟨_, conn?_eq_some.mpr ⟨_, _, hi, hlive, rfl⟩⟩
          have hres := h.result_of_conn hs hconn hidle
          exact hnot i (by simp [mine, hi, hres]) rfl
      | returning _ hreturning => simp [hget] at hreturning
      | gone _ hgone => simp [hget] at hgone
  | testOpen _ hx | push hx | notify hx | notifyNobody hx | finish hx | finishAssign hx =>
      obtain ⟨i, hi⟩ := howner hx (by simp)
      exact hnot i (decide_eq_true hi) rfl
  | acquire | wake | moveConstruct | selfAssign | assignReturning | assign | connectionBreaks =>
      cases hgives

/-- A call that has nothing of the pool would acquire a connection, or return. -/
theorem Stuck.idle_of_nothing (h : s.Stuck pg) (hs : s.Inv n) (huse : s.uses i = .nothing)
    (hopened : (s.repo.calls i).opened = false) : s.repo.calls i = .idle := by
  have hresult := h.not_released (i := i) (by simp [released, huse])
  have hwants : (s.repo.calls i).wants = false := by
    by_contra hwants
    have hmine : s.mine i (.acquire false) = true := by simpa [mine, huse] using hwants
    cases h.pool_next hmine rfl
  cases hc : s.repo.calls i with
  | idle => rfl
  | saving c =>
      have hproceed := h.repo_next (i := i) (.save .proceed)
      cases hpc : c.pc with
      | entered =>
          have hempty : c.events = [] := by simpa [RepoCall.wants, hc, hpc] using hwants
          simp [allows, allowsSave, hc, hpc, hempty, Repository.next, SaveInput.inside,
            SaveCall.next] at hproceed
      | loop | payload => simp [RepoCall.opened, hc, hpc] at hopened
      | returned | threw => simp [RepoCall.result, SavePc.outcome, hc, hpc] at hresult
      | idle => exact absurd hpc (hs.inside i c hc).1
  | reading c =>
      cases hpc : c.pc with
      | entered => simp [RepoCall.wants, hc, hpc] at hwants
      | executed => simp [RepoCall.opened, hc, hpc] at hopened
      | returned => simp [RepoCall.result, hc, hpc] at hresult

/-- So everything is done. -/
theorem idle_of_stuck (hn : 0 < n) (hs : s.Inv n) (h : s.Stuck pg) :
    (∀ i, s.repo.calls i = .idle) ∧ s.pool.idle.length = n := by
  obtain ⟨hacquires, hhandles, hlength⟩ := Pool.drained_of_stuck hn hs.pool (h.pool hs)
  refine ⟨fun i => ?_, hlength⟩
  have hself := hs.uses i
  generalize huse : s.uses i = u at hself
  cases hself with
  | nothing hopened => exact h.idle_of_nothing hs huse hopened
  | waiting hwants hk =>
      obtain ⟨a, ha, hne⟩ := hk
      rcases hacquires a (List.mem_of_getElem? ha) with rfl | rfl
      · exact absurd rfl hne
      · cases hs.untimed _ _ ha
  | holding _ hx | returning _ hx => cases hhandles _ (List.mem_of_getElem? hx)
  | gone hres hx =>
      have hreleased : s.released i = true := by simp [released, huse, hx]
      simp [h.not_released hreleased] at hres

theorem exists_within (h : (machine ι pg n).Run s out) : ∃ T : Finset ι, Within T s := by
  induction h with
  | start hinit => exact ⟨∅, fun i _ => by rw [repo_of_init hinit]⟩
  | step _ hstep ih =>
      obtain ⟨T, hT⟩ := ih
      obtain ⟨a, -, hn, -⟩ := hstep
      cases step_of_next hn with
      | @repo i input repo hallows hrepo hleave =>
          obtain ⟨c', hcalls, -⟩ := moves_of_next hallows hrepo hleave
          refine ⟨insert i T, fun j hj => ?_⟩
          obtain ⟨hji, hjT⟩ := not_or.mp (mt Finset.mem_insert.mpr hj)
          exact hcalls ▸ (Function.update_of_ne hji ..).trans (hT j hjT)
      | @leave i result hreleased hresult =>
          refine ⟨T, fun j hj => ?_⟩
          by_cases hji : j = i
          · exact hji ▸ Function.update_self ..
          · exact (Function.update_of_ne hji ..).trans (hT j hj)
      | pool | connectionBreaks => exact ⟨T, hT⟩

/-- **Every call of the repository returns.** From any reachable state on,
however few connections there are and however the threads are scheduled: the
calls that are there take a bounded number of steps, two more being allowed for
each time that a waiter wakes up on its own or a connection breaks, and where
none of them can go on, all have returned and all `n` connections are in the
queue. -/
theorem calls_end (hn : 0 < n) (h : (machine ι pg n).Run s out) :
    ∃ bound, ∀ l s' o,
      (∀ a ∈ l, PooledInput.goesOn a = true ∨ PooledInput.disturbs a = true) →
      Machine.feed (next pg) labels s l = some (s', o) →
      l.length ≤ bound + 2 * l.countP PooledInput.disturbs
        ∧ (s'.Stuck pg → (∀ i, s'.repo.calls i = .idle) ∧ s'.pool.idle.length = n) := by
  obtain ⟨T, hT⟩ := exists_within h
  refine ⟨s.work T, fun l s' o hl hfeed => ?_⟩
  have hstep (s : Pooled ι) (a : PooledInput ι) (s' : Pooled ι) (hI : s.Inv n ∧ Within T s)
      (ha : a.goesOn = true ∨ a.disturbs = true) (hnext : s.next pg a = some s') :
      (s'.Inv n ∧ Within T s') ∧ s'.work T < s.work T + if a.disturbs then 2 else 0 := by
    have hs := step_of_next hnext
    have hinv := inv_step hI.1 hs
    rcases ha with hgoes | hdisturbs
    · obtain ⟨hwithin, hlt⟩ := goesOn_step hI.1 hI.2 hgoes hs
      exact ⟨⟨hinv, hwithin⟩, Nat.lt_of_lt_of_le hlt (Nat.le_add_right ..)⟩
    · obtain ⟨hwithin, hle⟩ := disturbed_step hI.1 hI.2 hdisturbs hs
      rw [if_pos hdisturbs]
      exact ⟨⟨hinv, hwithin⟩, Nat.lt_succ_of_le hle⟩
  obtain ⟨⟨hs', -⟩, hbound⟩ :=
    Machine.length_le_of_feed (work T) PooledInput.disturbs 2 hstep ⟨inv_run h, hT⟩ hl hfeed
  exact ⟨Nat.le_trans (Nat.le_add_right ..) hbound, idle_of_stuck hn hs'⟩

/-- One thread has the only connection, and another one waits for it. -/
theorem calls_end_sample : ∃ s : Pooled Bool, s.uses true = .waiting 2
    ∧ ∃ bound, ∀ l s' o,
      (∀ a ∈ l, PooledInput.goesOn a = true ∨ PooledInput.disturbs a = true) →
      Machine.feed (next samplePg) labels s l = some (s', o) →
      l.length ≤ bound + 2 * l.countP PooledInput.disturbs
        ∧ (s'.Stuck samplePg → (∀ i, s'.repo.calls i = .idle) ∧ s'.pool.idle.length = 1) := by
  obtain ⟨s, -, out, -, hrun, -, hwaits, -⟩ := sampleRun
  exact ⟨s, hwaits, calls_end (by decide) hrun⟩

end End

end Pooled

end EventHistory
