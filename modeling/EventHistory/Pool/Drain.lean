import EventHistory.Pool.Ownership
import EventHistory.Pool.Wakeup

/-!
# No call waits for ever

From any moment on let nobody call `Acquire` any more, and let the owners of
handles do nothing with them but destroy them. Then every schedule comes to an
end, whoever barges in, whatever `notify_one` chooses and however reconnects
turn out: each step lowers `Pool.work`. And at its end no call is asleep: a
state without a further step has all connections back in the queue
(`drained_of_stuck`), which is where the monitor of `Pool.Wakeup` and the
accounts of `Pool.Ownership` meet.

Waiters that leave the wait set on their own could do so for ever without
anybody else taking a step. So the bound counts them: each such wakeup allows
the schedule two steps more, itself and the look at the queue that follows.
Connections that break are counted along with them.
-/

namespace EventHistory

open Transition

/-! ## What is left to do -/

/-- A call that sleeps has one step more to do when it is notified. -/
def AcquirePc.work : AcquirePc → Nat
  | .entered _ | .woken _ _ => 10
  | .asleep _ => 9
  | .returned | .threw => 0

def ReturnPc.work : ReturnPc → Nat
  | .called _ => 6
  | .locking _ => 5
  | .notifying _ => 4
  | .finished => 2

def HandleState.work : HandleState → Nat
  | .live x => if x.conn.isSome then 7 else 1
  | .returning pc _ => pc.work
  | .destroyed => 0

namespace Pool

def work (p : Pool) : Nat :=
  (p.acquires.map AcquirePc.work).sum + (p.handles.map HandleState.work).sum

/-- The steps of calls that are under way, and the destruction of handles. -/
def Act.givesBack : Act → Bool
  | .check _ _ | .destroy _ | .testOpen _ _ | .push _ | .notify _ _ | .finish _ => true
  | .acquire _ | .wake _ | .moveConstruct _ | .moveAssign _ _ | .connectionBreaks _ => false

/-- What happens to the pool from outside: a waiter wakes up without being
notified, or a connection breaks. -/
def Act.disturbs : Act → Bool
  | .wake _ | .connectionBreaks _ => true
  | _ => false

section Work

variable {p p' : Pool} {i h other : Nat}

theorem work_setAcquire {a b : AcquirePc} (ha : p.acquires[i]? = some a) :
    ((p.acquires.set i b).map AcquirePc.work).sum + a.work =
      (p.acquires.map AcquirePc.work).sum + b.work :=
  sum_map_set ha _ b

theorem work_setHandle {x y : HandleState} (hx : p.handles[h]? = some x) :
    ((p.handles.set h y).map HandleState.work).sum + x.work =
      (p.handles.map HandleState.work).sum + y.work :=
  sum_map_set hx _ y

theorem work_of_looks {a : AcquirePc} (ha : a.looks = true) : a.work = 10 := by
  cases a with
  | entered _ | woken _ _ => rfl
  | asleep _ | returned | threw => cases ha

/-- Each of these steps leaves less to do. -/
theorem work_step {a : Act} (hgives : a.givesBack = true) (hs : Step p a p') :
    p'.work < p.work := by
  unfold work
  cases hs with
  | acquire | wake | moveConstruct | selfAssign | assignReturning | assign | connectionBreaks =>
      cases hgives
  | @take i expired a c rest ha hlooks hidle =>
      have hacquire := work_setAcquire (b := .returned) ha
      rw [work_of_looks hlooks] at hacquire
      simp only [List.map_append, List.sum_append, List.map_cons, List.map_nil, List.sum_cons,
        List.sum_nil, HandleState.work, Option.isSome_some, if_true, AcquirePc.work] at hacquire ⊢
      omega
  | @sleep i expired timed a ha hlooks hidle =>
      have hacquire := work_setAcquire (b := .asleep timed) ha
      rw [work_of_looks hlooks] at hacquire
      simp only [setAcquire, AcquirePc.work] at hacquire ⊢
      omega
  | @giveUp i notified ha hidle =>
      have hacquire := work_setAcquire (b := .threw) ha
      simp only [setAcquire, AcquirePc.work] at hacquire ⊢
      omega
  | @destroyReturning h x hx hr =>
      have hhandle := work_setHandle (y := .returning (.called x.conn) .destructor)
        (getElem?_of_handle? hx)
      have hconn : x.conn.isSome = true := Inv.conn_isSome hr
      simp only [setHandle, HandleState.work, ReturnPc.work, hconn, if_true] at hhandle ⊢
      omega
  | @destroy h x hx hr =>
      have hhandle := work_setHandle (y := .destroyed) (getElem?_of_handle? hx)
      simp only [setHandle, HandleState.work] at hhandle ⊢
      split at hhandle <;> omega
  | @testOpen h conn caller connects hh =>
      have hhandle := work_setHandle
        (y := .returning (.locking (Pool.testOpen p.heap conn connects).2.1) caller) hh
      simp only [setHandle, HandleState.work, ReturnPc.work] at hhandle ⊢
      omega
  | @push h conn caller hh =>
      have hhandle := work_setHandle
        (y := .returning (.notifying (Pool.push p.idle conn).2.1) caller) hh
      simp only [setHandle, HandleState.work, ReturnPc.work] at hhandle ⊢
      omega
  | @notify h i pushed timed caller hh ha =>
      have hhandle := work_setHandle (y := .returning .finished caller) hh
      have hacquire := work_setAcquire (b := .woken timed true) ha
      simp only [setHandle, HandleState.work, ReturnPc.work, AcquirePc.work] at hhandle hacquire ⊢
      omega
  | @notifyNobody h pushed caller hh hnone =>
      have hhandle := work_setHandle (y := .returning .finished caller) hh
      simp only [setHandle, HandleState.work, ReturnPc.work] at hhandle ⊢
      omega
  | @finish h hh =>
      have hhandle := work_setHandle (y := .destroyed) hh
      simp only [setHandle, HandleState.work, ReturnPc.work] at hhandle ⊢
      omega
  | @finishAssign h other y hh hy =>
      have hne : h ≠ other := by
        rintro rfl
        rw [hh] at hy
        cases hy
      have htarget := work_setHandle (y := .live y) hh
      have hy' : (p.setHandle h (.live y)).handles[other]? = some (.live y) :=
        (List.getElem?_set_ne hne).trans hy
      have hsource := work_setHandle (y := .live .empty) hy'
      simp only [takeOver, setHandle, HandleState.work, ReturnPc.work, Handle.empty,
        Option.isSome_none, Bool.false_eq_true, if_false] at htarget hsource ⊢
      omega

/-- A waiter that wakes up on its own will look at the queue once more. -/
theorem work_disturbed {a : Act} (hdisturbs : a.disturbs = true) (hs : Step p a p') :
    p'.work ≤ p.work + 1 := by
  cases hs with
  | @wake i timed ha =>
      have hacquire := work_setAcquire (b := .woken timed false) ha
      simp only [work, setAcquire, AcquirePc.work] at hacquire ⊢
      omega
  | connectionBreaks => exact Nat.le_succ _
  | acquire | take | sleep | giveUp | moveConstruct | selfAssign | assignReturning | assign
  | destroyReturning | destroy | testOpen | push | notify | notifyNobody | finish
  | finishAssign => cases hdisturbs

end Work

/-! ## Assignments in progress -/

/-- The source of an assignment in progress is a live handle. -/
def SourcesLive (p : Pool) : Prop :=
  ∀ (h : Nat) (pc : ReturnPc) (other : Nat),
    p.handles[h]? = some (.returning pc (.assignment other)) →
    ∃ y, p.handles[other]? = some (.live y)

section Sources

variable {p p' : Pool} {h : Nat}

/-- One handle moves on that nobody assigns from, or that stays live. -/
theorem SourcesLive.set (hp : p.SourcesLive) {x : HandleState}
    (hsource : (∃ y, x = .live y) ∨
      ∀ (h' : Nat) (pc : ReturnPc), p.handles[h']? ≠ some (.returning pc (.assignment h)))
    (hx : ∀ (pc : ReturnPc) (other : Nat), x = .returning pc (.assignment other) →
      other ≠ h ∧ ∃ y, p.handles[other]? = some (.live y)) :
    (p.setHandle h x).SourcesLive := by
  intro h' pc other hh'
  by_cases hlt : h < p.handles.length
  · have hold : ∀ {other : Nat}, other ≠ h → (∃ y, p.handles[other]? = some (.live y)) →
        ∃ y, (p.handles.set h x)[other]? = some (.live y) := by
      rintro other hne ⟨y, hy⟩
      exact ⟨y, (List.getElem?_set_ne hne.symm).trans hy⟩
    by_cases hh : h = h'
    · subst hh
      rw [setHandle, List.getElem?_set_self hlt] at hh'
      obtain ⟨hne, hy⟩ := hx pc other (Option.some.inj hh')
      exact hold hne hy
    · rw [setHandle, List.getElem?_set_ne hh] at hh'
      by_cases hother : other = h
      · subst hother
        rcases hsource with ⟨y, rfl⟩ | hnone
        · exact ⟨y, List.getElem?_set_self hlt⟩
        · exact absurd hh' (hnone h' pc)
      · exact hold hother (hp h' pc other hh')
  · rw [setHandle, List.set_eq_of_length_le (Nat.le_of_not_lt hlt)] at hh' ⊢
    exact hp h' pc other hh'

/-- A handle that is not live is nobody's source. -/
theorem SourcesLive.not_source (hp : p.SourcesLive) {x : HandleState}
    (hx : p.handles[h]? = some x) (hlive : ∀ y, x ≠ .live y) :
    ∀ (h' : Nat) (pc : ReturnPc), p.handles[h']? ≠ some (.returning pc (.assignment h)) := by
  intro h' pc hh'
  obtain ⟨y, hy⟩ := hp h' pc h hh'
  exact hlive y (Option.some.inj (hx.symm.trans hy))

/-- And so is one that its owner may use. -/
theorem not_source_of_handle? {x : Handle} (hx : p.handle? h = some x) :
    ∀ (h' : Nat) (pc : ReturnPc), p.handles[h']? ≠ some (.returning pc (.assignment h)) := by
  intro h' pc hh'
  have hsource : p.isSource h = true :=
    List.any_eq_true.mpr ⟨_, List.mem_of_getElem? hh', by simp⟩
  unfold handle? at hx
  split at hx
  · simp [hsource] at hx
  · cases hx

/-- A new handle is live. -/
theorem SourcesLive.snoc (hp : p.SourcesLive) (x : Handle) :
    SourcesLive { p with handles := p.handles ++ [.live x] } := by
  intro h pc other hh
  rcases List.getElem?_eq_some_iff.mp hh with ⟨hlt, hget⟩
  by_cases hold : h < p.handles.length
  · rw [List.getElem?_append_left hold] at hh
    obtain ⟨y, hy⟩ := hp h pc other hh
    have hother := (List.getElem?_eq_some_iff.mp hy).1
    exact ⟨y, (List.getElem?_append_left hother).trans hy⟩
  · rw [List.getElem?_append_right (Nat.le_of_not_lt hold)] at hh
    have hnew := List.mem_singleton.mp (List.mem_of_getElem? hh)
    cases hnew

theorem SourcesLive.takeOver (hp : p.SourcesLive) {other : Nat} {y : Handle}
    (old : Option ConnId) : (p.takeOver h old other y).SourcesLive := by
  have htarget : (p.setHandle h (.live y)).SourcesLive :=
    hp.set (.inl ⟨y, rfl⟩) (fun _ _ heq => by cases heq)
  exact htarget.set (h := other) (.inl ⟨.empty, rfl⟩) (fun _ _ heq => by cases heq)

theorem sourcesLive_step {a : Act} (hp : p.SourcesLive) (hs : Step p a p') : p'.SourcesLive := by
  cases hs with
  | acquire | sleep | giveUp | wake | selfAssign | connectionBreaks => exact hp
  | take => exact hp.snoc _
  | @moveConstruct h x hx =>
      have hempty : (p.setHandle h (.live .empty)).SourcesLive :=
        hp.set (.inl ⟨_, rfl⟩) (fun _ _ heq => by cases heq)
      exact hempty.snoc x
  | @assignReturning h other x y hne hx hy hr =>
      refine hp.set (.inr (not_source_of_handle? hx)) ?_
      rintro pc other' heq
      obtain ⟨-, hcaller⟩ := HandleState.returning.inj heq
      obtain rfl := Caller.assignment.inj hcaller
      exact ⟨hne.symm, y, getElem?_of_handle? hy⟩
  | assign => exact hp.takeOver _
  | destroyReturning hx hr =>
      exact hp.set (.inr (not_source_of_handle? hx)) (fun _ _ heq => by cases heq)
  | destroy hx hr =>
      exact hp.set (.inr (not_source_of_handle? hx)) (fun _ _ heq => by cases heq)
  | testOpen connects hh | push hh | notify hh ha | notifyNobody hh hnone =>
      refine hp.set (.inr (hp.not_source hh (fun y heq => by cases heq))) ?_
      rintro pc other heq
      obtain ⟨-, rfl⟩ := HandleState.returning.inj heq
      obtain ⟨y, hy⟩ := hp _ _ _ hh
      refine ⟨?_, y, hy⟩
      rintro rfl
      rw [hh] at hy
      cases hy
  | finish hh =>
      exact hp.set (.inr (hp.not_source hh (fun y heq => by cases heq)))
        (fun _ _ heq => by cases heq)
  | finishAssign hh hy => exact hp.takeOver _

end Sources

/-! ## Where it ends -/

section End

variable {n : Nat} {p p' : Pool} {out : List Note}

/-- What holds of a pool of `n` connections at any time: nothing is lost of
it, and no wakeup. -/
structure Sound (n : Nat) (p : Pool) : Prop where
  owned : ∃ out, p.Inv n out ∧ out.count .poolSizeReduced = 0
  wakeup : p.counts.NoLostWakeup
  sources : p.SourcesLive

/-- `ReturnConnection` always has a connection to push, so the pool does not
shrink. -/
theorem not_reduced_step {a : Act} (hp : p.Inv n out) (hs : Step p a p') :
    (p.notes a).count .poolSizeReduced = 0 := by
  cases hs with
  | @push h conn caller hh =>
      have hwf := hp.wf _ (List.mem_of_getElem? hh)
      obtain ⟨c, rfl⟩ := Option.isSome_iff_exists.mp hwf
      simp [notes, hh, Pool.push]
  | @testOpen h conn caller connects hh =>
      simp only [notes, hh, Pool.testOpen]
      split
      · rfl
      · split <;> rfl
  | _ => rfl

theorem sound_step {a : Act} (hp : p.Sound n) (hs : Step p a p') : p'.Sound n where
  owned := by
    obtain ⟨out, hinv, hcount⟩ := hp.owned
    refine ⟨_, inv_step hinv hs, ?_⟩
    rw [List.count_append, hcount, not_reduced_step hinv hs]
  wakeup := Monitor.noLostWakeup_step hp.wakeup (signalling_of_step hs)
  sources := sourcesLive_step hp.sources hs

theorem sound_construct (n : Nat) : (construct n).Sound n where
  owned := ⟨[], inv_construct n, rfl⟩
  wakeup hasleep := by simp [counts, construct] at hasleep
  sources h pc other hh := by simp [construct] at hh

theorem sound_run (h : (machine n).Run p out) : p.Sound n := by
  refine h.invariant (I := fun p _ => p.Sound n) ?_ ?_
  · rintro p rfl
    exact sound_construct n
  · rintro p out o p' hp ⟨a, hn, -⟩
    exact sound_step hp (step_of_next hn)

/-- No step that gives something back is possible. -/
def Stuck (p : Pool) : Prop := ∀ a : Act, a.givesBack = true → p.next a = none

theorem not_looks_of_stuck (h : p.Stuck) : ∀ a ∈ p.acquires, a.looks = false := by
  intro a ha
  obtain ⟨i, hi⟩ := List.getElem?_of_mem ha
  have hcheck : p.check i false = none := h (.check i false) rfl
  cases a with
  | asleep _ | returned | threw => rfl
  | entered timed | woken timed notified =>
      unfold check at hcheck
      rw [hi] at hcheck
      cases hidle : p.idle with
      | nil => simp [hidle] at hcheck
      | cons c rest => simp [hidle] at hcheck

/-- No `ReturnConnection` is under way: each could go on. -/
theorem not_returning_of_stuck (hsources : p.SourcesLive) (h : p.Stuck) :
    ∀ pc caller, .returning pc caller ∉ p.handles := by
  intro pc caller hmem
  obtain ⟨i, hi⟩ := List.getElem?_of_mem hmem
  cases pc with
  | called conn =>
      have htest := h (.testOpen i false) rfl
      simp [next, hi] at htest
  | locking conn =>
      have hpush := h (.push i) rfl
      simp [next, hi] at hpush
  | notifying pushed =>
      by_cases hasleep : ∃ a ∈ p.acquires, a.isAsleep = true
      · obtain ⟨a, ha, hsleeps⟩ := hasleep
        obtain ⟨j, hj⟩ := List.getElem?_of_mem ha
        have hnotify := h (.notify i (some j)) rfl
        cases a with
        | asleep timed => simp [next, hi, notify, hj] at hnotify
        | entered _ | woken _ _ | returned | threw => cases hsleeps
      · have hnotify := h (.notify i none) rfl
        have hany : p.acquires.any AcquirePc.isAsleep = false := by
          rw [List.any_eq_false]
          exact fun a ha hsleeps => hasleep ⟨a, ha, hsleeps⟩
        simp [next, hi, notify, hany] at hnotify
  | finished =>
      have hfinish := h (.finish i) rfl
      cases caller with
      | destructor => simp [next, hi] at hfinish
      | assignment other =>
          obtain ⟨y, hy⟩ := hsources i _ other hi
          simp [next, hi, hy] at hfinish

/-- And every handle is gone. -/
theorem destroyed_of_stuck (hsources : p.SourcesLive) (h : p.Stuck) :
    ∀ x ∈ p.handles, x = .destroyed := by
  intro x hx
  have hreturning := not_returning_of_stuck hsources h
  cases x with
  | destroyed => rfl
  | returning pc caller => exact absurd hx (hreturning pc caller)
  | live y =>
      obtain ⟨i, hi⟩ := List.getElem?_of_mem hx
      have hsource : p.isSource i = false := by
        rw [isSource, List.any_eq_false]
        intro x hx
        cases x with
        | live _ | destroyed => simp
        | returning pc caller => exact absurd hx (hreturning pc caller)
      have hdestroy := h (.destroy i) rfl
      simp [next, handle?, hi, hsource] at hdestroy

/-- Nothing is left to do only when every call is over and every connection
is back. -/
theorem drained_of_stuck (hn : 0 < n) (hp : p.Sound n) (h : p.Stuck) :
    (∀ a ∈ p.acquires, a = .returned ∨ a = .threw) ∧ (∀ x ∈ p.handles, x = .destroyed)
      ∧ p.idle.length = n := by
  have hdestroyed := destroyed_of_stuck hp.sources h
  have hnone : ∀ f : HandleState → Bool, f .destroyed = false → p.handles.countP f = 0 := by
    intro f hf
    rw [List.countP_eq_zero]
    intro x hx
    rw [hdestroyed x hx, hf]
    exact Bool.false_ne_true
  have hidle : p.idle.length = n := by
    obtain ⟨out, hinv, hcount⟩ := hp.owned
    have htotal := hinv.total
    rw [hnone _ rfl, hcount] at htotal
    omega
  refine ⟨fun a ha => ?_, hdestroyed, hidle⟩
  have hlooks := not_looks_of_stuck h
  cases a with
  | returned => exact .inl rfl
  | threw => exact .inr rfl
  | entered _ | woken _ _ => cases hlooks _ ha
  | asleep timed =>
      -- an idle connection has not been announced to anybody
      have hasleep : 0 < p.counts.asleep := List.countP_pos_iff.mpr ⟨_, ha, rfl⟩
      have hsignalled : p.counts.signalled = 0 := by
        refine List.countP_eq_zero.mpr fun a ha hnotified => ?_
        cases a with
        | woken _ _ => cases hlooks _ ha
        | entered _ | asleep _ | returned | threw => cases hnotified
      have hpending : p.counts.pending = 0 := hnone _ rfl
      have hle := hp.wakeup hasleep
      rw [hsignalled, hpending, show p.counts.items = p.idle.length from rfl, hidle] at hle
      omega

/-- **No call waits for ever.** Take any reachable state of a pool with at
least one connection. If from there on nobody calls `Acquire` and every owner
of a handle destroys it, each schedule has at most `p.work` steps, and two more
for each time that a waiter wakes up on its own or a connection breaks; and
where nobody has a further step, every call of `Acquire` is over, every handle
is gone and all `n` connections are idle. -/
theorem waits_end (hn : 0 < n) (h : (machine n).Run p out) {l : List Act}
    (hl : ∀ a ∈ l, a.givesBack = true ∨ a.disturbs = true) {o : List Note}
    (hfeed : Machine.feed next notes p l = some (p', o)) :
    l.length ≤ p.work + 2 * l.countP Act.disturbs
      ∧ (p'.Stuck → (∀ a ∈ p'.acquires, a = .returned ∨ a = .threw)
        ∧ (∀ x ∈ p'.handles, x = .destroyed) ∧ p'.idle.length = n) := by
  have hstep (p : Pool) (a : Act) (p' : Pool) (hp : p.Sound n)
      (ha : a.givesBack = true ∨ a.disturbs = true) (hn : p.next a = some p') :
      p'.Sound n ∧ p'.work < p.work + if a.disturbs then 2 else 0 := by
    have hs := step_of_next hn
    refine ⟨sound_step hp hs, ?_⟩
    rcases ha with hgives | hdisturbs
    · exact Nat.lt_of_lt_of_le (work_step hgives hs) (Nat.le_add_right ..)
    · rw [if_pos hdisturbs]
      exact Nat.lt_succ_of_le (work_disturbed hdisturbs hs)
  obtain ⟨hsound, hbound⟩ :=
    Machine.length_le_of_feed work Act.disturbs 2 hstep (sound_run h) hl hfeed
  exact ⟨Nat.le_trans (Nat.le_add_right ..) hbound, drained_of_stuck hn hsound⟩

/-- One connection: a caller has it, and another sleeps. -/
def sampleWaiting : Pool where
  idle := []
  heap := (construct 1).heap
  acquires := [.returned, .asleep false]
  handles := [.live { pool := true, conn := some 0 }]

def sampleSchedule : List Act :=
  [.wake 1, .check 1 false, .destroy 0, .testOpen 0 false, .push 0, .notify 0 (some 1),
    .finish 0, .check 1 false, .destroy 1, .testOpen 1 false, .push 1, .notify 1 none,
    .finish 1]

/-- Both are done. -/
def sampleEnd : Pool where
  idle := [0]
  heap := (construct 1).heap
  acquires := [.returned, .returned]
  handles := [.destroyed, .destroyed]

theorem stuck_sampleEnd : sampleEnd.Stuck := by
  intro a ha
  cases a with
  | check i _ | testOpen i _ | push i | finish i | destroy i | notify i _ =>
      match i with
      | 0 | 1 | _ + 2 => rfl
  | acquire | wake | moveConstruct | moveAssign | connectionBreaks => cases ha

/-- The second caller looks once for nothing; then the first one gives the
connection back, and the second one gets it. -/
theorem waits_end_sample :
    sampleSchedule.length ≤ sampleWaiting.work + 2 * sampleSchedule.countP Act.disturbs
      ∧ (∀ a ∈ sampleEnd.acquires, a = .returned ∨ a = .threw) ∧ sampleEnd.idle.length = 1 := by
  have hrun := (Machine.Run.start (M := machine 1) rfl).steps (Machine.steps_of_feed
    (show Machine.feed next notes (construct 1)
      [.acquire false, .check 0 false, .acquire false, .check 1 false] = some (sampleWaiting, [])
      from rfl))
  obtain ⟨hlength, hend⟩ := waits_end (by decide) hrun (by decide)
    (show Machine.feed next notes sampleWaiting sampleSchedule = some (sampleEnd, _) from rfl)
  obtain ⟨hacquires, -, hidle⟩ := hend stuck_sampleEnd
  exact ⟨hlength, hacquires, hidle⟩

end End

end Pool

end EventHistory
