import EventHistory.Pool.Model

/-!
# No wakeup of the pool is lost

`notify_one` runs after `mutex_` is released, so a connection can be in the
queue before anybody is told, and a thread that barges in can empty the queue
under a notified waiter. The pool refines the monitor of `Lib.Monitor`: idle
connections are its items, a `ReturnConnection` between its push and its
`notify_one` is a pending signal.

A call of `Acquire` without a timeout stays in that loop until it has a
connection: `untimed_never_throws`.
-/

namespace EventHistory

open Transition

/-- A notified waiter that has not yet run its predicate again. -/
def AcquirePc.isNotified : AcquirePc → Bool
  | .woken _ true => true
  | _ => false

/-- A `ReturnConnection` that has pushed and not yet executed `notify_one`. -/
def HandleState.hasPushed : HandleState → Bool
  | .returning (.notifying true) _ => true
  | _ => false

namespace Pool

/-- The pool as a monitor. -/
def counts (p : Pool) : Monitor where
  items := p.idle.length
  asleep := p.acquires.countP AcquirePc.isAsleep
  signalled := p.acquires.countP AcquirePc.isNotified
  pending := p.handles.countP HandleState.hasPushed

section Counts

variable {p : Pool} {i : Nat} {a : AcquirePc}

theorem asleep_set (ha : p.acquires[i]? = some a) (b : AcquirePc) :
    (p.acquires.set i b).countP AcquirePc.isAsleep + a.isAsleep.toNat =
      p.acquires.countP AcquirePc.isAsleep + b.isAsleep.toNat :=
  countP_set ha _ b

theorem notified_set (ha : p.acquires[i]? = some a) (b : AcquirePc) :
    (p.acquires.set i b).countP AcquirePc.isNotified + a.isNotified.toNat =
      p.acquires.countP AcquirePc.isNotified + b.isNotified.toNat :=
  countP_set ha _ b

theorem pending_set {h : Nat} {x : HandleState} (hx : p.handles[h]? = some x)
    (y : HandleState) :
    (p.handles.set h y).countP HandleState.hasPushed + x.hasPushed.toNat =
      p.handles.countP HandleState.hasPushed + y.hasPushed.toNat :=
  countP_set hx _ y

theorem isAsleep_of_looks (ha : a.looks = true) : a.isAsleep = false := by
  cases a with
  | entered timed => rfl
  | woken timed notified => rfl
  | asleep timed => cases ha
  | returned => cases ha
  | threw => cases ha

end Counts

/-- Every step of the pool is a step of the monitor. -/
theorem signalling_of_step {p p' : Pool} {a : Act} (h : Step p a p') :
    Monitor.Signalling p.counts p'.counts := by
  cases h with
  | acquire timed =>
      refine .skip rfl ?_ ?_ rfl
      · simp [counts, AcquirePc.isAsleep]
      · simp [counts, AcquirePc.isNotified]
  | @take i expired a c rest ha hlooks hidle =>
      have hasleep := asleep_set ha .returned
      have hnotified := notified_set ha .returned
      rw [isAsleep_of_looks hlooks] at hasleep
      refine .take ?_ ?_ ?_ ?_
      · simp [counts, hidle]
      · exact hasleep
      · have := Bool.toNat_le a.isNotified
        show p.acquires.countP _ ≤ (p.acquires.set i .returned).countP _ + 1
        omega
      · simp [counts, HandleState.hasPushed]
  | sleep ha hlooks hidle =>
      exact .nothing (by simp [counts, hidle]) (by simp [counts, setAcquire, hidle])
  | giveUp ha hidle =>
      exact .nothing (by simp [counts, hidle]) (by simp [counts, setAcquire, hidle])
  | @wake i timed ha =>
      exact .stray rfl (asleep_set ha (.woken timed false)) (notified_set ha (.woken timed false))
        rfl
  | moveConstruct hx =>
      exact .skip rfl rfl rfl (countP_moveConstruct (getElem?_of_handle? hx) _)
  | selfAssign hx => exact .skip rfl rfl rfl rfl
  | assignReturning hne hx hy hr =>
      exact .skip rfl rfl rfl (pending_set (getElem?_of_handle? hx) _)
  | assign hne hx hy hr =>
      exact .skip rfl rfl rfl
        (countP_takeOver hne (getElem?_of_handle? hx) (getElem?_of_handle? hy) _
          HandleState.hasPushed)
  | destroyReturning hx hr =>
      exact .skip rfl rfl rfl (pending_set (getElem?_of_handle? hx) _)
  | destroy hx hr => exact .skip rfl rfl rfl (pending_set (getElem?_of_handle? hx) _)
  | testOpen connects hh => exact .skip rfl rfl rfl (pending_set hh _)
  | @push h conn caller hh =>
      cases conn with
      | none => exact .skip rfl rfl rfl (pending_set hh _)
      | some c =>
          refine .produce ?_ rfl rfl (pending_set hh _)
          simp [counts, Pool.push]
  | @notify h i pushed timed caller hh ha =>
      have hpending := pending_set hh (.returning .finished caller)
      refine .signal rfl (asleep_set ha (.woken timed true))
        (notified_set ha (.woken timed true)) ?_
      have := Bool.toNat_le (HandleState.returning (.notifying pushed) caller).hasPushed
      show p.handles.countP _ ≤ (p.handles.set h _).countP _ + 1
      omega
  | notifyNobody hh hnone =>
      refine .signalNobody rfl ?_ ?_ rfl
      · exact List.countP_eq_zero.mpr fun a ha => by simp [hnone a ha]
      · exact List.countP_eq_zero.mpr fun a ha => by simp [hnone a ha]
  | finish hh => exact .skip rfl rfl rfl (pending_set hh _)
  | @finishAssign h other y hh hy =>
      have hne : h ≠ other := by
        rintro rfl
        rw [hh] at hy
        cases hy
      exact .skip rfl rfl rfl (countP_takeOver hne hh hy _ HandleState.hasPushed)
  | connectionBreaks c => exact .skip rfl rfl rfl rfl

/-- Nothing is under way that could still take an idle connection or wake a
waiter: every call of `Acquire` sleeps or is over, and every call of
`ReturnConnection` has notified. -/
structure Quiescent (p : Pool) : Prop where
  acquires : ∀ a ∈ p.acquires, a.looks = false
  returns : ∀ pc caller, .returning pc caller ∈ p.handles → pc = .finished

/-- **No wakeup is lost.** In every reachable state of a pool of any size, if
some waiter is asleep and not notified, there are at most as many idle
connections as notified waiters that have not run their predicate again and
`ReturnConnection` calls between push and `notify_one`. Hence no quiescent
state has a sleeping waiter and an idle connection. -/
theorem no_wakeup_lost {n : Nat} {p : Pool} {out : List Note} (h : (machine n).Run p out) :
    ((∃ a ∈ p.acquires, a.isAsleep = true) →
      p.idle.length ≤ p.acquires.countP AcquirePc.isNotified
        + p.handles.countP HandleState.hasPushed)
    ∧ (p.Quiescent → (∃ a ∈ p.acquires, a.isAsleep = true) → p.idle = []) := by
  have hinv : p.counts.NoLostWakeup := by
    refine Monitor.noLostWakeup_of_run counts ?_ ?_ h
    · rintro s rfl
      rfl
    · rintro s o s' ⟨a, hn, -⟩
      exact signalling_of_step (step_of_next hn)
  have hbound : (∃ a ∈ p.acquires, a.isAsleep = true) →
      p.idle.length ≤ p.acquires.countP AcquirePc.isNotified
        + p.handles.countP HandleState.hasPushed := by
    rintro hasleep
    exact hinv (List.countP_pos_iff.mpr hasleep)
  refine ⟨hbound, ?_⟩
  intro hq hasleep
  have hnotified : p.acquires.countP AcquirePc.isNotified = 0 := by
    rw [List.countP_eq_zero]
    intro a ha hnot
    have hlooks := hq.acquires a ha
    cases a with
    | woken timed notified => cases hlooks
    | _ => cases hnot
  have hpushed : p.handles.countP HandleState.hasPushed = 0 := by
    rw [List.countP_eq_zero]
    intro x hx hpush
    cases x with
    | returning pc caller =>
        rw [hq.returns pc caller hx] at hpush
        cases hpush
    | _ => cases hpush
  have hle := hbound hasleep
  rw [hnotified, hpushed] at hle
  exact List.length_eq_zero_iff.mp (Nat.le_zero.mp hle)

/-- One connection, taken by a first caller; a second one sleeps when the
first returns it, and has not been told yet. -/
theorem no_wakeup_lost_sample :
    ∃ p out, (machine 1).Run p out ∧ p.acquires = [.returned, .asleep true]
      ∧ p.handles = [.returning (.notifying true) .destructor]
      ∧ p.idle.length ≤ p.acquires.countP AcquirePc.isNotified
          + p.handles.countP HandleState.hasPushed := by
  have hrun := (Machine.Run.start (M := machine 1) rfl).steps (Machine.steps_of_feed
    (l := [.acquire false, .check 0 false, .acquire true, .check 1 false, .destroy 0,
      .testOpen 0 false, .push 0]) rfl)
  exact ⟨_, _, hrun, rfl, rfl, (no_wakeup_lost hrun).1 ⟨.asleep true, by decide, rfl⟩⟩

/-! ## Waiting without a timeout -/

/-- A call without a timeout that has not thrown. -/
def untimed : AcquirePc → Bool
  | .entered timed | .asleep timed | .woken timed _ => !timed
  | .returned => true
  | .threw => false

section Untimed

variable {p p' : Pool} {i : Nat}

/-- Calls stay in their place and are not given a timeout. -/
def KeepsUntimed (l l' : List AcquirePc) : Prop :=
  ∀ (i : Nat) (a : AcquirePc), l[i]? = some a → untimed a = true →
    ∃ b, l'[i]? = some b ∧ untimed b = true

theorem keepsUntimed_set {l : List AcquirePc} {a b : AcquirePc} (ha : l[i]? = some a)
    (hb : untimed a = true → untimed b = true) : KeepsUntimed l (l.set i b) := by
  intro j c hc huntimed
  by_cases hij : i = j
  · subst hij
    obtain rfl := Option.some.inj (ha.symm.trans hc)
    exact ⟨b, List.getElem?_set_self (List.getElem?_eq_some_iff.mp ha).1, hb huntimed⟩
  · exact ⟨c, (List.getElem?_set_ne hij).trans hc, huntimed⟩

theorem keepsUntimed_check {expired : Bool} (hn : p.check i expired = some p') :
    KeepsUntimed p.acquires p'.acquires := by
  unfold check at hn
  split at hn
  · obtain rfl := Option.some.inj hn
    exact keepsUntimed_set ‹_› fun _ => rfl
  · obtain rfl := Option.some.inj hn
    exact keepsUntimed_set ‹_› fun _ => rfl
  · rename_i timed ha _
    obtain rfl := Option.some.inj hn
    exact keepsUntimed_set ha id
  · rename_i timed notified ha _
    obtain rfl := Option.some.inj hn
    refine keepsUntimed_set ha ?_
    cases timed with
    | false => exact id
    | true => exact fun htimed => by cases htimed
  · cases hn

theorem keepsUntimed_step {a : Act} (hn : p.next a = some p') :
    KeepsUntimed p.acquires p'.acquires := by
  have hsame : p'.acquires = p.acquires → KeepsUntimed p.acquires p'.acquires := by
    intro hacquires i b hb huntimed
    exact ⟨b, hacquires ▸ hb, huntimed⟩
  cases step_of_next hn with
  | acquire timed =>
      intro i b hb huntimed
      exact ⟨b, (List.getElem?_append_left (List.getElem?_eq_some_iff.mp hb).1).trans hb, huntimed⟩
  | take ha hlooks hidle => exact keepsUntimed_check hn
  | sleep ha hlooks hidle => exact keepsUntimed_check hn
  | giveUp ha hidle => exact keepsUntimed_check hn
  | wake ha => exact keepsUntimed_set ha id
  | notify hh ha => exact keepsUntimed_set ha id
  | _ => exact hsame rfl

/-- `Acquire` without a timeout waits until it has a connection: it does not
throw, in any run and whatever the other callers do. -/
theorem untimed_never_throws {n : Nat} {o : List Note}
    (hi : p.acquires[i]? = some (.entered false)) (hs : (machine n).Steps p o p') :
    p'.acquires[i]? ≠ some .threw := by
  have huntimed : ∃ a, p'.acquires[i]? = some a ∧ untimed a = true := by
    induction hs with
    | refl => exact ⟨_, hi, rfl⟩
    | tail _ hstep ih =>
        obtain ⟨a, ha, huntimed⟩ := ih
        obtain ⟨act, hn, -⟩ := hstep
        exact keepsUntimed_step hn i a ha huntimed
  obtain ⟨a, ha, huntimed⟩ := huntimed
  intro hthrew
  rw [hthrew] at ha
  obtain rfl := Option.some.inj ha
  cases huntimed

end Untimed

end Pool

end EventHistory
