import EventHistory.Pool.Ownership

/-!
# What `ReturnConnection` pushes

An audit of the pool: beside the pool runs a record of what each call of
`ReturnConnection` found (the connection open, a reconnect that succeeded or
one that failed), and when the call is through its critical section the audit
outputs this together with what it did to the queue and to the real size of
the pool. No step of the pool reads the audit.

The comment of the function and its "Pool size reduced" branch say what a
failed reconnect should do (`Returned.Meets`). But the assignment of a
throwing `make_unique` leaves `conn` as it was, and it never was null: the
branch is out of reach, and the broken connection is pushed.
`returned_meet_iff`: a run is as the comment says exactly if no reconnect in
it fails.
-/

namespace EventHistory

open Transition

namespace Pool

/-- What `ReturnConnection` found. -/
inductive Found where
  | stillOpen (conn : ConnId)
  | reconnected (conn : ConnId)
  | reconnectFailed
deriving DecidableEq

/-- The connection a call was given and what became of its reconnect. -/
def found (heap : Heap) (conn : Option ConnId) (connects : Bool) : Found :=
  match conn with
  | some c =>
      if heap.isOpen c then .stillOpen c
      else if connects then .reconnected heap.next else .reconnectFailed
  | none => if connects then .reconnected heap.next else .reconnectFailed

/-- The connections the pool still has: idle ones, and those of handles. -/
def realSize (p : Pool) : Nat := p.idle.length + p.handles.countP HandleState.owning

/-- One call of `ReturnConnection`, behind its critical section: what it had
found, what it added to the queue, and by how much its own steps have made the
pool smaller. -/
structure Returned where
  found : Option Found
  pushed : List ConnId
  lost : Nat
deriving DecidableEq

/-- Only an open or a fresh connection goes into circulation; when the
reconnect failed, nothing is pushed and the pool is one smaller. -/
structure Returned.Meets (r : Returned) : Prop where
  pushed : ∀ c ∈ r.pushed, r.found = some (.stillOpen c) ∨ r.found = some (.reconnected c)
  failed : r.found = some .reconnectFailed → r.pushed = [] ∧ r.lost = 1

/-- The pool, and what the call on each handle has found and lost so far. -/
structure Audit where
  pool : Pool
  found : Nat → Option Found := fun _ => none
  lost : Nat → Nat := fun _ => 0

namespace Audit

/-- What the audit notes down in a step. -/
def note (s : Audit) : Act → Nat → Option Found
  | .testOpen h connects => Function.update s.found h <|
      match s.pool.handles[h]? with
      | some (.returning (.called conn) _) => some (Pool.found s.pool.heap conn connects)
      | _ => s.found h
  | _ => s.found

/-- What the test costs the pool: a call that gave up its connection there would
own it no longer. -/
def loss (s : Audit) (pool : Pool) : Act → Nat → Nat
  | .testOpen h _ => Function.update s.lost h (s.pool.realSize - pool.realSize)
  | _ => s.lost

def next (s : Audit) (a : Act) : Option Audit :=
  (s.pool.next a).map fun pool => { pool, found := s.note a, lost := s.loss pool a }

def records (s : Audit) : Act → List Returned
  | .push h =>
      match s.pool.next (.push h) with
      | some pool =>
          [{ found := s.found h, pushed := pool.idle.drop s.pool.idle.length,
             lost := s.lost h + (s.pool.realSize - pool.realSize) }]
      | none => []
  | _ => []

/-- The audited pool of `n` connections; its output are the returns. -/
def machine (n : Nat) : Machine Audit Returned :=
  .ofFn (· = { pool := construct n }) next records

/-- What the audit says is what the pool is about to push: the connection
that was open, or the fresh one. -/
structure Inv (n : Nat) (s : Audit) : Prop where
  run : ∃ notes, (Pool.machine n).Run s.pool notes
  known : ∀ h conn caller, s.pool.handles[h]? = some (.returning (.locking conn) caller) →
    (∃ c, conn = some c ∧ (s.found h = some (.stillOpen c) ∨ s.found h = some (.reconnected c)))
      ∨ s.found h = some .reconnectFailed

section Step

variable {p p' : Pool} {a : Act} {h : Nat} {conn : Option ConnId} {caller : Caller}

theorem getElem?_of_set {α : Type} {l : List α} {k h : Nat} {x y : α}
    (hget : (l.set k x)[h]? = some y) (hne : x ≠ y) : l[h]? = some y := by
  rw [List.getElem?_set] at hget
  split at hget
  · split at hget
    · exact absurd (Option.some.inj hget) hne
    · cases hget
  · exact hget

theorem getElem?_of_snoc {α : Type} {l : List α} {h : Nat} {x y : α}
    (hget : (l ++ [x])[h]? = some y) (hne : x ≠ y) : l[h]? = some y := by
  rcases Nat.lt_or_ge h l.length with hlt | hge
  · rwa [List.getElem?_append_left hlt] at hget
  · rw [List.getElem?_append_right hge, List.getElem?_singleton] at hget
    split at hget
    · exact absurd (Option.some.inj hget) hne
    · cases hget

/-- A call gets to its critical section by its test, and stays there until
it is through. -/
theorem locking_of_step (hs : Step p a p')
    (hh : p'.handles[h]? = some (.returning (.locking conn) caller)) :
    p.handles[h]? = some (.returning (.locking conn) caller)
    ∨ ∃ connects conn₀, a = .testOpen h connects
      ∧ p.handles[h]? = some (.returning (.called conn₀) caller)
      ∧ conn = (Pool.testOpen p.heap conn₀ connects).2.1 := by
  have htakeOver : ∀ {k other old y}, (p.takeOver k old other y).handles[h]? =
      some (.returning (.locking conn) caller) →
      p.handles[h]? = some (.returning (.locking conn) caller) := fun hget =>
    getElem?_of_set (getElem?_of_set hget (by simp)) (by simp)
  cases hs with
  | acquire timed => exact Or.inl hh
  | take ha hlooks hidle => exact Or.inl (getElem?_of_snoc hh (by simp))
  | sleep ha hlooks hidle => exact Or.inl hh
  | giveUp ha hidle => exact Or.inl hh
  | wake ha => exact Or.inl hh
  | moveConstruct hx =>
      exact Or.inl (getElem?_of_set (getElem?_of_snoc hh (by simp)) (by simp))
  | selfAssign hx => exact Or.inl hh
  | assignReturning hne hx hy hr => exact Or.inl (getElem?_of_set hh (by simp))
  | assign hne hx hy hr => exact Or.inl (htakeOver hh)
  | destroyReturning hx hr => exact Or.inl (getElem?_of_set hh (by simp))
  | destroy hx hr => exact Or.inl (getElem?_of_set hh (by simp))
  | @testOpen k conn₀ caller₀ connects hk =>
      by_cases hkh : k = h
      · subst hkh
        have hlt := (List.getElem?_eq_some_iff.mp hk).1
        simp only [setHandle, List.getElem?_set_self hlt, Option.some.injEq,
          HandleState.returning.injEq, ReturnPc.locking.injEq] at hh
        obtain ⟨rfl, rfl⟩ := hh
        exact Or.inr ⟨connects, conn₀, rfl, hk, rfl⟩
      · simp only [setHandle, List.getElem?_set_ne hkh] at hh
        exact Or.inl hh
  | push hk => exact Or.inl (getElem?_of_set hh (by simp))
  | notify hk ha => exact Or.inl (getElem?_of_set hh (by simp))
  | notifyNobody hk hnobody => exact Or.inl (getElem?_of_set hh (by simp))
  | finish hk => exact Or.inl (getElem?_of_set hh (by simp))
  | finishAssign hk hy => exact Or.inl (htakeOver hh)
  | connectionBreaks c => exact Or.inl hh

/-- The test leaves the call with the connection that the audit notes. -/
theorem testOpen_found (heap : Heap) (c : ConnId) (connects : Bool) :
    (∃ c', (Pool.testOpen heap (some c) connects).2.1 = some c'
      ∧ (Pool.found heap (some c) connects = .stillOpen c'
        ∨ Pool.found heap (some c) connects = .reconnected c'))
    ∨ Pool.found heap (some c) connects = .reconnectFailed := by
  unfold Pool.testOpen Pool.found
  by_cases hopen : heap.isOpen c = true
  · simp [hopen]
  · cases connects with
    | true => simp [hopen]
    | false => simp [hopen]

end Step

variable {n : Nat} {s : Audit}

/-- The audit of a call is not touched while it waits for the lock. -/
theorem note_of_locking {h : Nat} {conn : Option ConnId} {caller : Caller}
    (hh : s.pool.handles[h]? = some (.returning (.locking conn) caller)) (a : Act) :
    s.note a h = s.found h := by
  cases a with
  | testOpen k connects =>
      by_cases hkh : k = h
      · subst hkh
        simp only [note, hh, Function.update_self]
      · exact Function.update_of_ne (Ne.symm hkh) ..
  | _ => rfl

theorem inv_step {s' : Audit} {a : Act} (hs : s.Inv n) (hn : s.next a = some s') : s'.Inv n := by
  obtain ⟨pool, hpool, rfl⟩ := Option.map_eq_some_iff.mp hn
  obtain ⟨notes, hrun⟩ := hs.run
  refine ⟨⟨_, hrun.step ⟨a, hpool, rfl⟩⟩, ?_⟩
  intro h conn caller hh
  rcases locking_of_step (step_of_next hpool) hh with hbefore | ⟨connects, conn₀, rfl, hcalled, rfl⟩
  · have hsame : ({ pool, found := s.note a, lost := s.loss pool a } : Audit).found h = s.found h :=
      note_of_locking hbefore a
    rw [hsame]
    exact hs.known h conn caller hbefore
  · have hsome : conn₀.isSome = true := (inv_run hrun).wf _ (List.mem_of_getElem? hcalled)
    obtain ⟨c, rfl⟩ := Option.isSome_iff_exists.mp hsome
    have hnote : s.note (.testOpen h connects) h =
        some (Pool.found s.pool.heap (some c) connects) := by
      simp only [note, hcalled, Function.update_self]
    simp only [hnote]
    simpa using testOpen_found s.pool.heap c connects

theorem run_inv {out : List Returned} (h : (machine n).Run s out) : s.Inv n := by
  refine h.invariant (I := fun s _ => s.Inv n) ?_ ?_
  · rintro s rfl
    exact ⟨⟨[], .start rfl⟩, fun h conn caller hh => by cases hh⟩
  · rintro s out o s' hs ⟨a, hn, -⟩
    exact inv_step hs hn

/-- The critical section pushes the connection that the call still has. -/
theorem record_push {h : Nat} {s' : Audit} (hs : s.Inv n) (hn : s.next (.push h) = some s') :
    ∃ c, s.records (.push h) =
        [{ found := s.found h, pushed := [c], lost := s.lost h }]
      ∧ (s.found h = some (.stillOpen c) ∨ s.found h = some (.reconnected c)
        ∨ s.found h = some .reconnectFailed) := by
  obtain ⟨pool, hpool, rfl⟩ := Option.map_eq_some_iff.mp hn
  obtain ⟨notes, hrun⟩ := hs.run
  cases step_of_next hpool with
  | @push _ conn caller hh =>
      have hsome : conn.isSome = true := (inv_run hrun).wf _ (List.mem_of_getElem? hh)
      obtain ⟨c, rfl⟩ := Option.isSome_iff_exists.mp hsome
      refine ⟨c, ?_, ?_⟩
      · have hsize : ({ s.pool.setHandle h (.returning (.notifying true) caller) with
            idle := s.pool.idle ++ [c] } : Pool).realSize = s.pool.realSize := by
          have hcount := countP_set hh HandleState.owning (.returning (.notifying true) caller)
          simp only [realSize, setHandle, List.length_append, List.length_singleton]
          simp only [HandleState.owning, HandleState.conn, ReturnPc.conn, Option.isSome_some,
            Option.isSome_none, Bool.toNat_true, Bool.toNat_false] at hcount
          omega
        simp only [records, hpool, Pool.push, List.drop_left, hsize, Nat.sub_self, Nat.add_zero]
      · rcases hs.known h _ _ hh with ⟨c', hc, hfound⟩ | hfound
        · obtain rfl := Option.some.inj hc
          rcases hfound with hfound | hfound
          · exact Or.inl hfound
          · exact Or.inr (Or.inl hfound)
        · exact Or.inr (Or.inr hfound)

/-- A record meets the comment exactly if the reconnect has not failed. -/
theorem records_meet {a : Act} {s' : Audit} (hs : s.Inv n) (hn : s.next a = some s') :
    ∀ r ∈ s.records a, r.Meets ↔ r.found ≠ some .reconnectFailed := by
  intro r hr
  cases a with
  | push h =>
      obtain ⟨c, hrecords, hfound⟩ := record_push hs hn
      rw [hrecords] at hr
      obtain rfl := List.mem_singleton.mp hr
      constructor
      · intro hmeets hfailed
        exact absurd (hmeets.failed hfailed).1 (List.cons_ne_nil c [])
      · intro hnot
        refine ⟨?_, fun hfailed => absurd hfailed hnot⟩
        intro c' hc'
        obtain rfl := List.mem_singleton.mp hc'
        rcases hfound with hfound | hfound | hfound
        · exact Or.inl hfound
        · exact Or.inr hfound
        · exact absurd hfound hnot
  | _ => cases hr

end Audit

/-- **When a broken connection stays out of circulation.** In every run of
the pool, with connections breaking and reconnects failing in any pattern:
all calls of `ReturnConnection` do what the comment says exactly if none of
their reconnects fails. -/
theorem returned_meet_iff {n : Nat} {s : Audit} {out : List Returned}
    (h : (Audit.machine n).Run s out) :
    (∀ r ∈ out, r.Meets) ↔ ∀ r ∈ out, r.found ≠ some .reconnectFailed := by
  have hall : ∀ r ∈ out, r.Meets ↔ r.found ≠ some .reconnectFailed := by
    induction h with
    | start h0 => exact fun r hr => absurd hr List.not_mem_nil
    | @step s s' out o hrun hstep ih =>
        obtain ⟨a, hn, rfl⟩ := hstep
        intro r hr
        rcases List.mem_append.mp hr with hr | hr
        · exact ih r hr
        · exact Audit.records_meet (Audit.run_inv hrun) hn r hr
  exact forall₂_congr hall

/-- The one connection breaks in use and is replaced on its return. -/
theorem returned_meet_iff_sample :
    ∃ s, (Audit.machine 1).Run s [⟨some (.reconnected 1), [1], 0⟩]
      ∧ ∀ r ∈ [(⟨some (.reconnected 1), [1], 0⟩ : Returned)], r.Meets := by
  have hrun := (Machine.Run.start (M := Audit.machine 1) rfl).steps (Machine.steps_of_feed
    (l := [.acquire false, .check 0 false, .connectionBreaks 0, .destroy 0, .testOpen 0 true,
      .push 0]) rfl)
  exact ⟨_, hrun, (returned_meet_iff hrun).mpr (by decide)⟩

/-- It breaks, the reconnect fails, and the broken connection is the next one
that `Acquire` will hand out. -/
theorem broken_connection_returned :
    ∃ s, (Audit.machine 1).Run s [⟨some .reconnectFailed, [0], 0⟩]
      ∧ s.pool.idle = [0] ∧ s.pool.heap.isOpen 0 = false
      ∧ ¬(⟨some .reconnectFailed, [0], 0⟩ : Returned).Meets := by
  have hrun := (Machine.Run.start (M := Audit.machine 1) rfl).steps (Machine.steps_of_feed
    (l := [.acquire false, .check 0 false, .connectionBreaks 0, .destroy 0, .testOpen 0 false,
      .push 0]) rfl)
  exact ⟨_, hrun, rfl, rfl, fun h => absurd (h.failed rfl).1 (by decide)⟩

end Pool

end EventHistory
