import Mathlib.Data.List.Nodup
import EventHistory.Pool.Model

/-!
# Who owns a connection

A connection object is in exactly one place: once in the idle queue or in one
handle, where a handle inside `ReturnConnection` owns the parameter of that
call until the push. `Inv` counts the places of each connection; every step
moves a connection, replaces it by its reconnected successor, or leaves all
counts alone.
-/

namespace EventHistory

open Transition

/-- The connection of a call of `ReturnConnection`, until it is pushed. -/
def ReturnPc.conn : ReturnPc → Option ConnId
  | .called conn | .locking conn => conn
  | .notifying _ | .finished => none

/-- The connection a handle owns. -/
def HandleState.conn : HandleState → Option ConnId
  | .live x => x.conn
  | .returning pc _ => pc.conn
  | .destroyed => none

def HandleState.owns (c : ConnId) (x : HandleState) : Bool := x.conn = some c

def HandleState.owning (x : HandleState) : Bool := x.conn.isSome

/-- What a handle has to be for its connection not to be lost: one that was
moved from owns nothing, and `ReturnConnection` is called with a connection. -/
def HandleState.Wf : HandleState → Prop
  | .live x => x.pool = x.conn.isSome
  | .returning (.called conn) _ | .returning (.locking conn) _ => conn.isSome = true
  | .returning (.notifying _) _ | .returning .finished _ | .destroyed => True

namespace Pool

/-- The connection objects that exist are those in the queue and those in
handles, each in one place; the queue and the owning handles are all that is
left of the `n` connections of the pool. -/
structure Inv (n : Nat) (p : Pool) (out : List Note) : Prop where
  nodup : p.heap.alive.Nodup
  fresh : ∀ c ∈ p.heap.alive, c < p.heap.next
  place : ∀ c, p.idle.count c + p.handles.countP (HandleState.owns c) = p.heap.alive.count c
  total : p.idle.length + p.handles.countP HandleState.owning + out.count .poolSizeReduced = n
  wf : ∀ x ∈ p.handles, x.Wf

theorem inv_construct (n : Nat) : (construct n).Inv n [] where
  nodup := List.nodup_range
  fresh := fun c hc => List.mem_range.mp hc
  place := fun c => rfl
  total := by simp [construct]
  wf := fun x hx => by cases hx

section Steps

variable {n : Nat} {p : Pool} {out : List Note} {h other : Nat}

/-- One handle moves on without changing what it owns. -/
theorem Inv.keep {x y : HandleState} (hp : p.Inv n out) (hx : p.handles[h]? = some x)
    (hconn : y.conn = x.conn) (hy : y.Wf) : (p.setHandle h y).Inv n out := by
  have howns : ∀ c, y.owns c = x.owns c := fun c => by
    rw [HandleState.owns, HandleState.owns, hconn]
  have howning : y.owning = x.owning := by
    rw [HandleState.owning, HandleState.owning, hconn]
  refine ⟨hp.nodup, hp.fresh, ?_, ?_, ?_⟩
  · intro c
    have hcount := countP_set hx (HandleState.owns c) y
    have hplace := hp.place c
    rw [howns c] at hcount
    simp only [setHandle]
    omega
  · have hcount := countP_set hx HandleState.owning y
    have htotal := hp.total
    rw [howning] at hcount
    simp only [setHandle]
    omega
  · intro z hz
    rcases List.mem_or_eq_of_mem_set hz with hz | rfl
    · exact hp.wf z hz
    · exact hy

/-- What a step reports beside a reduced size does not count. -/
theorem Inv.report (hp : p.Inv n out) {notes : List Note}
    (hnotes : notes.count .poolSizeReduced = 0) : p.Inv n (out ++ notes) := by
  refine ⟨hp.nodup, hp.fresh, hp.place, ?_, hp.wf⟩
  rw [List.count_append, hnotes, Nat.add_zero]
  exact hp.total

theorem Inv.quiet (hp : p.Inv n out) : p.Inv n (out ++ []) := by
  rw [List.append_nil]
  exact hp

/-- The calls of `Acquire` own nothing. -/
theorem Inv.acquires (hp : p.Inv n out) (acquires : List AcquirePc) :
    Pool.Inv n { p with acquires } out :=
  ⟨hp.nodup, hp.fresh, hp.place, hp.total, hp.wf⟩

/-- `Acquire` moves the front of the queue into a new handle. -/
theorem Inv.take {c : ConnId} {rest : List ConnId} (hp : p.Inv n out)
    (hidle : p.idle = c :: rest) (acquires : List AcquirePc) :
    Pool.Inv n { p with
      idle := rest
      acquires
      handles := p.handles ++ [.live { pool := true, conn := some c }] } out := by
  refine ⟨hp.nodup, hp.fresh, ?_, ?_, ?_⟩
  · intro d
    have hplace := hp.place d
    rw [hidle, List.count_cons] at hplace
    rw [List.countP_append, List.countP_singleton]
    by_cases hcd : c = d
    · simp [HandleState.owns, HandleState.conn, hcd] at hplace ⊢
      omega
    · simp [HandleState.owns, HandleState.conn, hcd] at hplace ⊢
      omega
  · have htotal := hp.total
    rw [hidle, List.length_cons] at htotal
    rw [List.countP_append]
    simp only [List.countP_singleton, HandleState.owning, HandleState.conn, Option.isSome_some,
      if_true]
    omega
  · intro x hx
    rcases List.mem_append.mp hx with hx | hx
    · exact hp.wf x hx
    · rw [List.mem_singleton.mp hx]
      rfl

/-- Moving a handle out of another leaves the source with nothing. -/
theorem Inv.moveConstruct {x : Handle} (hp : p.Inv n out)
    (hx : p.handles[h]? = some (.live x)) :
    Pool.Inv n { p with handles := p.handles.set h (.live .empty) ++ [.live x] } out := by
  refine ⟨hp.nodup, hp.fresh, ?_, ?_, ?_⟩
  · intro c
    have hcount := countP_moveConstruct hx (HandleState.owns c)
    have hplace := hp.place c
    rw [show HandleState.owns c (.live .empty) = false from rfl] at hcount
    simp only [Bool.toNat_false] at hcount ⊢
    omega
  · have hcount := countP_moveConstruct hx HandleState.owning
    have htotal := hp.total
    rw [show HandleState.owning (.live .empty) = false from rfl] at hcount
    simp only [Bool.toNat_false] at hcount ⊢
    omega
  · intro y hy
    rcases List.mem_append.mp hy with hy | hy
    · rcases List.mem_or_eq_of_mem_set hy with hy | rfl
      · exact hp.wf y hy
      · rfl
    · rw [List.mem_singleton.mp hy]
      exact hp.wf _ (List.mem_of_getElem? hx)

/-- The end of an assignment to a handle that owns nothing any more. -/
theorem Inv.takeOver {a : HandleState} {y : Handle} (hp : p.Inv n out) (hne : h ≠ other)
    (ha : p.handles[h]? = some a) (hnone : a.conn = none)
    (hy : p.handles[other]? = some (.live y)) : (p.takeOver h none other y).Inv n out := by
  refine ⟨hp.nodup, hp.fresh, ?_, ?_, ?_⟩
  · intro c
    have hcount := countP_takeOver hne ha hy none (HandleState.owns c)
    have hplace := hp.place c
    rw [show HandleState.owns c (.live .empty) = false from rfl, HandleState.owns, hnone] at hcount
    simp only [reduceCtorEq, decide_false, Bool.toNat_false, Nat.add_zero] at hcount
    rw [hcount]
    exact hplace
  · have hcount := countP_takeOver hne ha hy none HandleState.owning
    have htotal := hp.total
    rw [show HandleState.owning (.live .empty) = false from rfl, HandleState.owning,
      hnone] at hcount
    simp only [Option.isSome_none, Bool.toNat_false, Nat.add_zero] at hcount
    rw [hcount]
    exact htotal
  · intro z hz
    rcases List.mem_or_eq_of_mem_set hz with hz | rfl
    · rcases List.mem_or_eq_of_mem_set hz with hz | rfl
      · exact hp.wf z hz
      · exact hp.wf _ (List.mem_of_getElem? hy)
    · rfl

/-- A connection that a handle owns exists. -/
theorem Inv.mem_alive {x : HandleState} {c : ConnId} (hp : p.Inv n out)
    (hx : p.handles[h]? = some x) (hc : x.conn = some c) : c ∈ p.heap.alive := by
  have hpos : 0 < p.handles.countP (HandleState.owns c) :=
    countP_pos_of_getElem? hx (decide_eq_true hc)
  rw [← List.count_pos_iff, ← hp.place c]
  omega

/-- No two handles own a connection. -/
theorem Inv.owner_unique {x y : HandleState} {c : ConnId} (hp : p.Inv n out)
    (hx : p.handles[h]? = some x) (hxc : x.conn = some c)
    (hy : p.handles[other]? = some y) (hyc : y.conn = some c) : h = other := by
  have hplace := hp.place c
  have honce := List.nodup_iff_count_le_one.mp hp.nodup c
  have hle : p.handles.countP (HandleState.owns c) ≤ 1 := by omega
  exact eq_of_countP_le_one hle hx (decide_eq_true hxc) hy (decide_eq_true hyc)

/-- A reconnect puts a fresh connection in the place of the lost one. -/
theorem Inv.reconnect {x y : HandleState} {c : ConnId} (hp : p.Inv n out)
    (hx : p.handles[h]? = some x) (hc : x.conn = some c) (hy : y.conn = some p.heap.next)
    (hwf : y.Wf) :
    Pool.Inv n { p.setHandle h y with heap := (p.heap.connect).drop (some c) } out := by
  have hmem := hp.mem_alive hx hc
  have hlt := hp.fresh c hmem
  have hnew : p.heap.next ∉ p.heap.alive := fun hin => Nat.lt_irrefl _ (hp.fresh _ hin)
  have halive : (p.heap.alive ++ [p.heap.next]).Nodup := by
    rw [List.nodup_append]
    exact ⟨hp.nodup, List.nodup_singleton _, fun a ha b hb hab =>
      hnew (List.mem_singleton.mp hb ▸ hab ▸ ha)⟩
  refine ⟨halive.erase _, ?_, ?_, ?_, ?_⟩
  · intro d hd
    rcases List.mem_append.mp (List.mem_of_mem_erase hd) with hd | hd
    · exact Nat.lt_succ_of_lt (hp.fresh d hd)
    · exact List.mem_singleton.mp hd ▸ Nat.lt_succ_self _
  · intro d
    have hcount := countP_set hx (HandleState.owns d) y
    have hplace := hp.place d
    rw [HandleState.owns, HandleState.owns, hc, hy] at hcount
    simp only [setHandle, Heap.drop, Heap.connect, List.count_erase, List.count_append,
      List.count_singleton]
    by_cases hcd : c = d
    · have hnd : p.heap.next ≠ d := Nat.ne_of_gt (hcd ▸ hlt)
      have hpos := List.count_pos_iff.mpr hmem
      simp [hcd, hnd] at hcount hpos ⊢
      omega
    · by_cases hnd : p.heap.next = d
      · simp [hcd, hnd] at hcount ⊢
        omega
      · simp [hcd, hnd] at hcount ⊢
        omega
  · have hcount := countP_set hx HandleState.owning y
    have htotal := hp.total
    rw [HandleState.owning, HandleState.owning, hc, hy] at hcount
    simp only [setHandle, Option.isSome_some, Bool.toNat_true] at hcount ⊢
    omega
  · intro z hz
    rcases List.mem_or_eq_of_mem_set hz with hz | rfl
    · exact hp.wf z hz
    · exact hwf

/-- The test of `is_open`: the call goes on with the connection it has, or
with the one that replaces it. -/
theorem Inv.testOpen {conn : Option ConnId} {caller : Caller} (hp : p.Inv n out)
    (hh : p.handles[h]? = some (.returning (.called conn) caller)) (connects : Bool) :
    Pool.Inv n
      { p.setHandle h (.returning (.locking (Pool.testOpen p.heap conn connects).2.1) caller) with
        heap := (Pool.testOpen p.heap conn connects).1 }
      (out ++ (Pool.testOpen p.heap conn connects).2.2) := by
  have hsome : conn.isSome = true := hp.wf _ (List.mem_of_getElem? hh)
  obtain ⟨c, rfl⟩ := Option.isSome_iff_exists.mp hsome
  have hsame := hp.keep hh (y := .returning (.locking (some c)) caller) rfl rfl
  unfold Pool.testOpen
  cases hopen : (some c).any p.heap.isOpen with
  | true => exact hsame.report rfl
  | false =>
      cases connects with
      | true =>
          exact (hp.reconnect hh (y := .returning (.locking (some p.heap.next)) caller)
            rfl rfl rfl).report rfl
      | false => exact hsame.report rfl

/-- The push moves the connection from the handle to the end of the queue. -/
theorem Inv.push {conn : Option ConnId} {caller : Caller} (hp : p.Inv n out)
    (hh : p.handles[h]? = some (.returning (.locking conn) caller)) :
    Pool.Inv n
      { p.setHandle h (.returning (.notifying (Pool.push p.idle conn).2.1) caller) with
        idle := (Pool.push p.idle conn).1 }
      (out ++ (Pool.push p.idle conn).2.2) := by
  have hsome : conn.isSome = true := hp.wf _ (List.mem_of_getElem? hh)
  obtain ⟨c, rfl⟩ := Option.isSome_iff_exists.mp hsome
  refine Inv.report ?_ rfl
  refine ⟨hp.nodup, hp.fresh, ?_, ?_, ?_⟩
  · intro d
    have hcount := countP_set hh (HandleState.owns d) (.returning (.notifying true) caller)
    have hplace := hp.place d
    simp only [Pool.push, setHandle, List.count_append, List.count_singleton]
    by_cases hcd : c = d
    · simp [HandleState.owns, HandleState.conn, ReturnPc.conn, hcd] at hcount ⊢
      omega
    · simp [HandleState.owns, HandleState.conn, ReturnPc.conn, hcd] at hcount ⊢
      omega
  · have hcount := countP_set hh HandleState.owning (.returning (.notifying true) caller)
    have htotal := hp.total
    simp only [Pool.push, setHandle, List.length_append, List.length_singleton]
    simp only [HandleState.owning, HandleState.conn, ReturnPc.conn, Option.isSome_some,
      Option.isSome_none, Bool.toNat_true, Bool.toNat_false] at hcount htotal ⊢
    omega
  · intro z hz
    rcases List.mem_or_eq_of_mem_set hz with hz | rfl
    · exact hp.wf z hz
    · trivial

/-- A handle that does not return anything owns nothing. -/
theorem Inv.conn_eq_none {x : Handle} (hp : p.Inv n out) (hx : p.handles[h]? = some (.live x))
    (hr : x.returns = false) : x.conn = none := by
  have hwf : x.pool = x.conn.isSome := hp.wf _ (List.mem_of_getElem? hx)
  unfold Handle.returns at hr
  rw [hwf, Bool.and_self] at hr
  exact Option.isNone_iff_eq_none.mp (by simpa using hr)

theorem Inv.conn_isSome {x : Handle} (hr : x.returns = true) : x.conn.isSome = true :=
  (Bool.and_eq_true _ _ |>.mp hr).2

/-- Every step keeps the ownership of all connections. -/
theorem inv_step {p' : Pool} {a : Act} (hp : p.Inv n out) (h : Step p a p') :
    p'.Inv n (out ++ p.notes a) := by
  cases h with
  | acquire timed => exact (hp.acquires _).quiet
  | take ha hlooks hidle => exact (hp.take hidle _).quiet
  | sleep ha hlooks hidle => exact (hp.acquires _).quiet
  | giveUp ha hidle => exact (hp.acquires _).quiet
  | wake ha => exact (hp.acquires _).quiet
  | moveConstruct hx => exact (hp.moveConstruct (getElem?_of_handle? hx)).quiet
  | selfAssign hx => exact hp.quiet
  | @assignReturning h other x y hne hx hy hr =>
      exact (hp.keep (getElem?_of_handle? hx)
        (y := .returning (.called x.conn) (.assignment other)) rfl (Inv.conn_isSome hr)).quiet
  | @assign h other x y hne hx hy hr =>
      have hx' := getElem?_of_handle? hx
      have hnone := hp.conn_eq_none hx' hr
      rw [hnone]
      exact (hp.takeOver hne hx' hnone (getElem?_of_handle? hy)).quiet
  | @destroyReturning h x hx hr =>
      exact (hp.keep (getElem?_of_handle? hx)
        (y := .returning (.called x.conn) .destructor) rfl (Inv.conn_isSome hr)).quiet
  | @destroy h x hx hr =>
      have hx' := getElem?_of_handle? hx
      have hnone := hp.conn_eq_none hx' hr
      rw [hnone]
      exact (hp.keep hx' (y := .destroyed) hnone.symm trivial).quiet
  | @testOpen h conn caller connects hh =>
      have hnotes : p.notes (.testOpen h connects) = (Pool.testOpen p.heap conn connects).2.2 := by
        simp only [notes, hh]
      rw [hnotes]
      exact hp.testOpen hh connects
  | @push h conn caller hh =>
      have hnotes : p.notes (.push h) = (Pool.push p.idle conn).2.2 := by
        simp only [notes, hh]
      rw [hnotes]
      exact hp.push hh
  | @notify h i pushed timed caller hh ha =>
      exact ((hp.keep hh (y := .returning .finished caller) rfl trivial).acquires _).quiet
  | @notifyNobody h pushed caller hh hnone =>
      exact (hp.keep hh (y := .returning .finished caller) rfl trivial).quiet
  | @finish h hh => exact (hp.keep hh (y := .destroyed) rfl trivial).quiet
  | @finishAssign h other y hh hy =>
      have hne : h ≠ other := by
        rintro rfl
        rw [hh] at hy
        cases hy
      exact (hp.takeOver hne hh rfl hy).quiet
  | connectionBreaks c =>
      exact Inv.quiet ⟨hp.nodup, hp.fresh, hp.place, hp.total, hp.wf⟩

theorem inv_run (h : (machine n).Run p out) : p.Inv n out := by
  refine h.invariant ?_ ?_
  · rintro s rfl
    exact inv_construct n
  · rintro s out o s' hinv ⟨a, hn, rfl⟩
    exact inv_step hinv (step_of_next hn)

/-- A move out of a handle leaves it empty: the move construction at once,
the move assignment when it is over. -/
structure EmptiesSource (p : Pool) : Prop where
  moveConstruct : ∀ h p', p.next (.moveConstruct h) = some p' →
    p'.handles[h]? = some (.live .empty)
  moveAssign : ∀ h other p', h ≠ other → p.next (.moveAssign h other) = some p' →
    p'.handles[other]? = some (.live .empty)
      ∨ ∃ pc, p'.handles[h]? = some (.returning pc (.assignment other))
  finish : ∀ h other p', p.handles[h]? = some (.returning .finished (.assignment other)) →
    p.next (.finish h) = some p' → p'.handles[other]? = some (.live .empty)

theorem takeOver_other {y z : Handle} (hy : p.handles[other]? = some (.live y))
    (old : Option ConnId) : (p.takeOver h old other z).handles[other]? = some (.live .empty) := by
  have hlt : other < (p.handles.set h (.live z)).length := by
    rw [List.length_set]
    exact (List.getElem?_eq_some_iff.mp hy).1
  exact List.getElem?_set_self hlt

theorem emptiesSource (p : Pool) : p.EmptiesSource where
  moveConstruct h p' hn := by
    obtain ⟨x, hx, rfl⟩ := Option.map_eq_some_iff.mp hn
    have hlt := (List.getElem?_eq_some_iff.mp (getElem?_of_handle? hx)).1
    rw [List.getElem?_append_left (by rw [List.length_set]; exact hlt)]
    exact List.getElem?_set_self hlt
  moveAssign h other p' hne hn := by
    obtain ⟨x, hx, hn⟩ := Option.bind_eq_some_iff.mp hn
    obtain ⟨y, hy, rfl⟩ := Option.map_eq_some_iff.mp hn
    rw [if_neg hne]
    cases hr : x.returns with
    | true =>
        refine Or.inr ⟨.called x.conn, ?_⟩
        exact List.getElem?_set_self (List.getElem?_eq_some_iff.mp (getElem?_of_handle? hx)).1
    | false => exact Or.inl (takeOver_other (getElem?_of_handle? hy) _)
  finish h other p' hh hn := by
    simp only [next, hh] at hn
    split at hn
    · rename_i y hy
      obtain rfl := Option.some.inj hn
      exact takeOver_other hy _
    · cases hn

/-- A handle whose `pool_` is null owns nothing, and its destruction neither
calls `ReturnConnection` nor touches the queue or a connection. -/
theorem Inv.movedFrom {x : Handle} (hp : p.Inv n out) (hx : p.handle? h = some x)
    (hnull : x.pool = false) :
    x.conn = none ∧ p.next (.destroy h) = some (p.setHandle h .destroyed) := by
  have hr : x.returns = false := by
    rw [Handle.returns, hnull, Bool.false_and]
  have hnone := hp.conn_eq_none (getElem?_of_handle? hx) hr
  refine ⟨hnone, ?_⟩
  simp only [next, hx, Option.map_some, hr, Bool.false_eq_true, if_false, hnone, Heap.drop]
  rfl

/-- A call of `Acquire` that gives up has found the queue empty, and leaves
it so. -/
theorem idle_of_threw {p' : Pool} {i : Nat} {expired : Bool}
    (hn : p.next (.check i expired) = some p') (hthrew : p'.acquires[i]? = some .threw) :
    p'.idle = p.idle := by
  cases step_of_next hn with
  | take ha hlooks hidle =>
      rw [List.getElem?_set_self (List.getElem?_eq_some_iff.mp ha).1] at hthrew
      cases hthrew
  | sleep ha hlooks hidle => rfl
  | giveUp ha hidle => rfl

end Steps

/-- **Connections are owned exclusively and never leak.** In every reachable
state of a pool of any size: every connection object is in exactly one place,
once in the idle queue or in one handle, and nothing else is in any of them;
idle connections, owning handles and reports of a reduced size add up to `n`;
a moved-from handle is empty, owns nothing and returns nothing; assigning a
handle to itself changes nothing; and an `Acquire` that times out leaves the
queue as it was. -/
theorem connections_owned_once {n : Nat} {p : Pool} {out : List Note}
    (h : (machine n).Run p out) :
    (∀ c, p.idle.count c + p.handles.countP (HandleState.owns c) =
        if c ∈ p.heap.alive then 1 else 0)
    ∧ p.idle.length + p.handles.countP HandleState.owning + out.count .poolSizeReduced = n
    ∧ p.EmptiesSource
    ∧ (∀ i x, p.handle? i = some x → x.pool = false →
        x.conn = none ∧ p.next (.destroy i) = some (p.setHandle i .destroyed))
    ∧ (∀ i p', p.next (.moveAssign i i) = some p' → p' = p)
    ∧ ∀ i expired p', p.next (.check i expired) = some p' →
        p'.acquires[i]? = some .threw → p'.idle = p.idle := by
  have hp := inv_run h
  refine ⟨fun c => ?_, hp.total, emptiesSource p, fun i x hx hnull => hp.movedFrom hx hnull,
    fun i p' hn => ?_, fun i expired p' hn hthrew => idle_of_threw hn hthrew⟩
  · rw [hp.place c]
    by_cases hc : c ∈ p.heap.alive
    · rw [if_pos hc]
      exact List.count_eq_one_of_mem hp.nodup hc
    · rw [if_neg hc]
      exact List.count_eq_zero_of_not_mem hc
  · cases step_of_next hn with
    | selfAssign hx => rfl
    | assignReturning hne hx hy hr => exact absurd rfl hne
    | assign hne hx hy hr => exact absurd rfl hne

/-- A connection taken, moved to a second handle, and lost while the second
handle is destroyed: its replacement is on its way back to the queue. -/
theorem connections_owned_once_sample :
    ∃ p out, (machine 1).Run p out
      ∧ p.handles = [.live .empty, .returning (.locking (some 1)) .destructor]
      ∧ p.idle.length + p.handles.countP HandleState.owning + out.count .poolSizeReduced = 1 := by
  have hrun := (Machine.Run.start (M := machine 1) rfl).steps (Machine.steps_of_feed
    (l := [.acquire false, .check 0 false, .moveConstruct 0, .connectionBreaks 0, .destroy 1,
      .testOpen 1 true]) rfl)
  exact ⟨_, _, hrun, rfl, (connections_owned_once hrun).2.1⟩

end Pool

end EventHistory
