import EventHistory.Pool.Ownership

/-!
# `CreatePreparedPool`

The pool with the loop that prepares its connections. While
`CreatePreparedPool` runs, the creating thread is the only one to use the
pool: it acquires a connection, prepares the four statements on it, and its
handle returns it, `pool_size` times. Then the pool is handed out and runs on
its own. Connections may break at any time.

Prepared statements belong to a server session. A connection that
`ReturnConnection` makes anew has none, and nobody prepares it:
`connections_prepared` is about the runs in which this does not happen, and
`reconnected_not_prepared` is one in which it does.
-/

namespace EventHistory

open Transition

/-- The statements of `PrepareStatements`, in order. -/
def statements : List String := ["insert_event", "insert_payload", "get_events", "get_stats"]

/-- `conn.prepare(name, ...)` succeeded. -/
def Heap.prepare (h : Heap) (c : ConnId) (name : String) : Heap :=
  { h with prepared := Function.update h.prepared c (h.prepared c ++ [name]) }

/-- The program points of `CreatePreparedPool`: the head of the loop, the
preparer with the statements still to prepare, and the return of the handle
at the end of an iteration. -/
inductive CreatorPc where
  | loop (i : Nat)
  | preparing (i : Nat) (conn : ConnId) (todo : List String)
  | returning (i : Nat) (pc : ReturnPc)
  | returned

structure PreparedPool where
  creator : CreatorPc := .loop 0
  pool : Pool

namespace PreparedPool

inductive Act where
  | acquire
  | prepare (ok : Bool)
  | release
  | testOpen (connects : Bool)
  | push
  | notify
  | endLoop
  | use (a : Pool.Act)

/-- A step of the creating thread or of the users of the pool; `n` is
`pool_size`. -/
def next (n : Nat) (q : PreparedPool) (a : Act) : Option PreparedPool :=
  match q.creator, a with
  | .loop i, .acquire =>
      match q.pool.idle with
      | c :: rest =>
          if i < n then
            some { creator := .preparing i c statements, pool := { q.pool with idle := rest } }
          else none
      | [] => none
  | .loop i, .endLoop => if i < n then none else some { q with creator := .returned }
  | .preparing i c (name :: todo), .prepare true =>
      if q.pool.heap.isOpen c then
        some { creator := .preparing i c todo
               pool := { q.pool with heap := q.pool.heap.prepare c name } }
      else none
  -- the preparer throws; the loop catches it and goes on to the destructor
  | .preparing i c (_ :: _), .prepare false => some { q with creator := .returning i (.called c) }
  | .preparing i c [], .release => some { q with creator := .returning i (.called c) }
  | .returning i (.called conn), .testOpen connects =>
      let (heap, conn, _) := Pool.testOpen q.pool.heap conn connects
      some { creator := .returning i (.locking conn), pool := { q.pool with heap } }
  | .returning i (.locking conn), .push =>
      let (idle, pushed, _) := Pool.push q.pool.idle conn
      some { creator := .returning i (.notifying pushed), pool := { q.pool with idle } }
  | .returning i (.notifying _), .notify => some { q with creator := .loop (i + 1) }
  | .returned, .use a => (q.pool.next a).map fun pool => { q with pool }
  | _, .use (.connectionBreaks c) =>
      some { q with pool := { q.pool with heap := q.pool.heap.close c } }
  | _, _ => none

/-- What each step does, with its guard. -/
inductive Step (n : Nat) : PreparedPool → Act → PreparedPool → Prop
  | acquire {i : Nat} {c : ConnId} {rest : List ConnId} {p : Pool} :
      i < n → p.idle = c :: rest →
      Step n ⟨.loop i, p⟩ .acquire ⟨.preparing i c statements, { p with idle := rest }⟩
  | endLoop {i : Nat} {p : Pool} : n ≤ i → Step n ⟨.loop i, p⟩ .endLoop ⟨.returned, p⟩
  | prepare {i : Nat} {c : ConnId} {name : String} {todo : List String} {p : Pool} :
      p.heap.isOpen c = true →
      Step n ⟨.preparing i c (name :: todo), p⟩ (.prepare true)
        ⟨.preparing i c todo, { p with heap := p.heap.prepare c name }⟩
  | prepareThrows {i : Nat} {c : ConnId} {name : String} {todo : List String} {p : Pool} :
      Step n ⟨.preparing i c (name :: todo), p⟩ (.prepare false) ⟨.returning i (.called c), p⟩
  | release {i : Nat} {c : ConnId} {p : Pool} :
      Step n ⟨.preparing i c [], p⟩ .release ⟨.returning i (.called c), p⟩
  | testOpen {i : Nat} {conn : Option ConnId} {p : Pool} (connects : Bool) :
      Step n ⟨.returning i (.called conn), p⟩ (.testOpen connects)
        ⟨.returning i (.locking (Pool.testOpen p.heap conn connects).2.1),
          { p with heap := (Pool.testOpen p.heap conn connects).1 }⟩
  | push {i : Nat} {conn : Option ConnId} {p : Pool} :
      Step n ⟨.returning i (.locking conn), p⟩ .push
        ⟨.returning i (.notifying (Pool.push p.idle conn).2.1),
          { p with idle := (Pool.push p.idle conn).1 }⟩
  | notify {i : Nat} {pushed : Bool} {p : Pool} :
      Step n ⟨.returning i (.notifying pushed), p⟩ .notify ⟨.loop (i + 1), p⟩
  | use {a : Pool.Act} {p p' : Pool} :
      p.next a = some p' → Step n ⟨.returned, p⟩ (.use a) ⟨.returned, p'⟩
  | connectionBreaks {creator : CreatorPc} {p : Pool} (c : ConnId) :
      Step n ⟨creator, p⟩ (.use (.connectionBreaks c)) ⟨creator, { p with heap := p.heap.close c }⟩

theorem step_of_next {n : Nat} {q q' : PreparedPool} {a : Act} (h : next n q a = some q') :
    Step n q a q' := by
  obtain ⟨creator, p⟩ := q
  unfold next at h
  split at h
  · rename_i i hq
    obtain rfl : creator = .loop i := hq
    split at h
    · rename_i c rest hidle
      by_cases hi : i < n
      · rw [if_pos hi] at h
        obtain rfl := Option.some.inj h
        exact .acquire hi hidle
      · rw [if_neg hi] at h
        cases h
    · cases h
  · rename_i i hq
    obtain rfl : creator = .loop i := hq
    by_cases hi : i < n
    · rw [if_pos hi] at h
      cases h
    · rw [if_neg hi] at h
      obtain rfl := Option.some.inj h
      exact .endLoop (Nat.le_of_not_lt hi)
  · rename_i i c name todo hq
    obtain rfl : creator = .preparing i c (name :: todo) := hq
    split at h
    · obtain rfl := Option.some.inj h
      exact .prepare ‹_›
    · cases h
  · rename_i i c name todo hq
    obtain rfl : creator = .preparing i c (name :: todo) := hq
    obtain rfl := Option.some.inj h
    exact .prepareThrows
  · rename_i i c hq
    obtain rfl : creator = .preparing i c [] := hq
    obtain rfl := Option.some.inj h
    exact .release
  · rename_i i conn connects hq
    obtain rfl : creator = .returning i (.called conn) := hq
    obtain rfl := Option.some.inj h
    exact .testOpen connects
  · rename_i i conn hq
    obtain rfl : creator = .returning i (.locking conn) := hq
    obtain rfl := Option.some.inj h
    exact .push
  · rename_i i pushed hq
    obtain rfl : creator = .returning i (.notifying pushed) := hq
    obtain rfl := Option.some.inj h
    exact .notify
  · rename_i b hq
    obtain rfl : creator = .returned := hq
    obtain ⟨p', hp', rfl⟩ := Option.map_eq_some_iff.mp h
    exact .use hp'
  · rename_i c hq
    obtain rfl := Option.some.inj h
    exact .connectionBreaks c
  · cases h

def init (n : Nat) (q : PreparedPool) : Prop := q = { pool := Pool.construct n }

/-- `CreatePreparedPool(conn_str, n, PrepareStatements)` and all later use of
the pool. -/
def machine (n : Nat) : Machine PreparedPool Unit := .ofFn (init n) (next n) fun _ _ => []

/-! ## What has to hold of a run -/

/-- The test of `is_open` finds the connection open, or cannot replace it. -/
def NotReplaced (heap : Heap) (conn : Option ConnId) (connects : Bool) : Prop :=
  conn.any heap.isOpen = true ∨ connects = false

/-- The steps that do no harm: no call of `ReturnConnection` replaces its
connection, and a preparer that fails has lost its connection. -/
def Harmless (q : PreparedPool) : Act → Prop
  | .prepare false => ∀ i c todo, q.creator = .preparing i c todo → q.pool.heap.isOpen c = false
  | .testOpen connects => ∀ i conn, q.creator = .returning i (.called conn) →
      NotReplaced q.pool.heap conn connects
  | .use (.testOpen h connects) => ∀ conn caller,
      q.pool.handles[h]? = some (.returning (.called conn) caller) →
      NotReplaced q.pool.heap conn connects
  | _ => True

/-- The runs whose steps are all harmless. -/
def harmlessMachine (n : Nat) : Machine PreparedPool Unit :=
  .ofFnWhere (init n) (next n) (fun _ _ => []) Harmless

/-- All four statements are prepared on an open connection. -/
def Ready (heap : Heap) (c : ConnId) : Prop :=
  heap.isOpen c = true → ∀ name ∈ statements, name ∈ heap.prepared c

/-- Every connection of the idle queue or of a handle is ready. -/
def AllReady (p : Pool) : Prop :=
  (∀ c ∈ p.idle, Ready p.heap c) ∧ ∀ x ∈ p.handles, ∀ c, x.conn = some c → Ready p.heap c

/-! ### Using the pool -/

section Use

variable {p p' : Pool} {heap : Heap} {conn : Option ConnId} {connects : Bool}

theorem testOpen_of_notReplaced (h : NotReplaced heap conn connects) :
    (Pool.testOpen heap conn connects).1 = heap
      ∧ (Pool.testOpen heap conn connects).2.1 = conn := by
  unfold Pool.testOpen
  rcases h with hopen | rfl
  · rw [if_pos hopen]
    exact ⟨rfl, rfl⟩
  · by_cases hopen : conn.any heap.isOpen = true
    · rw [if_pos hopen]
      exact ⟨rfl, rfl⟩
    · rw [if_neg hopen, if_neg Bool.false_ne_true]
      exact ⟨rfl, rfl⟩

theorem ready_close {c d : ConnId} (h : Ready heap d) : Ready (heap.close c) d := by
  intro hopen
  have hne : d ≠ c := by
    rintro rfl
    simp [Heap.close] at hopen
  exact h (by simpa [Heap.close, Function.update_of_ne hne] using hopen)

theorem ready_drop {d : ConnId} (h : Ready heap d) (old : Option ConnId) :
    Ready (heap.drop old) d := by
  cases old with
  | none => exact h
  | some c => exact h

theorem ready_prepare {c d : ConnId} (h : Ready heap d) (name : String) :
    Ready (heap.prepare c name) d := by
  intro hopen s hs
  have hmem := h hopen s hs
  by_cases hdc : d = c
  · subst hdc
    simp [Heap.prepare, hmem]
  · simpa [Heap.prepare, Function.update_of_ne hdc] using hmem

/-- One handle moves on with a ready connection, or with none. -/
theorem AllReady.set {h : Nat} {y : HandleState} (hp : AllReady p)
    (hy : ∀ c, y.conn = some c → Ready p.heap c) : AllReady (p.setHandle h y) := by
  refine ⟨hp.1, ?_⟩
  intro z hz c hc
  rcases List.mem_or_eq_of_mem_set hz with hz | rfl
  · exact hp.2 z hz c hc
  · exact hy c hc

theorem AllReady.ofHandle {h : Nat} {x : HandleState} (hp : AllReady p)
    (hx : p.handles[h]? = some x) : ∀ c, x.conn = some c → Ready p.heap c :=
  fun c hc => hp.2 x (List.mem_of_getElem? hx) c hc

theorem AllReady.takeOver {h other : Nat} {y : Handle} (hp : AllReady p)
    (hy : p.handles[other]? = some (.live y)) (old : Option ConnId) :
    AllReady (p.takeOver h old other y) := by
  have hset := (hp.set (h := h) (hp.ofHandle hy)).set (h := other) (y := .live .empty)
    fun c hc => by cases hc
  exact ⟨fun c hc => ready_drop (hset.1 c hc) old,
    fun x hx c hc => ready_drop (hset.2 x hx c hc) old⟩

/-- The users keep all connections ready, as long as none is replaced. -/
theorem allReady_step {a : Pool.Act} (hp : AllReady p) (hs : Pool.Step p a p')
    (hharm : ∀ h connects conn caller, a = .testOpen h connects →
      p.handles[h]? = some (.returning (.called conn) caller) →
      NotReplaced p.heap conn connects) : AllReady p' := by
  cases hs with
  | acquire timed => exact hp
  | @take i expired a c rest ha hlooks hidle =>
      refine ⟨fun d hd => hp.1 d (hidle ▸ List.mem_cons_of_mem _ hd), ?_⟩
      intro x hx d hd
      rcases List.mem_append.mp hx with hx | hx
      · exact hp.2 x hx d hd
      · rw [List.mem_singleton.mp hx] at hd
        obtain rfl := Option.some.inj hd
        exact hp.1 c (hidle ▸ List.mem_cons_self)
  | sleep ha hlooks hidle => exact hp
  | giveUp ha hidle => exact hp
  | wake ha => exact hp
  | @moveConstruct h x hx =>
      have hx' := Pool.getElem?_of_handle? hx
      have hset := hp.set (h := h) (y := .live .empty) fun c hc => by cases hc
      refine ⟨hset.1, ?_⟩
      intro z hz c hc
      rcases List.mem_append.mp hz with hz | hz
      · exact hset.2 z hz c hc
      · rw [List.mem_singleton.mp hz] at hc
        exact hp.ofHandle hx' c hc
  | selfAssign hx => exact hp
  | @assignReturning h other x y hne hx hy hr =>
      exact hp.set fun c hc => hp.ofHandle (Pool.getElem?_of_handle? hx) c hc
  | assign hne hx hy hr => exact hp.takeOver (Pool.getElem?_of_handle? hy) _
  | destroyReturning hx hr =>
      exact hp.set fun c hc => hp.ofHandle (Pool.getElem?_of_handle? hx) c hc
  | @destroy h x hx hr =>
      have hset := hp.set (h := h) (y := .destroyed) fun c hc => by cases hc
      exact ⟨fun c hc => ready_drop (hset.1 c hc) _,
        fun z hz c hc => ready_drop (hset.2 z hz c hc) _⟩
  | @testOpen h conn caller connects hh =>
      obtain ⟨hheap, hconn⟩ := testOpen_of_notReplaced (hharm h connects conn caller rfl hh)
      rw [hheap, hconn]
      exact hp.set fun c hc => hp.ofHandle hh c hc
  | @push h conn caller hh =>
      have hset := hp.set (h := h) (y := .returning (.notifying (Pool.push p.idle conn).2.1) caller)
        fun c hc => by cases hc
      cases conn with
      | none => exact hset
      | some c =>
          refine ⟨?_, hset.2⟩
          intro d hd
          rcases List.mem_append.mp hd with hd | hd
          · exact hp.1 d hd
          · exact hp.ofHandle hh d (List.mem_singleton.mp hd ▸ rfl)
  | @notify h i pushed timed caller hh ha =>
      exact hp.set (h := h) (y := .returning .finished caller) fun c hc => by cases hc
  | notifyNobody hh hnone => exact hp.set fun c hc => by cases hc
  | finish hh => exact hp.set fun c hc => by cases hc
  | finishAssign hh hy => exact hp.takeOver hy none
  | connectionBreaks c =>
      exact ⟨fun d hd => ready_close (hp.1 d hd), fun x hx d hd => ready_close (hp.2 x hx d hd)⟩

end Use

/-! ### Creation -/

/-- The pool while `CreatePreparedPool` fills it: the first `k` connections
of the queue are still to be prepared, and nobody else has one. -/
structure Filling (k : Nat) (p : Pool) : Prop where
  handles : p.handles = []
  enough : k ≤ p.idle.length
  ready : ∀ c ∈ p.idle.drop k, Ready p.heap c

/-- The invariant, by program point: what was prepared went to the end of
the queue, so the loop never meets it again. -/
def Inv (n : Nat) (q : PreparedPool) : Prop :=
  match q.creator with
  | .loop i => Filling (n - i) q.pool
  | .preparing i c todo =>
      Filling (n - (i + 1)) q.pool ∧ (q.pool.heap.isOpen c = true →
        ∀ name ∈ statements, name ∈ q.pool.heap.prepared c ∨ name ∈ todo)
  | .returning i pc =>
      Filling (n - (i + 1)) q.pool ∧ ∀ c, pc.conn = some c → Ready q.pool.heap c
  | .returned => AllReady q.pool

section Creation

variable {n k i : Nat} {q q' : PreparedPool} {p : Pool}

theorem inv_init (n : Nat) : Inv n { pool := Pool.construct n } := by
  refine ⟨rfl, ?_, ?_⟩
  · simp [Pool.construct]
  · intro c hc
    simp [Pool.construct, List.drop_eq_nil_of_le] at hc

theorem Filling.acquire {c : ConnId} {rest : List ConnId} (hp : Filling (k + 1) p)
    (hidle : p.idle = c :: rest) : Filling k { p with idle := rest } := by
  have henough := hp.enough
  have hready := hp.ready
  rw [hidle] at henough hready
  exact ⟨hp.handles, Nat.le_of_succ_le_succ henough, hready⟩

theorem Filling.allReady (hp : Filling 0 p) : AllReady p := by
  refine ⟨hp.ready, ?_⟩
  intro x hx
  rw [hp.handles] at hx
  cases hx

theorem Filling.prepare (hp : Filling k p) (c : ConnId) (name : String) :
    Filling k { p with heap := p.heap.prepare c name } :=
  ⟨hp.handles, hp.enough, fun d hd => ready_prepare (hp.ready d hd) name⟩

theorem Filling.close (hp : Filling k p) (c : ConnId) :
    Filling k { p with heap := p.heap.close c } :=
  ⟨hp.handles, hp.enough, fun d hd => ready_close (hp.ready d hd)⟩

/-- A ready connection goes behind those still to be prepared. -/
theorem Filling.push {conn : Option ConnId} (hp : Filling k p)
    (hconn : ∀ c, conn = some c → Ready p.heap c) :
    Filling k { p with idle := (Pool.push p.idle conn).1 } := by
  cases conn with
  | none => exact hp
  | some c =>
      refine ⟨hp.handles, ?_, ?_⟩
      · show k ≤ (p.idle ++ [c]).length
        rw [List.length_append]
        exact Nat.le_add_right_of_le hp.enough
      · intro d hd
        have hd : d ∈ (p.idle ++ [c]).drop k := hd
        rw [List.drop_append_of_le_length hp.enough] at hd
        rcases List.mem_append.mp hd with hd | hd
        · exact hp.ready d hd
        · exact hconn d (List.mem_singleton.mp hd ▸ rfl)

theorem Inv.close (h : Inv n q) (c : ConnId) :
    Inv n { q with pool := { q.pool with heap := q.pool.heap.close c } } := by
  have hopen : ∀ d, (q.pool.heap.close c).isOpen d = true → q.pool.heap.isOpen d = true := by
    intro d hd
    by_cases hdc : d = c
    · simp [Heap.close, hdc] at hd
    · simpa [Heap.close, Function.update_of_ne hdc] using hd
  obtain ⟨creator, p⟩ := q
  cases creator with
  | loop i => exact Filling.close h c
  | preparing i d todo => exact ⟨h.1.close c, fun hd => h.2 (hopen d hd)⟩
  | returning i pc => exact ⟨h.1.close c, fun d hd => ready_close (h.2 d hd)⟩
  | returned =>
      exact ⟨fun d hd => ready_close (h.1 d hd), fun x hx d hd => ready_close (h.2 x hx d hd)⟩

/-- One statement more is prepared. -/
theorem ready_of_prepare {heap : Heap} {c : ConnId} {name : String} {todo : List String}
    (h : ∀ s ∈ statements, s ∈ heap.prepared c ∨ s ∈ name :: todo) :
    ∀ s ∈ statements, s ∈ (heap.prepare c name).prepared c ∨ s ∈ todo := by
  intro s hs
  have hmem := h s hs
  have hprepared : (heap.prepare c name).prepared c = heap.prepared c ++ [name] :=
    Function.update_self ..
  rw [hprepared, List.mem_append, List.mem_singleton]
  rw [List.mem_cons] at hmem
  rcases hmem with hmem | rfl | hmem
  · exact Or.inl (Or.inl hmem)
  · exact Or.inl (Or.inr rfl)
  · exact Or.inr hmem

/-- Every harmless step keeps the invariant. -/
theorem inv_step {a : Act} (h : Inv n q) (hharm : Harmless q a) (hs : Step n q a q') :
    Inv n q' := by
  cases hs with
  | @acquire i c rest p hi hidle =>
      have hfill : Filling (n - i) p := h
      have hsub : n - i = n - (i + 1) + 1 := by omega
      rw [hsub] at hfill
      exact ⟨hfill.acquire hidle, fun _ name hname => Or.inr hname⟩
  | @endLoop i p hi =>
      have hfill : Filling (n - i) p := h
      rw [Nat.sub_eq_zero_of_le hi] at hfill
      exact hfill.allReady
  | prepare hopen => exact ⟨h.1.prepare _ _, fun _ => ready_of_prepare (h.2 hopen)⟩
  | @prepareThrows i c name todo p =>
      refine ⟨h.1, ?_⟩
      intro d hd hopen
      obtain rfl := Option.some.inj hd
      exact absurd ((hharm i c (name :: todo) rfl).symm.trans hopen) Bool.false_ne_true
  | release =>
      refine ⟨h.1, ?_⟩
      intro d hd hopen name hname
      obtain rfl := Option.some.inj hd
      rcases h.2 hopen name hname with hmem | hmem
      · exact hmem
      · cases hmem
  | @testOpen i conn p connects =>
      obtain ⟨hheap, hconn⟩ := testOpen_of_notReplaced (hharm i conn rfl)
      rw [hheap, hconn]
      exact h
  | push => exact ⟨h.1.push h.2, fun c hc => by cases hc⟩
  | notify => exact h.1
  | use hp' =>
      refine allReady_step h (Pool.step_of_next hp') ?_
      rintro x connects conn caller rfl hx
      exact hharm conn caller hx
  | connectionBreaks c => exact h.close c

/-- The invariant holds in every run of harmless steps. -/
theorem inv_run {out : List Unit} (h : (harmlessMachine n).Run q out) : Inv n q := by
  refine h.invariant (I := fun q _ => Inv n q) ?_ ?_
  · rintro q rfl
    exact inv_init n
  · rintro q out o q' hinv ⟨a, hharm, hn, -⟩
    exact inv_step hinv hharm (step_of_next hn)

end Creation

/-! ## Connections that are handed out -/

/-- **When connections are prepared.** As long as no connection is replaced
and no preparer fails on a connection that stays open, every open connection
of the queue or of a handle has all four statements once the pool is made. -/
theorem connections_prepared {n : Nat} {q : PreparedPool} {out : List Unit}
    (h : (harmlessMachine n).Run q out) (hmade : q.creator = .returned) {c : ConnId}
    (hc : c ∈ q.pool.idle ∨ ∃ x ∈ q.pool.handles, x.conn = some c)
    (hopen : q.pool.heap.isOpen c = true) :
    ∀ name ∈ statements, name ∈ q.pool.heap.prepared c := by
  have hready := inv_run h
  simp only [Inv, hmade] at hready
  rcases hc with hidle | ⟨x, hx, hxc⟩
  · exact hready.1 c hidle hopen
  · exact hready.2 x hx c hxc hopen

/-- A pool of one connection, made without an accident. -/
theorem connections_prepared_sample :
    ∃ q out, (harmlessMachine 1).Run q out ∧ q.creator = .returned ∧ q.pool.idle = [0]
      ∧ ∀ name ∈ statements, name ∈ q.pool.heap.prepared 0 := by
  have h₀ : (harmlessMachine 1).Run { pool := Pool.construct 1 } [] := .start rfl
  have h₁ := h₀.step ⟨.acquire, trivial, rfl, rfl⟩
  have h₂ := h₁.step ⟨.prepare true, trivial, rfl, rfl⟩
  have h₃ := h₂.step ⟨.prepare true, trivial, rfl, rfl⟩
  have h₄ := h₃.step ⟨.prepare true, trivial, rfl, rfl⟩
  have h₅ := h₄.step ⟨.prepare true, trivial, rfl, rfl⟩
  have h₆ := h₅.step ⟨.release, trivial, rfl, rfl⟩
  have h₇ := h₆.step ⟨.testOpen true, by rintro i conn ⟨⟩; exact Or.inl rfl, rfl, rfl⟩
  have h₈ := h₇.step ⟨.push, trivial, rfl, rfl⟩
  have h₉ := h₈.step ⟨.notify, trivial, rfl, rfl⟩
  have hrun := h₉.step ⟨.endLoop, trivial, rfl, rfl⟩
  exact ⟨_, _, hrun, rfl, rfl, connections_prepared hrun rfl (Or.inl List.mem_cons_self) rfl⟩

/-- The same pool after its connection broke while a handle had it: the
connection that replaced it is open and idle, and has none of the statements. -/
theorem reconnected_not_prepared :
    ∃ q out, (machine 1).Run q out ∧ q.creator = .returned ∧ q.pool.idle = [1]
      ∧ q.pool.heap.isOpen 1 = true ∧ ∀ name ∈ statements, name ∉ q.pool.heap.prepared 1 := by
  have hrun := (Machine.Run.start (M := machine 1) (s := { pool := Pool.construct 1 }) rfl).steps
    (Machine.steps_of_feed
      (l := [.acquire, .prepare true, .prepare true, .prepare true, .prepare true, .release,
        .testOpen true, .push, .notify, .endLoop, .use (.acquire false), .use (.check 0 false),
        .use (.connectionBreaks 0), .use (.destroy 0), .use (.testOpen 0 true),
        .use (.push 0)]) rfl)
  exact ⟨_, _, hrun, rfl, rfl, rfl, fun name _ => List.not_mem_nil⟩

end PreparedPool

end EventHistory
