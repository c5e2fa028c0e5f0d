import Mathlib.Data.List.Nodup
import EventHistory.Pool.Prepared

/-!
# The loop of `CreatePreparedPool`

`CreatePreparedPool` for any preparer, as the creating thread runs it on the
pool: each iteration is the critical section of `Acquire`, the call of the
preparer, and the destructor of the handle, in the steps of `Pool.next`.
`PreparedPool` has the same loop in coarser steps, for the four statements;
`createPreparedPool_run` relates the two.

An iteration takes the front of the queue and puts it behind the rest, so
`pool_size` of them bring every connection to the front once, and the queue
back to where it was.
-/

namespace EventHistory

open Transition

namespace Pool

/-- What a call of the preparer makes of the connections, and the text of the
`std::exception` that ends it. -/
abbrev Preparer := ConnId → Heap → Heap × Option String

/-- What the loop did: the connections that the preparer was called on, the
lines on `stderr`, and the pool it leaves. -/
structure Created where
  calls : List ConnId := []
  stderr : List String := []
  pool : Pool

/-- One iteration, with the `i`-th call of `Acquire` and the `i`-th handle;
`none` if the thread cannot go on. -/
def createIteration (preparer : Preparer) (connects : Bool) (i : Nat) (p : Pool) :
    Option (ConnId × Option String × Pool) := do
  let p ← p.next (.acquire false)
  let p ← p.next (.check i false)
  let conn ← (p.handle? i).bind Handle.conn
  let (heap, what) := preparer conn p.heap
  -- the end of the iteration destroys the handle, after a throw too
  let p ← { p with heap }.next (.destroy i)
  let p ← p.next (.testOpen i connects)
  let p ← p.next (.push i)
  let p ← p.next (.notify i none)
  let p ← p.next (.finish i)
  return (conn, what, p)

/-- The loop from `i` on, with the iterations still to do. `connects` answers
the reconnects of `ReturnConnection`. -/
def createLoop (preparer : Preparer) (connects : Nat → Bool) :
    Nat → Nat → Pool → Option Created
  | 0, _, pool => some { pool }
  | k + 1, i, p => do
      let (conn, what, p) ← createIteration preparer (connects i) i p
      let rest ← createLoop preparer connects k (i + 1) p
      return { rest with
        calls := conn :: rest.calls
        stderr := what.toList.map ("Failed to prepare: " ++ ·) ++ rest.stderr }

/-- `CreatePreparedPool(conn_str, n, preparer)`. -/
def createPreparedPool (preparer : Preparer) (connects : Nat → Bool) (n : Nat) :
    Option Created :=
  createLoop preparer connects n 0 (construct n)

/-! ## One iteration -/

/-- Between two iterations: the first `i` calls and handles are done. -/
def between (i : Nat) (idle : List ConnId) (heap : Heap) : Pool where
  idle := idle
  heap := heap
  acquires := List.replicate i .returned
  handles := List.replicate i .destroyed

/-- Inside iteration `i`: its handle is in state `x`. -/
def during (i : Nat) (idle : List ConnId) (heap : Heap) (x : HandleState) : Pool where
  idle := idle
  heap := heap
  acquires := List.replicate i .returned ++ [.returned]
  handles := List.replicate i .destroyed ++ [x]

section Iteration

variable {i : Nat} {idle rest : List ConnId} {heap : Heap} {c : ConnId} {x : HandleState}

theorem during_destroyed :
    during i idle heap .destroyed = between (i + 1) idle heap := by
  rw [during, between, List.replicate_succ', List.replicate_succ']

theorem handles_during : (during i idle heap x).handles[i]? = some x := by
  simp [during]

theorem setHandle_during (y : HandleState) :
    (during i idle heap x).setHandle i y = during i idle heap y := by
  simp [during, setHandle]

/-- `Acquire` takes the front of the queue. -/
theorem next_acquire :
    ((between i (c :: rest) heap).next (.acquire false)).bind (·.next (.check i false)) =
      some (during i rest heap (.live { pool := true, conn := some c })) := by
  simp [next, between, check, during]

/-- Nobody assigns from a handle while the pool is made. -/
theorem handle?_during (y : Handle) :
    (during i idle heap (.live y)).handle? i = some y := by
  have hsource : (during i idle heap (.live y)).isSource i = false := by
    simp [isSource, during]
  simp [handle?, handles_during, hsource]

/-- `ReturnConnection` goes on with what its test of `is_open` leaves. -/
theorem next_destroy {conn : Option ConnId} {heap' : Heap} {notes : List Note} {connects : Bool}
    (htest : Pool.testOpen heap (some c) connects = (heap', conn, notes)) :
    ((during i rest heap (.live { pool := true, conn := some c })).next (.destroy i)).bind
        (·.next (.testOpen i connects)) =
      some (during i rest heap' (.returning (.locking conn) .destructor)) := by
  have hdestroy : (during i rest heap (.live { pool := true, conn := some c })).next (.destroy i) =
      some (during i rest heap (.returning (.called (some c)) .destructor)) := by
    simp [next, handle?_during, Handle.returns, setHandle_during]
  have htested : Pool.testOpen (during i rest heap (.returning (.called (some c)) .destructor)).heap
      (some c) connects = (heap', conn, notes) := htest
  rw [hdestroy, Option.bind_some]
  simp only [next, handles_during, htested]
  rw [setHandle_during]
  rfl

/-- The connection goes to the end of the queue. -/
theorem next_push :
    (during i rest heap (.returning (.locking (some c)) .destructor)).next (.push i) =
      some (during i (rest ++ [c]) heap (.returning (.notifying true) .destructor)) := by
  simp only [next, handles_during]
  rw [setHandle_during]
  rfl

/-- Nobody waits, and the handle is gone. -/
theorem next_notify (pushed : Bool) :
    ((during i idle heap (.returning (.notifying pushed) .destructor)).next (.notify i none)).bind
        (·.next (.finish i)) = some (between (i + 1) idle heap) := by
  have hnotify : (during i idle heap (.returning (.notifying pushed) .destructor)).next
      (.notify i none) = some (during i idle heap (.returning .finished .destructor)) := by
    have hnobody : Pool.notify (during i idle heap (.returning (.notifying pushed)
        .destructor)).acquires none = some (List.replicate i .returned ++ [.returned]) := by
      simp [Pool.notify, during, AcquirePc.isAsleep]
    simp only [next, handles_during, hnobody, Option.map_some]
    rw [setHandle_during]
    rfl
  rw [hnotify, Option.bind_some]
  simp only [next, handles_during]
  rw [setHandle_during, during_destroyed]

/-- An iteration calls the preparer on the front of the queue, and leaves at its
end the connection that `ReturnConnection` pushes. -/
theorem createIteration_returns (preparer : Preparer) {connects : Bool} {c' : ConnId}
    {heap' : Heap} {notes : List Note}
    (htest : Pool.testOpen (preparer c heap).1 (some c) connects = (heap', some c', notes)) :
    createIteration preparer connects i (between i (c :: rest) heap) =
      some (c, (preparer c heap).2, between (i + 1) (rest ++ [c']) heap') := by
  obtain ⟨p₁, h₁, h₂⟩ := Option.bind_eq_some_iff.mp (@next_acquire i rest heap c)
  obtain ⟨p₃, h₃, h₄⟩ := Option.bind_eq_some_iff.mp
    (@next_destroy i rest (preparer c heap).1 c _ _ _ _ htest)
  obtain ⟨p₅, h₅, h₆⟩ := Option.bind_eq_some_iff.mp
    (@next_notify i (rest ++ [c']) heap' true)
  simp only [createIteration, h₁, Option.bind_eq_bind, Option.bind_some, h₂, handle?_during]
  show Option.bind ((during i rest (preparer c heap).1 _).next (.destroy i)) _ = _
  simp only [h₃, Option.bind_some, h₄, next_push, h₅, h₆]
  rfl

/-- A connection that is still open goes back itself. -/
theorem createIteration_eq (preparer : Preparer) (connects : Bool)
    (hopen : (preparer c heap).1.isOpen c = true) :
    createIteration preparer connects i (between i (c :: rest) heap) =
      some (c, (preparer c heap).2, between (i + 1) (rest ++ [c]) (preparer c heap).1) :=
  createIteration_returns preparer (show Pool.testOpen _ (some c) connects = (_, some c, []) by
    simp [Pool.testOpen, hopen])

end Iteration

/-! ## The loop -/

/-- The preparer closes no connection. -/
def Preparer.KeepsOpen (preparer : Preparer) : Prop :=
  ∀ c heap d, heap.isOpen d = true → (preparer c heap).1.isOpen d = true

/-- The connections after the calls of the preparer on them, one by one. -/
def Preparer.onAll (preparer : Preparer) (heap : Heap) (conns : List ConnId) : Heap :=
  conns.foldl (fun heap c => (preparer c heap).1) heap

/-- The loop over the connections in front: each is prepared once, and goes
behind those that are done. By induction on what is in front. -/
theorem createLoop_eq {preparer : Preparer} (hkeeps : preparer.KeepsOpen)
    (connects : Nat → Bool) (front : List ConnId) :
    ∀ (i : Nat) (done : List ConnId) (heap : Heap), (∀ c ∈ front, heap.isOpen c = true) →
      ∃ stderr, createLoop preparer connects front.length i (between i (front ++ done) heap) =
        some { calls := front, stderr,
               pool := between (i + front.length) (done ++ front)
                 (preparer.onAll heap front) } := by
  induction front with
  | nil =>
      intro i done heap _
      exact ⟨[], by simp [createLoop, Preparer.onAll]⟩
  | cons c front ih =>
      intro i done heap hopen
      obtain ⟨hc, hfront⟩ := List.forall_mem_cons.mp hopen
      have hiter : createIteration preparer (connects i) i (between i (c :: (front ++ done)) heap) =
          some (c, (preparer c heap).2,
            between (i + 1) (front ++ (done ++ [c])) (preparer c heap).1) := by
        rw [createIteration_eq preparer (connects i) (hkeeps c heap c hc), List.append_assoc]
      obtain ⟨stderr, hrest⟩ := ih (i + 1) (done ++ [c]) (preparer c heap).1
        fun d hd => hkeeps c heap d (hfront d hd)
      have hlen : i + 1 + front.length = i + (c :: front).length := by
        rw [List.length_cons]
        omega
      rw [hlen, List.append_assoc, List.singleton_append] at hrest
      refine ⟨(preparer c heap).2.toList.map ("Failed to prepare: " ++ ·) ++ stderr, ?_⟩
      rw [List.cons_append, List.length_cons, createLoop, hiter, Option.bind_eq_bind,
        Option.bind_some]
      simp only [hrest, Option.bind_eq_bind, Option.bind_some]
      rfl

theorem createPreparedPool_eq {preparer : Preparer} (hkeeps : preparer.KeepsOpen)
    (connects : Nat → Bool) (n : Nat) :
    ∃ stderr, createPreparedPool preparer connects n =
      some { calls := List.range n, stderr,
             pool := between n (List.range n)
               (preparer.onAll (construct n).heap (List.range n)) } := by
  have hopen : ∀ c ∈ List.range n, (construct n).heap.isOpen c = true := by
    intro c hc
    simpa [construct] using hc
  obtain ⟨stderr, hloop⟩ := createLoop_eq hkeeps connects (List.range n) 0 [] _ hopen
  rw [List.length_range, List.append_nil, Nat.zero_add] at hloop
  exact ⟨stderr, hloop⟩

/-! ### The four statements -/

/-- `PrepareStatements`, when no statement fails. -/
def prepareStatements : Preparer := fun c heap => (statements.foldl (·.prepare c ·) heap, none)

theorem prepareStatements_keepsOpen : prepareStatements.KeepsOpen := fun _ _ _ hopen => hopen

/-- An iteration in the steps of `PreparedPool`. -/
theorem iteration_steps {n i : Nat} (hi : i < n) {c : ConnId} (rest : List ConnId) {heap : Heap}
    (hopen : heap.isOpen c = true) :
    (PreparedPool.machine n).Steps ⟨.loop i, between 0 (c :: rest) heap⟩ []
      ⟨.loop (i + 1), between 0 (rest ++ [c]) (prepareStatements c heap).1⟩ := by
  refine Machine.steps_of_feed (l := [.acquire, .prepare true, .prepare true, .prepare true,
    .prepare true, .release, .testOpen true, .push, .notify]) ?_
  simp [Machine.feed, PreparedPool.next, between, hi, hopen, statements, Heap.prepare,
    Pool.testOpen, Pool.push, prepareStatements]

/-- The iterations that bring the connections in front to the end. -/
theorem iterations_steps {n : Nat} (front : List ConnId) :
    ∀ (i : Nat) (done : List ConnId) (heap : Heap), i + front.length ≤ n →
      (∀ c ∈ front, heap.isOpen c = true) →
      (PreparedPool.machine n).Steps ⟨.loop i, between 0 (front ++ done) heap⟩ []
        ⟨.loop (i + front.length),
          between 0 (done ++ front) (prepareStatements.onAll heap front)⟩ := by
  induction front with
  | nil =>
      intro i done heap _ _
      rw [List.append_nil]
      exact .refl
  | cons c front ih =>
      intro i done heap hn hopen
      obtain ⟨hc, hfront⟩ := List.forall_mem_cons.mp hopen
      rw [List.length_cons] at hn
      have hfirst := iteration_steps (by omega : i < n) (front ++ done) hc
      have hrest := ih (i + 1) (done ++ [c]) (prepareStatements c heap).1 (by omega) hfront
      have hlen : i + 1 + front.length = i + (c :: front).length := by
        rw [List.length_cons]
        omega
      rw [hlen, ← List.append_assoc, List.append_assoc done, List.singleton_append] at hrest
      exact hfirst.trans hrest

/-- With the preparer of the service, the loop on the pool and the coarser loop
of `PreparedPool` leave the same connections in the same order. -/
theorem createPreparedPool_run (connects : Nat → Bool) (n : Nat) :
    ∃ made, createPreparedPool prepareStatements connects n = some made
      ∧ (PreparedPool.machine n).Run
          ⟨.returned, between 0 made.pool.idle made.pool.heap⟩ [] := by
  obtain ⟨stderr, hmade⟩ := createPreparedPool_eq prepareStatements_keepsOpen connects n
  have hopen : ∀ c ∈ List.range n, (construct n).heap.isOpen c = true := by
    intro c hc
    simpa [construct] using hc
  have hstart : (PreparedPool.machine n).Run ⟨.loop 0, between 0 (List.range n ++ [])
      (construct n).heap⟩ [] := by
    rw [List.append_nil]
    exact .start rfl
  have hloop := hstart.steps (iterations_steps (List.range n) 0 [] _ (by simp) hopen)
  rw [List.nil_append, List.length_range, Nat.zero_add] at hloop
  exact ⟨_, hmade, hloop.step ⟨.endLoop, by simp [PreparedPool.next, between], rfl⟩⟩

/-- **`CreatePreparedPool` reaches every connection exactly once.** For any
size and any preparer that closes no connection, the loop blocks nowhere, the
preparer is called once on each connection and leaves them all as its calls
have made them, and the queue is afterwards what it was after construction. -/
theorem preparer_called_once {preparer : Preparer} (hkeeps : preparer.KeepsOpen)
    (connects : Nat → Bool) (n : Nat) :
    ∃ made, createPreparedPool preparer connects n = some made
      ∧ made.calls.length = n ∧ made.calls.Nodup
      ∧ (∀ c, c ∈ made.calls ↔ c ∈ (construct n).idle)
      ∧ made.pool.heap = preparer.onAll (construct n).heap made.calls
      ∧ made.pool.idle = (construct n).idle := by
  obtain ⟨stderr, hmade⟩ := createPreparedPool_eq hkeeps connects n
  exact ⟨_, hmade, List.length_range, List.nodup_range, fun c => Iff.rfl, rfl, rfl⟩

theorem preparer_called_once_sample :
    ∃ made, createPreparedPool prepareStatements (fun _ => true) 2 = some made
      ∧ made.calls.length = 2 ∧ made.calls.Nodup
      ∧ (∀ c, c ∈ made.calls ↔ c ∈ (construct 2).idle)
      ∧ made.pool.heap = prepareStatements.onAll (construct 2).heap made.calls
      ∧ made.pool.idle = (construct 2).idle :=
  preparer_called_once prepareStatements_keepsOpen (fun _ => true) 2

/-! ## Preparers that lose connections -/

/-- The preparer has one connection, and does to it what it likes: it prepares,
loses the session, or throws. -/
structure Preparer.Local (preparer : Preparer) : Prop where
  alive : ∀ c heap, (preparer c heap).1.alive = heap.alive
  next : ∀ c heap, (preparer c heap).1.next = heap.next
  isOpen : ∀ c heap d, d ≠ c → (preparer c heap).1.isOpen d = heap.isOpen d
  prepared : ∀ c heap d, d ≠ c → (preparer c heap).1.prepared d = heap.prepared d

/-- The connections before iteration `i`: what the preparer has left, with those
replaced that it left closed. -/
def Preparer.heapAt (preparer : Preparer) (connects : Nat → Bool) (heap : Heap) : Nat → Heap
  | 0 => heap
  | i + 1 =>
      (Pool.testOpen (preparer i (preparer.heapAt connects heap i)).1 (some i) (connects i)).1

/-- And those that its `i`-th call leaves. -/
def Preparer.left (preparer : Preparer) (connects : Nat → Bool) (heap : Heap) (i : Nat) : Heap :=
  (preparer i (preparer.heapAt connects heap i)).1

/-- What stands in the place of connection `i`, which the preparer left as it is
in `left`: the connection, as it was left, if that was open or could not be
replaced, and otherwise a new one with nothing prepared. -/
def CameBack (n : Nat) (connects : Nat → Bool) (left heap : Heap) (i : Nat) (c : ConnId) : Prop :=
  c = i ∧ (left.isOpen i = true ∨ connects i = false)
      ∧ heap.isOpen i = left.isOpen i ∧ heap.prepared i = left.prepared i
    ∨ n ≤ c ∧ left.isOpen i = false ∧ connects i = true
      ∧ heap.isOpen c = true ∧ heap.prepared c = []

/-- Before iteration `i`: the connections from `i` on are in front, and `done`
has the place of each before. -/
structure Underway (n : Nat) (connects : Nat → Bool) (left : Nat → Heap) (i : Nat)
    (front done : List ConnId) (heap : Heap) : Prop where
  alive : heap.alive.Perm (front ++ done)
  nodup : heap.alive.Nodup
  fresh : ∀ c ∈ heap.alive, c < heap.next
  next : n ≤ heap.next
  count : done.length = i
  place : ∀ j c, done[j]? = some c → CameBack n connects (left j) heap j c

section Underway

variable {n i j : Nat} {connects : Nat → Bool} {left : Nat → Heap} {front done : List ConnId}
  {heap heap' : Heap} {c : ConnId}

theorem underway_construct (n : Nat) (connects : Nat → Bool) (left : Nat → Heap) :
    Underway n connects left 0 (List.range n) [] (construct n).heap where
  alive := by rw [List.append_nil]; exact .refl _
  nodup := List.nodup_range
  fresh := fun c hc => List.mem_range.mp hc
  next := Nat.le_refl n
  count := rfl
  place := by intro j c hc; simp at hc

/-- Nobody touches a connection that came back. -/
theorem CameBack.same (h : CameBack n connects (left j) heap j c)
    (hopen : heap'.isOpen c = heap.isOpen c) (hprepared : heap'.prepared c = heap.prepared c) :
    CameBack n connects (left j) heap' j c := by
  rcases h with ⟨rfl, hkept, hleft, hleft'⟩ | ⟨hn, hclosed, hconnects, hnew, hnew'⟩
  · exact Or.inl ⟨rfl, hkept, hopen.trans hleft, hprepared.trans hleft'⟩
  · exact Or.inr ⟨hn, hclosed, hconnects, hopen.trans hnew, hprepared.trans hnew'⟩

/-- The preparer runs on the connection in front. -/
theorem Underway.prepare {preparer : Preparer} (hlocal : preparer.Local)
    (h : Underway n connects left i (c :: front) done heap) :
    Underway n connects left i (c :: front) done (preparer c heap).1 where
  alive := by rw [hlocal.alive]; exact h.alive
  nodup := by rw [hlocal.alive]; exact h.nodup
  fresh := by rw [hlocal.alive, hlocal.next]; exact h.fresh
  next := by rw [hlocal.next]; exact h.next
  count := h.count
  place := by
    intro j d hd
    have hne : d ≠ c := by
      rintro rfl
      have hnodup := h.alive.nodup_iff.mp h.nodup
      exact (List.nodup_cons.mp hnodup).1
        (List.mem_append_right front (List.mem_of_getElem? hd))
    exact (h.place j d hd).same (hlocal.isOpen c heap d hne) (hlocal.prepared c heap d hne)

/-- The places after one more connection came back. -/
theorem Underway.placed (h : Underway n connects left i (c :: front) done heap) {c' : ConnId}
    (hplace : ∀ j d, done[j]? = some d → CameBack n connects (left j) heap' j d)
    (hc' : CameBack n connects (left i) heap' i c') :
    ∀ j d, (done ++ [c'])[j]? = some d → CameBack n connects (left j) heap' j d := by
  intro j d hd
  rcases Nat.lt_or_ge j done.length with hj | hj
  · rw [List.getElem?_append_left hj] at hd
    exact hplace j d hd
  · rw [List.getElem?_append_right hj] at hd
    obtain ⟨hlt, rfl⟩ := List.getElem?_eq_some_iff.mp hd
    have hi : j = i := by
      rw [List.length_singleton] at hlt
      rw [← h.count]
      omega
    rw [List.getElem_singleton, hi]
    exact hc'

/-- The connection goes to the end of the queue as it is. -/
theorem Underway.keep (h : Underway n connects left i (i :: front) done (left i))
    (hsame : (left i).isOpen i = true ∨ connects i = false) :
    Underway n connects left (i + 1) front (done ++ [i]) (left i) where
  alive := by
    rw [← List.append_assoc]
    exact h.alive.trans (List.perm_append_singleton i (front ++ done)).symm
  nodup := h.nodup
  fresh := h.fresh
  next := h.next
  count := by rw [List.length_append, h.count, List.length_singleton]
  place := h.placed h.place (Or.inl ⟨rfl, hsame, rfl, rfl⟩)

/-- A new connection goes there in its place. -/
theorem Underway.replace (h : Underway n connects left i (i :: front) done (left i))
    (hclosed : (left i).isOpen i = false) (hconnects : connects i = true) :
    Underway n connects left (i + 1) front (done ++ [(left i).next])
      ((left i).connect.drop (some i)) where
  alive := by
    have hmade := (h.alive.append_right [(left i).next]).erase i
    rwa [List.cons_append, List.cons_append, List.erase_cons_head, List.append_assoc] at hmade
  nodup := by
    have hnew : (left i).next ∉ (left i).alive := fun hmem => Nat.lt_irrefl _ (h.fresh _ hmem)
    have hmade := h.nodup.concat hnew
    rw [List.concat_eq_append] at hmade
    exact hmade.erase i
  fresh := by
    intro d hd
    rcases List.mem_append.mp (List.mem_of_mem_erase hd) with hd | hd
    · exact Nat.lt_succ_of_lt (h.fresh d hd)
    · rw [List.mem_singleton.mp hd]
      exact Nat.lt_succ_self _
  next := Nat.le_succ_of_le h.next
  count := by rw [List.length_append, h.count, List.length_singleton]
  place := by
    refine h.placed ?_ (Or.inr ⟨h.next, hclosed, hconnects, Function.update_self ..,
      Function.update_self ..⟩)
    intro j d hd
    have hmem : d ∈ (left i).alive :=
      h.alive.mem_iff.mpr (List.mem_append_right _ (List.mem_of_getElem? hd))
    have hne : d ≠ (left i).next := Nat.ne_of_lt (h.fresh d hmem)
    exact (h.place j d hd).same (Function.update_of_ne hne ..) (Function.update_of_ne hne ..)

/-- The end of an iteration, whatever became of its connection. -/
theorem Underway.returned (h : Underway n connects left i (i :: front) done (left i)) :
    ∃ c' heap' notes, Pool.testOpen (left i) (some i) (connects i) = (heap', some c', notes)
      ∧ Underway n connects left (i + 1) front (done ++ [c']) heap' := by
  rcases Bool.eq_false_or_eq_true ((left i).isOpen i) with hopen | hclosed
  · exact ⟨i, left i, [], by simp [Pool.testOpen, hopen], h.keep (Or.inl hopen)⟩
  · rcases Bool.eq_false_or_eq_true (connects i) with hconnects | hrefused
    · exact ⟨(left i).next, _, [.reconnected (left i).next],
        by simp [Pool.testOpen, hclosed, hconnects], h.replace hclosed hconnects⟩
    · exact ⟨i, left i, [.failedToReconnect], by simp [Pool.testOpen, hclosed, hrefused],
        h.keep (Or.inr hrefused)⟩

/-- The loop, by induction on the iterations that are left. -/
theorem Underway.loop {preparer : Preparer} (hlocal : preparer.Local) {start : Heap} (k : Nat) :
    ∀ {i : Nat} {done : List ConnId},
      Underway n connects (preparer.left connects start) i (List.range' i k) done
          (preparer.heapAt connects start i) →
      ∃ stderr idle, createLoop preparer connects k i
          (between i (List.range' i k ++ done) (preparer.heapAt connects start i)) =
        some { calls := List.range' i k, stderr,
               pool := between (i + k) idle (preparer.heapAt connects start (i + k)) }
        ∧ Underway n connects (preparer.left connects start) (i + k) [] idle
            (preparer.heapAt connects start (i + k)) := by
  induction k with
  | zero =>
      intro i done h
      exact ⟨[], done, rfl, h⟩
  | succ k ih =>
      intro i done h
      rw [List.range'_succ] at h ⊢
      obtain ⟨c', heap', notes, htest, hreturned⟩ := Underway.returned (h.prepare hlocal)
      obtain rfl : preparer.heapAt connects start (i + 1) = heap' := congrArg Prod.fst htest
      obtain ⟨stderr, idle, hrest, hdone⟩ := ih hreturned
      have hlen : i + 1 + k = i + (k + 1) := by omega
      rw [hlen, ← List.append_assoc] at hrest
      rw [hlen] at hdone
      refine ⟨(preparer i (preparer.heapAt connects start i)).2.toList.map
        ("Failed to prepare: " ++ ·) ++ stderr, idle, ?_, hdone⟩
      rw [List.cons_append, createLoop, createIteration_returns preparer htest,
        Option.bind_eq_bind, Option.bind_some]
      simp only [hrest, Option.bind_eq_bind, Option.bind_some]
      rfl

end Underway

/-- **`CreatePreparedPool` leaves a full pool, whatever its preparer does.** A
preparer may throw and may lose the connection it is given, and reconnects may
fail: the loop blocks nowhere, the preparer is called once on each of the `n`
connections, and `n` different connections are in the queue, all that exist. In
the place of each is the connection as the preparer left it, unless it left it
closed and it could be replaced: then a new one that is open and has nothing
prepared. -/
theorem created_pool_full {preparer : Preparer} (hlocal : preparer.Local)
    (connects : Nat → Bool) (n : Nat) :
    ∃ made, createPreparedPool preparer connects n = some made
      ∧ made.calls = List.range n
      ∧ made.pool.idle.length = n ∧ made.pool.idle.Nodup
      ∧ made.pool.heap.alive.Perm made.pool.idle
      ∧ made.pool.heap = preparer.heapAt connects (construct n).heap n
      ∧ ∀ i c, made.pool.idle[i]? = some c →
          CameBack n connects (preparer.left connects (construct n).heap i) made.pool.heap i c := by
  have hstart := underway_construct n connects (preparer.left connects (construct n).heap)
  rw [List.range_eq_range'] at hstart
  obtain ⟨stderr, idle, hmade, hdone⟩ := Underway.loop hlocal n hstart
  rw [List.append_nil, ← List.range_eq_range', Nat.zero_add] at hmade
  rw [Nat.zero_add] at hdone
  have halive : (preparer.heapAt connects (construct n).heap n).alive.Perm idle := hdone.alive
  exact ⟨_, hmade, rfl, hdone.count, halive.nodup_iff.mp hdone.nodup, halive, rfl, hdone.place⟩

/-- A preparer that loses the connections `1` and `2`. -/
def losesTwo : Preparer := fun c heap =>
  if c = 1 ∨ c = 2 then (heap.close c, some "server closed the connection unexpectedly")
  else prepareStatements c heap

theorem losesTwo_local : losesTwo.Local where
  alive := by
    intro c heap
    rw [losesTwo]
    split <;> rfl
  next := by
    intro c heap
    rw [losesTwo]
    split <;> rfl
  isOpen := by
    intro c heap d hne
    rw [losesTwo]
    split
    · exact Function.update_of_ne hne ..
    · rfl
  prepared := by
    intro c heap d hne
    rw [losesTwo]
    split
    · rfl
    · simp [prepareStatements, statements, Heap.prepare, Function.update_of_ne hne]

/-- One of them can be replaced. -/
theorem created_pool_full_sample :
    ∃ made, createPreparedPool losesTwo (· = 1) 4 = some made
      ∧ made.calls = [0, 1, 2, 3] ∧ made.pool.idle.length = 4 ∧ made.pool.idle.Nodup
      ∧ made.pool.heap.alive.Perm made.pool.idle
      ∧ made.pool.heap = losesTwo.heapAt (fun i => decide (i = 1)) (construct 4).heap 4
      ∧ ∀ i c, made.pool.idle[i]? = some c →
          CameBack 4 (fun i => decide (i = 1))
            (losesTwo.left (fun i => decide (i = 1)) (construct 4).heap i) made.pool.heap i c :=
  created_pool_full losesTwo_local (fun i => decide (i = 1)) 4

/-- At the end of the loop: the places, which of them are open, and how many
statements each has. -/
example : ((createPreparedPool losesTwo (· = 1) 4).map fun made =>
    (made.pool.idle, made.pool.idle.map made.pool.heap.isOpen,
      made.pool.idle.map fun c => (made.pool.heap.prepared c).length)) =
    some ([0, 4, 2, 3], [true, true, false, true], [4, 0, 0, 4]) := by
  rfl

end Pool

end EventHistory
