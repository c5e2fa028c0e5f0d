import Mathlib.Algebra.Ring.Nat
import Mathlib.Data.List.Basic
import EventHistory.Lib.Machine

/-!
# A condition variable that signals outside its lock

Consumers wait at a condition variable for items; a producer puts an item in
under the lock and signals one waiter after it has released it. The state of
such a monitor is four counts. A `Signalling` step is one critical section,
one signal, or one waiter leaving the wait set on its own; consumers may barge
in between a signal and the waiter it woke, and a woken waiter may give up.

The invariant is `NoLostWakeup`: while somebody sleeps, every item has a
woken waiter or an outstanding signal of its own. A program refines the
monitor by counting (`countP_set`), and `noLostWakeup_of_run` carries the
invariant back along `Run.simulate`.
-/

namespace Transition

/-- The counts: items to take, waiters asleep, waiters that were signalled
and have not looked yet, signals still to be sent for an item put in. -/
structure Monitor where
  items : Nat := 0
  asleep : Nat := 0
  signalled : Nat := 0
  pending : Nat := 0

namespace Monitor

inductive Signalling : Monitor → Monitor → Prop
  /-- a producer puts an item in and has yet to signal -/
  | produce {m m' : Monitor} :
      m'.items = m.items + 1 → m'.asleep = m.asleep → m'.signalled = m.signalled →
      m'.pending = m.pending + 1 → Signalling m m'
  /-- its signal wakes a sleeper -/
  | signal {m m' : Monitor} :
      m'.items = m.items → m'.asleep + 1 = m.asleep → m'.signalled = m.signalled + 1 →
      m.pending ≤ m'.pending + 1 → Signalling m m'
  /-- its signal finds nobody asleep -/
  | signalNobody {m m' : Monitor} :
      m'.items = m.items → m.asleep = 0 → m'.asleep = 0 → m'.signalled = m.signalled →
      Signalling m m'
  /-- a consumer takes an item; it may have been a signalled one -/
  | take {m m' : Monitor} :
      m'.items + 1 = m.items → m'.asleep = m.asleep → m.signalled ≤ m'.signalled + 1 →
      m'.pending = m.pending → Signalling m m'
  /-- a consumer finds nothing and sleeps, or gives up -/
  | nothing {m m' : Monitor} :
      m.items = 0 → m'.items = 0 → Signalling m m'
  /-- a sleeper wakes up unsignalled -/
  | stray {m m' : Monitor} :
      m'.items = m.items → m'.asleep + 1 = m.asleep → m'.signalled = m.signalled →
      m'.pending = m.pending → Signalling m m'
  /-- a step that is not the monitor's -/
  | skip {m m' : Monitor} :
      m'.items = m.items → m'.asleep = m.asleep → m'.signalled = m.signalled →
      m'.pending = m.pending → Signalling m m'

/-- While somebody sleeps, no item goes unannounced. -/
def NoLostWakeup (m : Monitor) : Prop :=
  0 < m.asleep → m.items ≤ m.signalled + m.pending

theorem noLostWakeup_step {m m' : Monitor} (h : m.NoLostWakeup) (hs : Signalling m m') :
    m'.NoLostWakeup := by
  unfold NoLostWakeup at *
  cases hs with
  | produce hi ha hsig hp => intro hpos; have := h (by omega); omega
  | signal hi ha hsig hp => intro _; have := h (by omega); omega
  | signalNobody hi ha ha' hsig => intro hpos; omega
  | take hi ha hsig hp => intro hpos; have := h (by omega); omega
  | nothing hi hi' => intro _; omega
  | stray hi ha hsig hp => intro hpos; have := h (by omega); omega
  | skip hi ha hsig hp => intro hpos; have := h (by omega); omega

/-- A machine whose steps are the monitor's, seen through its counts, and
which starts with nobody asleep, loses no wakeup. -/
theorem noLostWakeup_of_run {σ β : Type} {M : Machine σ β} (counts : σ → Monitor)
    (hinit : ∀ s, M.init s → (counts s).asleep = 0)
    (hstep : ∀ s o s', M.step s o s' → Signalling (counts s) (counts s'))
    {s : σ} {out : List β} (h : M.Run s out) : (counts s).NoLostWakeup := by
  refine h.invariant (I := fun s _ => (counts s).NoLostWakeup) ?_ ?_
  · intro s hs hpos
    rw [hinit s hs] at hpos
    cases hpos
  · intro s out o s' ih hs
    exact noLostWakeup_step ih (hstep s o s' hs)

end Monitor

/-! ## Counting in a list of components -/

section Counting

variable {α : Type} {l : List α} {i : Nat} {a : α}

/-- How a count changes when one component moves from `a` to `b`. -/
theorem countP_set (h : l[i]? = some a) (p : α → Bool) (b : α) :
    (l.set i b).countP p + (p a).toNat = l.countP p + (p b).toNat := by
  obtain ⟨hi, rfl⟩ := List.getElem?_eq_some_iff.mp h
  obtain ⟨l₁, l₂, hl, -, hset⟩ := @List.exists_of_set α i b l hi
  rw [hset]
  conv_rhs => rw [hl]
  rw [List.countP_append, List.countP_append, List.countP_cons, List.countP_cons]
  cases p l[i] <;> cases p b <;> simp <;> omega

/-- How a sum changes when one component moves from `a` to `b`. -/
theorem sum_map_set (h : l[i]? = some a) (f : α → Nat) (b : α) :
    ((l.set i b).map f).sum + f a = (l.map f).sum + f b := by
  obtain ⟨hi, rfl⟩ := List.getElem?_eq_some_iff.mp h
  obtain ⟨l₁, l₂, hl, -, hset⟩ := @List.exists_of_set α i b l hi
  rw [hset]
  conv_rhs => rw [hl]
  simp only [List.map_append, List.map_cons, List.sum_append, List.sum_cons]
  omega

/-- A component that is there is counted. -/
theorem countP_pos_of_getElem? (h : l[i]? = some a) {p : α → Bool} (ha : p a = true) :
    0 < l.countP p :=
  List.countP_pos_iff.mpr ⟨a, List.mem_of_getElem? h, ha⟩

/-- If at most one component is counted, it stands in one place. -/
theorem eq_of_countP_le_one {p : α → Bool} {b : α} {j : Nat} (hle : l.countP p ≤ 1)
    (hi : l[i]? = some a) (ha : p a = true) (hj : l[j]? = some b) (hb : p b = true) : i = j := by
  induction l generalizing i j with
  | nil => simp at hi
  | cons x l ih =>
      rw [List.countP_cons] at hle
      cases i with
      | zero =>
          obtain rfl := Option.some.inj hi
          cases j with
          | zero => rfl
          | succ j =>
              have hpos := countP_pos_of_getElem? (l := l) (p := p) hj hb
              rw [if_pos ha] at hle
              omega
      | succ i =>
          cases j with
          | zero =>
              obtain rfl := Option.some.inj hj
              have hpos := countP_pos_of_getElem? (l := l) (p := p) hi ha
              rw [if_pos hb] at hle
              omega
          | succ j => rw [ih (Nat.le_trans (Nat.le_add_right ..) hle) hi hj]

end Counting

end Transition
