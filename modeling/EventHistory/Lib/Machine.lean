import Mathlib.Logic.Function.Basic
import Mathlib.Data.List.Basic

/-!
# Machines with output, and their interleavings

A `Machine` is a transition system whose every step emits a list of
outputs. `Machine.Run M s out` says that `M` can reach `s` having emitted
`out` so far. Four rules carry every argument about runs:

- `Machine.Run.invariant`: what holds of an initial state with no output
  and is preserved by a step holds of every run;
- `Machine.Steps.reach`: where every state short of a goal has a step that
  keeps an invariant and lowers a measure, the goal can be reached;
- `Machine.Run.simulate`: a forward simulation transports runs, with their
  outputs, to the abstract machine;
- `Interleaving.Run.component`: in any interleaving of a family of machines
  that append their outputs to one shared log, every component is in a state
  it reaches on its own, and its own output is its share of the log.

The outputs serve two readings: what a component writes to a store that the
components share, and the trace of labels of a single system.
-/

namespace Transition

universe u v w

/-- A transition system whose steps emit lists of outputs. -/
structure Machine (σ : Type u) (β : Type v) where
  init : σ → Prop
  step : σ → List β → σ → Prop

namespace Machine

variable {σ : Type u} {τ : Type w} {β : Type v}

/-- `M` reaches the state having emitted the list. -/
inductive Run (M : Machine σ β) : σ → List β → Prop
  | start {s : σ} : M.init s → Run M s []
  | step {s s' : σ} {out o : List β} :
      Run M s out → M.step s o s' → Run M s' (out ++ o)

/-- The invariant rule: initial states satisfy `I` with no output, and each
step preserves it along with the extended output. -/
theorem Run.invariant {M : Machine σ β} {I : σ → List β → Prop}
    (hinit : ∀ s, M.init s → I s [])
    (hstep : ∀ s out o s', I s out → M.step s o s' → I s' (out ++ o))
    {s : σ} {out : List β} (h : M.Run s out) : I s out := by
  induction h with
  | start h0 => exact hinit _ h0
  | step _ hs ih => exact hstep _ _ _ _ ih hs

/-- A run extended by several steps of the same machine. -/
inductive Steps (M : Machine σ β) : σ → List β → σ → Prop
  | refl {s : σ} : Steps M s [] s
  | tail {s s₁ s₂ : σ} {out o : List β} :
      Steps M s out s₁ → M.step s₁ o s₂ → Steps M s (out ++ o) s₂

theorem Steps.single {M : Machine σ β} {s s' : σ} {o : List β}
    (h : M.step s o s') : M.Steps s o s' := by
  simpa using (Steps.refl (M := M) (s := s)).tail h

theorem Steps.trans {M : Machine σ β} {s₁ s₂ s₃ : σ} {o₁ o₂ : List β}
    (h₁ : M.Steps s₁ o₁ s₂) (h₂ : M.Steps s₂ o₂ s₃) :
    M.Steps s₁ (o₁ ++ o₂) s₃ := by
  induction h₂ with
  | refl => simpa using h₁
  | tail _ hs ih => simpa [List.append_assoc] using ih.tail hs

theorem Steps.head {M : Machine σ β} {s₁ s₂ s₃ : σ} {o₁ o₂ : List β}
    (h₁ : M.step s₁ o₁ s₂) (h₂ : M.Steps s₂ o₂ s₃) :
    M.Steps s₁ (o₁ ++ o₂) s₃ :=
  (Steps.single h₁).trans h₂

theorem Run.steps {M : Machine σ β} {s s' : σ} {out o : List β}
    (h : M.Run s out) (hs : M.Steps s o s') : M.Run s' (out ++ o) := by
  induction hs with
  | refl => simpa using h
  | tail _ hstep ih => simpa [List.append_assoc] using ih.step hstep

/-- A run is a sequence of steps from an initial state. -/
theorem Run.fromStart {M : Machine σ β} {s : σ} {out : List β} (h : M.Run s out) :
    ∃ s₀, M.init s₀ ∧ M.Steps s₀ out s := by
  induction h with
  | start h0 => exact ⟨_, h0, .refl⟩
  | step _ hs ih =>
      obtain ⟨s₀, h0, hsteps⟩ := ih
      exact ⟨s₀, h0, hsteps.tail hs⟩

/-- The progress rule: if every state that satisfies `I`, short of the goal, has
a step to such a state that lowers a measure, the goal can be reached. -/
theorem Steps.reach {M : Machine σ β} {I goal : σ → Prop} (measure : σ → Nat)
    (hprogress : ∀ s, I s → ¬goal s → ∃ o s', M.step s o s' ∧ I s' ∧ measure s' < measure s)
    {s : σ} (h : I s) : ∃ o s', M.Steps s o s' ∧ goal s' := by
  induction hn : measure s using Nat.strongRecOn generalizing s with
  | _ n ih =>
      by_cases hgoal : goal s
      · exact ⟨[], s, .refl, hgoal⟩
      · obtain ⟨o, s', hstep, hs', hlt⟩ := hprogress s h hgoal
        obtain ⟨o', s'', hsteps, hgoal'⟩ := ih _ (hn ▸ hlt) hs' rfl
        exact ⟨o ++ o', s'', Steps.head hstep hsteps, hgoal'⟩

/-- The same for the states of runs. -/
theorem Run.reach {M : Machine σ β} {goal : σ → Prop} (measure : σ → Nat)
    (hprogress : ∀ s out, M.Run s out → ¬goal s →
      ∃ o s', M.step s o s' ∧ measure s' < measure s)
    {s : σ} {out : List β} (h : M.Run s out) : ∃ o s', M.Steps s o s' ∧ goal s' := by
  refine Steps.reach (I := fun s => ∃ out, M.Run s out) measure ?_ ⟨out, h⟩
  rintro s ⟨out, h⟩ hgoal
  obtain ⟨o, s', hstep, hlt⟩ := hprogress s out h hgoal
  exact ⟨o, s', hstep, ⟨_, h.step hstep⟩, hlt⟩

/-- Forward simulation: every concrete step is matched by abstract steps
with the same output, so every concrete run has an abstract one. -/
theorem Run.simulate {M : Machine σ β} {A : Machine τ β} {R : σ → τ → Prop}
    (hinit : ∀ s, M.init s → ∃ a, A.init a ∧ R s a)
    (hstep : ∀ s a o s', R s a → M.step s o s' →
      ∃ a', A.Steps a o a' ∧ R s' a')
    {s : σ} {out : List β} (h : M.Run s out) :
    ∃ a, A.Run a out ∧ R s a := by
  induction h with
  | start h0 =>
      obtain ⟨a, ha, hR⟩ := hinit _ h0
      exact ⟨a, .start ha, hR⟩
  | step _ hs ih =>
      obtain ⟨a, ha, hR⟩ := ih
      obtain ⟨a', hsteps, hR'⟩ := hstep _ _ _ _ hR hs
      exact ⟨a', ha.steps hsteps, hR'⟩

/-- Backward simulation: every abstract state that stands for the end of a
concrete step is reached from one that stands for its beginning. It serves
where the abstract machine decides earlier than the concrete one. -/
structure SimulatedBack (M : Machine σ β) (A : Machine τ β) (R : σ → τ → Prop) : Prop where
  total : ∀ s, ∃ a, R s a
  init : ∀ s a, M.init s → R s a → A.init a
  step : ∀ s out o s' a', M.Run s out → M.step s o s' → R s' a' → ∃ a, R s a ∧ A.Steps a o a'

/-- Every abstract state that stands for the end of a concrete run has a run
of its own. -/
theorem SimulatedBack.run {M : Machine σ β} {A : Machine τ β} {R : σ → τ → Prop}
    (hR : SimulatedBack M A R) {s : σ} {out : List β} (h : M.Run s out) :
    ∀ a, R s a → A.Run a out := by
  induction h with
  | start h0 => exact fun a ha => .start (hR.init _ a h0 ha)
  | step h hs ih =>
      intro a' ha'
      obtain ⟨a, ha, hsteps⟩ := hR.step _ _ _ _ a' h hs ha'
      exact (ih a ha).steps hsteps

/-- And it passes through states that stand for those of the concrete run. -/
theorem SimulatedBack.steps {M : Machine σ β} {A : Machine τ β} {R : σ → τ → Prop}
    (hR : SimulatedBack M A R) {s s' : σ} {out o : List β} (h : M.Run s out)
    (hs : M.Steps s o s') : ∀ a', R s' a' → ∃ a, R s a ∧ A.Steps a o a' := by
  induction hs with
  | refl => exact fun a ha => ⟨a, ha, .refl⟩
  | tail hs hstep ih =>
      intro a' ha'
      obtain ⟨a₁, ha₁, hsteps₁⟩ := hR.step _ _ _ _ a' (h.steps hs) hstep ha'
      obtain ⟨a, ha, hsteps⟩ := ih a₁ ha₁
      exact ⟨a, ha, hsteps.trans hsteps₁⟩

/-! ### Machines given by a function

The step function takes an input, the answer of the environment, and is
undefined where the state does not accept it. -/

variable {α : Type w}

/-- The machine that steps by `next` on some input. -/
def ofFn (init : σ → Prop) (next : σ → α → Option σ)
    (writes : σ → α → List β) : Machine σ β where
  init := init
  step s o s' := ∃ a, next s a = some s' ∧ o = writes s a

/-- The same machine, on the steps that meet a condition. -/
def ofFnWhere (init : σ → Prop) (next : σ → α → Option σ) (writes : σ → α → List β)
    (C : σ → α → Prop) : Machine σ β where
  init := init
  step s o s' := ∃ a, C s a ∧ next s a = some s' ∧ o = writes s a

/-- A condition on the steps leaves out runs and adds none. -/
theorem run_of_where {init : σ → Prop} {next : σ → α → Option σ} {writes : σ → α → List β}
    {C : σ → α → Prop} {s : σ} {out : List β} (h : (ofFnWhere init next writes C).Run s out) :
    (ofFn init next writes).Run s out := by
  induction h with
  | start h0 => exact .start h0
  | step _ hs ih =>
      obtain ⟨a, -, hn, rfl⟩ := hs
      exact ih.step ⟨a, hn, rfl⟩

/-- Feed a list of inputs; `none` where one of them is not accepted. -/
def feed (next : σ → α → Option σ) (writes : σ → α → List β) :
    σ → List α → Option (σ × List β)
  | s, [] => some (s, [])
  | s, a :: as =>
      (next s a).bind fun s' =>
        (feed next writes s' as).map fun p => (p.1, writes s a ++ p.2)

/-- A list of inputs that is accepted to its end is a sequence of steps. -/
theorem steps_of_feed {init : σ → Prop} {next : σ → α → Option σ}
    {writes : σ → α → List β} :
    ∀ {l : List α} {s s' : σ} {out : List β},
      feed next writes s l = some (s', out) →
      (ofFn init next writes).Steps s out s'
  | [], s, s', out, h => by
      obtain ⟨rfl, rfl⟩ := Prod.mk.injEq .. |>.mp (Option.some.inj h)
      exact .refl
  | a :: as, s, s', out, h => by
      obtain ⟨s₁, hn, h⟩ := Option.bind_eq_some_iff.mp h
      obtain ⟨⟨s₂, out₂⟩, hf, heq⟩ := Option.map_eq_some_iff.mp h
      obtain ⟨rfl, rfl⟩ := Prod.mk.injEq .. |>.mp heq
      exact Steps.head ⟨a, hn, rfl⟩ (steps_of_feed hf)

/-- Inputs that keep an invariant and lower a measure are accepted only so
often. Those of `D` may raise it, each by less than `k`: what they raise is paid
for by their number. -/
theorem length_le_of_feed {next : σ → α → Option σ} {writes : σ → α → List β} {C : α → Prop}
    {I : σ → Prop} (measure : σ → Nat) (D : α → Bool) (k : Nat)
    (hstep : ∀ s a s', I s → C a → next s a = some s' →
      I s' ∧ measure s' < measure s + if D a then k else 0) :
    ∀ {l : List α} {s s' : σ} {out : List β}, I s → (∀ a ∈ l, C a) →
      feed next writes s l = some (s', out) →
      I s' ∧ l.length + measure s' ≤ measure s + k * l.countP D
  | [], s, s', out, hI, _, h => by
      obtain ⟨rfl, -⟩ := Prod.mk.injEq .. |>.mp (Option.some.inj h)
      exact ⟨hI, by simp⟩
  | a :: as, s, s', out, hI, hC, h => by
      obtain ⟨hhead, htail⟩ := List.forall_mem_cons.mp hC
      obtain ⟨s₁, hn, h⟩ := Option.bind_eq_some_iff.mp h
      obtain ⟨⟨s₂, out₂⟩, hf, heq⟩ := Option.map_eq_some_iff.mp h
      obtain ⟨rfl, -⟩ := Prod.mk.injEq .. |>.mp heq
      obtain ⟨hI₁, hlt⟩ := hstep s a s₁ hI hhead hn
      obtain ⟨hI₂, hrest⟩ := length_le_of_feed measure D k hstep hI₁ htail hf
      refine ⟨hI₂, ?_⟩
      change as.length + 1 + measure s₂ ≤ _
      by_cases hD : D a = true
      · rw [if_pos hD] at hlt
        rw [List.countP_cons_of_pos hD, Nat.mul_succ]
        omega
      · rw [if_neg hD] at hlt
        rw [List.countP_cons_of_neg hD]
        omega

/-- A list is steps of the restricted machine where every input meets its
condition. -/
theorem steps_of_feed_where {init : σ → Prop} {next : σ → α → Option σ}
    {writes : σ → α → List β} {C : σ → α → Prop} :
    ∀ {l : List α} {s s' : σ} {out : List β}, (∀ a ∈ l, ∀ s, C s a) →
      feed next writes s l = some (s', out) →
      (ofFnWhere init next writes C).Steps s out s'
  | [], s, s', out, _, h => by
      obtain ⟨rfl, rfl⟩ := Prod.mk.injEq .. |>.mp (Option.some.inj h)
      exact .refl
  | a :: as, s, s', out, hC, h => by
      obtain ⟨hhead, htail⟩ := List.forall_mem_cons.mp hC
      obtain ⟨s₁, hn, h⟩ := Option.bind_eq_some_iff.mp h
      obtain ⟨⟨s₂, out₂⟩, hf, heq⟩ := Option.map_eq_some_iff.mp h
      obtain ⟨rfl, rfl⟩ := Prod.mk.injEq .. |>.mp heq
      exact Steps.head ⟨a, hhead s, hn, rfl⟩ (steps_of_feed_where htail hf)

end Machine

/-! ## Interleavings over one shared log -/

section Interleaving

variable {ι : Type w} {σ : Type u} {β : Type v} [DecidableEq ι]

/-- What component `i` wrote to the shared log, in order. -/
def share (i : ι) (log : List (ι × β)) : List β :=
  log.filterMap fun p => if p.1 = i then some p.2 else none

theorem mem_share {i : ι} {b : β} {log : List (ι × β)} : b ∈ share i log ↔ (i, b) ∈ log := by
  unfold share
  rw [List.mem_filterMap]
  constructor
  · rintro ⟨⟨j, d⟩, hmem, heq⟩
    split at heq
    · rename_i hj
      obtain rfl := Option.some.inj heq
      obtain rfl : j = i := hj
      exact hmem
    · cases heq
  · intro hmem
    exact ⟨(i, b), hmem, if_pos rfl⟩

@[simp] theorem share_nil (i : ι) : share i ([] : List (ι × β)) = [] := rfl

@[simp] theorem share_cons_self (i : ι) (b : β) (log : List (ι × β)) :
    share i ((i, b) :: log) = b :: share i log := by
  simp [share]

theorem share_cons_of_ne {i j : ι} (h : i ≠ j) (b : β) (log : List (ι × β)) :
    share i ((j, b) :: log) = share i log := by
  simp [share, h.symm]

@[simp] theorem share_append (i : ι) (l₁ l₂ : List (ι × β)) :
    share i (l₁ ++ l₂) = share i l₁ ++ share i l₂ := by
  simp [share]

theorem share_snoc_self (i : ι) (b : β) (log : List (ι × β)) :
    share i (log ++ [(i, b)]) = share i log ++ [b] := by
  rw [share_append, share_cons_self, share_nil]

theorem share_snoc_of_ne {i j : ι} (h : i ≠ j) (b : β) (log : List (ι × β)) :
    share i (log ++ [(j, b)]) = share i log := by
  rw [share_append, share_cons_of_ne h, share_nil, List.append_nil]

theorem prefix_share {l₁ l₂ : List (ι × β)} (i : ι) (h : l₁ <+: l₂) : share i l₁ <+: share i l₂ :=
  h.filterMap _

@[simp] theorem share_tag_self (i : ι) (o : List β) :
    share i (o.map fun b => (i, b)) = o := by
  simp [share, List.filterMap_map]

theorem share_tag_of_ne {i j : ι} (h : j ≠ i) (o : List β) :
    share i (o.map fun b => (j, b)) = [] := by
  simp [share, List.filterMap_map, h]

/-- The only output of a component splits the log. -/
theorem exists_of_share_eq_singleton {i : ι} {b : β} {log : List (ι × β)}
    (h : share i log = [b]) :
    ∃ l₁ l₂, log = l₁ ++ (i, b) :: l₂ ∧ share i l₁ = [] ∧ share i l₂ = [] := by
  obtain ⟨l₁, ⟨j, d⟩, l₂, rfl, hnone, hd, hl₂⟩ := List.filterMap_eq_cons_iff.mp h
  split at hd
  · rename_i hj
    obtain rfl := Option.some.inj hd
    obtain rfl : j = i := hj
    exact ⟨l₁, l₂, rfl, List.filterMap_eq_nil_iff.mpr hnone, hl₂⟩
  · cases hd

/-- The components take steps one at a time, in any order; each appends its
outputs, tagged with its index, to the shared log. -/
inductive Interleaving (M : ι → Machine σ β) :
    (ι → σ) → List (ι × β) → Prop
  | start {s : ι → σ} : (∀ i, (M i).init (s i)) → Interleaving M s []
  | step {s : ι → σ} {log : List (ι × β)} (i : ι) {o : List β} {x : σ} :
      Interleaving M s log → (M i).step (s i) o x →
      Interleaving M (Function.update s i x) (log ++ o.map fun b => (i, b))

/-- **Components run on their own.** However the others are interleaved, a
component is in a state of one of its own runs, and that run's output is the
component's share of the log. -/
theorem Interleaving.component {M : ι → Machine σ β} {s : ι → σ}
    {log : List (ι × β)} (h : Interleaving M s log) (i : ι) :
    (M i).Run (s i) (share i log) := by
  induction h with
  | start h0 => exact .start (h0 i)
  | @step s log j o x _ hs ih =>
      rw [share_append]
      by_cases hj : j = i
      · subst hj
        rw [Function.update_self, share_tag_self]
        exact ih.step hs
      · rw [Function.update_of_ne (Ne.symm hj), share_tag_of_ne hj,
          List.append_nil]
        exact ih

/-- A component may run on its own for a while. -/
theorem Interleaving.steps {M : ι → Machine σ β} {s : ι → σ}
    {log : List (ι × β)} (h : Interleaving M s log) {i : ι} {o : List β} {x : σ}
    (hx : (M i).Steps (s i) o x) :
    Interleaving M (Function.update s i x) (log ++ o.map fun b => (i, b)) := by
  induction hx with
  | refl => simpa using h
  | @tail x x' o o' _ hstep ih =>
      have := ih.step i (o := o') (x := x') (by rwa [Function.update_self])
      rwa [Function.update_idem, List.append_assoc, ← List.map_append] at this

end Interleaving

end Transition
