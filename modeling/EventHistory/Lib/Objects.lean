import EventHistory.Lib.Sync

/-!
# Objects that many callers share

Any number of callers use an object at the same time. What passes between
them is a list of labels, calls and returns, each with its caller. A `Spec`
says what every operation does by itself; `Spec.atomic` is the object whose
operations take effect at one moment each, somewhere between the call and the
return. An object is `Linearizable` if the atomic one has all its outputs.

A backward simulation by the atomic object makes an object linearizable. Two
rules make use of one:

- `callers_simulatedBack`: programs that call the object cannot tell it from
  the atomic one;
- `Spec.since_steps`: where values only grow, what is called and has returned
  in the course of some steps took effect between the values at their ends.
-/

namespace Transition

/-- What passes between a caller and an object. -/
inductive Label (α β : Type) where
  | call (op : α)
  | ret (result : β)

/-- What each operation does by itself: it takes a value to another one and
returns a result. -/
structure Spec (ι σ α β : Type) where
  init : σ
  apply : ι → σ → α → β → σ → Prop

/-- Where a caller is with its operation. -/
inductive Phase (α β : Type) where
  | idle
  | called (op : α)
  | applied (op : α) (result : β)

namespace Spec

variable {ι σ α β : Type} [DecidableEq ι]

structure State (ι σ α β : Type) where
  value : σ
  phase : ι → Phase α β

namespace State

/-- Caller `i` moves on. -/
def move (s : State ι σ α β) (i : ι) (p : Phase α β) : State ι σ α β :=
  { s with phase := Function.update s.phase i p }

@[simp] theorem move_self (s : State ι σ α β) (i : ι) (p : Phase α β) :
    (s.move i p).phase i = p :=
  Function.update_self ..

theorem move_of_ne (s : State ι σ α β) {i j : ι} (h : j ≠ i) (p : Phase α β) :
    (s.move i p).phase j = s.phase j :=
  Function.update_of_ne h ..

end State

inductive Step (S : Spec ι σ α β) (s : State ι σ α β) :
    List (ι × Label α β) → State ι σ α β → Prop
  | call (i : ι) (op : α) :
      s.phase i = .idle → Step S s [(i, .call op)] (s.move i (.called op))
  | apply {i : ι} {op : α} {result : β} {value : σ} :
      s.phase i = .called op → S.apply i s.value op result value →
      Step S s [] { s.move i (.applied op result) with value }
  | ret {i : ι} {op : α} {result : β} :
      s.phase i = .applied op result → Step S s [(i, .ret result)] (s.move i .idle)

/-- The object with callers `ι` whose operations are atomic. -/
def atomic (S : Spec ι σ α β) : Machine (State ι σ α β) (ι × Label α β) where
  init s := s = { value := S.init, phase := fun _ => .idle }
  step := Step S

theorem brief_atomic (S : Spec ι σ α β) : S.atomic.Brief := by
  intro s o s' h
  cases h with
  | call | apply | ret => simp

end Spec

/-- All that callers can see of the object they could see of the atomic one. -/
def Linearizable {ι σ τ α β : Type} [DecidableEq ι] (M : Machine τ (ι × Label α β))
    (S : Spec ι σ α β) : Prop :=
  ∀ s out, M.Run s out → ∃ a, S.atomic.Run a out

theorem linearizable_of_back {ι σ τ α β : Type} [DecidableEq ι] {M : Machine τ (ι × Label α β)}
    {S : Spec ι σ α β} {R : τ → Spec.State ι σ α β → Prop} (hR : M.SimulatedBack S.atomic R) :
    Linearizable M S := by
  intro t out h
  obtain ⟨a, ha⟩ := hR.total t
  exact ⟨a, hR.run h a ha⟩

/-! ## Programs that call an object -/

/-- A caller: a state that may be waiting for an operation, and the inputs
that make it move; `answer` tells which of them bring the result. -/
structure Program (γ κ α β : Type) where
  init : γ → Prop
  next : γ → κ → Option γ
  pending : γ → Option α
  answer : γ → κ → Option β

section Programs

variable {ι σ τ γ κ α β : Type} [DecidableEq ι]

/-- One program moves by itself, calls the object, or sees the result. -/
inductive ProgramStep (P : ι → Program γ κ α β) (x : ι → γ) :
    List (ι × Label α β) → (ι → γ) → Prop
  | own {i : ι} {k : κ} {y : γ} :
      (P i).answer (x i) k = none → (P i).next (x i) k = some y →
      ProgramStep P x [] (Function.update x i y)
  | call {i : ι} {op : α} :
      (P i).pending (x i) = some op → ProgramStep P x [(i, .call op)] x
  | ret {i : ι} {k : κ} {result : β} {y : γ} :
      (P i).answer (x i) k = some result → (P i).next (x i) k = some y →
      ProgramStep P x [(i, .ret result)] (Function.update x i y)

/-- The programs together, with any answers to their calls. -/
def programs (P : ι → Program γ κ α β) : Machine (ι → γ) (ι × Label α β) where
  init x := ∀ i, (P i).init (x i)
  step := ProgramStep P

theorem brief_programs (P : ι → Program γ κ α β) : (programs P).Brief := by
  intro x o y h
  cases h with
  | own | call | ret => simp

/-- The programs over an object. -/
abbrev callers (P : ι → Program γ κ α β) (M : Machine τ (ι × Label α β)) :
    Machine ((ι → γ) × τ) (ι × Label α β) :=
  (programs P).sync M

/-- **Programs cannot tell a linearizable object from the atomic one**: a run
over an object that is simulated backwards is one over the atomic object, and
the programs are in the same states at every moment of it. -/
theorem callers_simulatedBack {M : Machine τ (ι × Label α β)} {S : Spec ι σ α β}
    {R : τ → Spec.State ι σ α β → Prop} (hR : M.SimulatedBack S.atomic R)
    (P : ι → Program γ κ α β) {x x' : ι → γ} {t t' : τ} {a' : Spec.State ι σ α β}
    {out o : List (ι × Label α β)} (h : (callers P M).Run (x, t) out)
    (hs : (callers P M).Steps (x, t) o (x', t')) (ha' : R t' a') :
    ∃ a, R t a ∧ (callers P S.atomic).Run (x, a) out
      ∧ (callers P S.atomic).Steps (x, a) o (x', a') := by
  have ht := Machine.sync_snd h
  obtain ⟨a, ha, hsteps⟩ := hR.steps ht (Machine.sync_steps_snd hs) a' ha'
  exact ⟨a, ha,
    Machine.sync_of_run (brief_programs P) S.brief_atomic (Machine.sync_fst h) (hR.run ht a ha),
    Machine.sync_steps (brief_programs P) S.brief_atomic (Machine.sync_steps_fst hs) hsteps⟩

end Programs

/-! ## Real time -/

section RealTime

variable {ι σ τ α β : Type} [DecidableEq ι] {S : Spec ι σ α β} {le : σ → σ → Prop}
  {s s' : Spec.State ι σ α β} {u : σ} {out o : List (ι × Label α β)}

/-- An operation of caller `i` was called and has returned. -/
def Completed (i : ι) (op : α) (result : β) (out : List (ι × Label α β)) : Prop :=
  [.call op, .ret result] <:+: share i out

/-- No operation takes a value back. -/
structure Spec.Grows (S : Spec ι σ α β) (le : σ → σ → Prop) : Prop where
  refl : ∀ v, le v v
  trans : ∀ {v w x}, le v w → le w x → le v x
  apply : ∀ {i v op result v'}, S.apply i v op result v' → le v v'

/-- The operation took effect between the two values. -/
def Spec.Between (S : Spec ι σ α β) (le : σ → σ → Prop) (u v : σ) (i : ι) (op : α) (result : β) :
    Prop :=
  ∃ w w', le u w ∧ S.apply i w op result w' ∧ le w' v

omit [DecidableEq ι] in
theorem Spec.Between.mono {v v' : σ} {i : ι} {op : α} {result : β} (hS : S.Grows le)
    (h : S.Between le u v i op result) (hv : le v v') : S.Between le u v' i op result := by
  obtain ⟨w, w', hu, happly, hw⟩ := h
  exact ⟨w, w', hu, happly, hS.trans hw hv⟩

/-- What holds of the operations called since the value was `u`: a pending one
is the last call of its caller, and those that took effect did so since. -/
structure Spec.Since (S : Spec ι σ α β) (le : σ → σ → Prop) (u : σ) (out : List (ι × Label α β))
    (s : Spec.State ι σ α β) : Prop where
  grown : le u s.value
  pending : ∀ i l op, share i out = l ++ [.call op] →
    s.phase i = .called op
      ∨ ∃ result, s.phase i = .applied op result ∧ S.Between le u s.value i op result
  completed : ∀ i op result, Completed i op result out → S.Between le u s.value i op result

/-- The last label completes an operation if it is the return to its call. -/
theorem completed_snoc {i : ι} {op : α} {result : β} {l : Label α β}
    (h : Completed i op result (out ++ [(i, l)])) :
    Completed i op result out ∨ l = .ret result ∧ ∃ l', share i out = l' ++ [.call op] := by
  rw [Completed, share_snoc_self, List.infix_concat_iff] at h
  rcases h with ⟨t, ht⟩ | h
  · have ht' : (t ++ [.call op]) ++ [.ret result] = share i out ++ [l] := by simpa using ht
    obtain ⟨hcall, hret⟩ := List.append_inj' ht' rfl
    exact .inr ⟨(List.cons.inj hret).1.symm, t, hcall.symm⟩
  · exact .inl h

/-- A label of caller `i`, who moves on by it, is nothing to the others. -/
theorem Spec.Since.others (h : S.Since le u out s) {i j : ι} (hj : j ≠ i) (x : Label α β)
    (p : Phase α β) :
    (∀ l op, share j (out ++ [(i, x)]) = l ++ [.call op] →
        (s.move i p).phase j = .called op
          ∨ ∃ result, (s.move i p).phase j = .applied op result
            ∧ S.Between le u s.value j op result)
      ∧ ∀ op result, Completed j op result (out ++ [(i, x)]) →
        S.Between le u s.value j op result := by
  have hshare : share j (out ++ [(i, x)]) = share j out := share_snoc_of_ne hj x out
  rw [State.move_of_ne s hj p]
  unfold Completed
  rw [hshare]
  exact ⟨h.pending j, h.completed j⟩

theorem Spec.Since.step (hS : S.Grows le) (h : S.Since le u out s) (hs : Spec.Step S s o s') :
    S.Since le u (out ++ o) s' := by
  cases hs with
  | call i op hidle =>
      refine ⟨h.grown, fun j l op' hl => ?_, fun j op' result hc => ?_⟩
      · by_cases hj : j = i
        · subst hj
          rw [share_snoc_self] at hl
          obtain ⟨-, hop⟩ := List.append_inj' hl rfl
          obtain rfl := Label.call.inj (List.cons.inj hop).1
          exact .inl (State.move_self ..)
        · exact (h.others hj _ _).1 l op' hl
      · by_cases hj : j = i
        · subst hj
          rcases completed_snoc hc with hc | ⟨hret, -⟩
          · exact h.completed j op' result hc
          · cases hret
        · exact (h.others hj _ .idle).2 op' result hc
  | @apply i op result value hcalled happly =>
      have hle := hS.apply happly
      rw [List.append_nil]
      refine ⟨hS.trans h.grown hle, fun j l op' hl => ?_, fun j op' result' hc =>
        (h.completed j op' result' hc).mono hS hle⟩
      by_cases hj : j = i
      · subst hj
        rcases h.pending j l op' hl with hp | ⟨_, hp, -⟩
        · obtain rfl := Phase.called.inj (hcalled.symm.trans hp)
          exact .inr ⟨result, State.move_self .., s.value, value, h.grown, happly, hS.refl _⟩
        · rw [hcalled] at hp
          cases hp
      · rw [show (State.phase { s.move i (.applied op result) with value } j) = s.phase j from
          State.move_of_ne _ hj _]
        rcases h.pending j l op' hl with hp | ⟨result', hp, hb⟩
        · exact .inl hp
        · exact .inr ⟨result', hp, hb.mono hS hle⟩
  | @ret i op result happlied =>
      refine ⟨h.grown, fun j l op' hl => ?_, fun j op' result' hc => ?_⟩
      · by_cases hj : j = i
        · subst hj
          rw [share_snoc_self] at hl
          obtain ⟨-, hret⟩ := List.append_inj' hl rfl
          cases (List.cons.inj hret).1
        · exact (h.others hj _ _).1 l op' hl
      · by_cases hj : j = i
        · subst hj
          rcases completed_snoc hc with hc | ⟨hret, l, hl⟩
          · exact h.completed j op' result' hc
          · obtain rfl := Label.ret.inj hret
            rcases h.pending j l op' hl with hp | ⟨result'', hp, hb⟩
            · rw [happlied] at hp
              cases hp
            · obtain ⟨rfl, rfl⟩ := Phase.applied.inj (happlied.symm.trans hp)
              exact hb
        · exact (h.others hj _ .idle).2 op' result' hc

/-- The operations that are called, and return, in the course of some steps
take effect in the course of them. -/
theorem Spec.since_steps (hS : S.Grows le) (h : S.atomic.Steps s o s') :
    S.Since le s.value o s' := by
  induction h with
  | refl =>
      refine ⟨hS.refl _, fun i l op hl => ?_, fun i op result hc => ?_⟩
      · simp [share] at hl
      · simp [Completed, share] at hc
  | tail _ hs ih => exact ih.step hS hs

end RealTime

end Transition
