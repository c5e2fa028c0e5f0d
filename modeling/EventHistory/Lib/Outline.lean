import EventHistory.Lib.Objects

/-!
# Reasoning about one program at a time

Programs over an atomic object interfere at its operations only. An `Outline`
of a program speaks of the state of the program, of its operation and of the
value of the object. The program's own steps keep it (the guarantee), and so
do the operations of the others (the rely); so it holds in every run of all
the programs together (`Outline.run`), and from any state in which it holds
(`Outline.steps`).

For an object that is not atomic, `callers_simulatedBack` gives a run over the
atomic one that passes through the same states of the programs.
-/

namespace Transition

section Outline

variable {ι σ τ γ κ α β : Type} [DecidableEq ι]

/-! ## Steps over the atomic object -/

/-- What each step does, by the caller that takes it. -/
inductive AtomicStep (P : ι → Program γ κ α β) (S : Spec ι σ α β) (x : ι → γ)
    (a : Spec.State ι σ α β) : (ι → γ) → Spec.State ι σ α β → Prop
  | own {i : ι} {k : κ} {y : γ} :
      (P i).answer (x i) k = none → (P i).next (x i) k = some y →
      AtomicStep P S x a (Function.update x i y) a
  | call {i : ι} {op : α} :
      (P i).pending (x i) = some op → a.phase i = .idle →
      AtomicStep P S x a x (a.move i (.called op))
  | apply {i : ι} {op : α} {result : β} {value : σ} :
      a.phase i = .called op → S.apply i a.value op result value →
      AtomicStep P S x a x { a.move i (.applied op result) with value }
  | ret {i : ι} {k : κ} {op : α} {result : β} {y : γ} :
      (P i).answer (x i) k = some result → (P i).next (x i) k = some y →
      a.phase i = .applied op result →
      AtomicStep P S x a (Function.update x i y) (a.move i .idle)

theorem atomicStep_of_callers {P : ι → Program γ κ α β} {S : Spec ι σ α β} {x x' : ι → γ}
    {a a' : Spec.State ι σ α β} {o : List (ι × Label α β)}
    (h : (callers P S.atomic).step (x, a) o (x', a')) : AtomicStep P S x a x' a' := by
  cases h with
  | left hx =>
      cases hx with
      | own hanswer hnext => exact .own hanswer hnext
  | right ha =>
      cases ha with
      | apply hphase happly => exact .apply hphase happly
  | both hx ha =>
      cases hx with
      | call hpending =>
          cases ha with
          | call _ _ hidle => exact .call hpending hidle
      | ret hanswer hnext =>
          cases ha with
          | ret hphase => exact .ret hanswer hnext hphase

/-! ## Outlines -/

/-- What caller `i` can rely on at each of its steps. -/
structure Outline (P : Program γ κ α β) (S : Spec ι σ α β) (i : ι)
    (J : γ → Phase α β → σ → Prop) : Prop where
  own : ∀ {x p v k y}, J x p v → P.answer x k = none → P.next x k = some y → J y p v
  call : ∀ {x v op}, J x .idle v → P.pending x = some op → J x (.called op) v
  apply : ∀ {x v op result v'}, J x (.called op) v → S.apply i v op result v' →
    J x (.applied op result) v'
  ret : ∀ {x v op k result y}, J x (.applied op result) v → P.answer x k = some result →
    P.next x k = some y → J y .idle v
  others : ∀ {x p v j op result v'}, J x p v → j ≠ i → S.apply j v op result v' → J x p v'

variable {P : ι → Program γ κ α β} {S : Spec ι σ α β} {i : ι} {J : γ → Phase α β → σ → Prop}
  {x x' : ι → γ} {a a' : Spec.State ι σ α β} {out : List (ι × Label α β)}

/-- A step of any caller keeps the outline of caller `i`. -/
theorem Outline.step (hJ : Outline (P i) S i J) (h : J (x i) (a.phase i) a.value)
    (hs : AtomicStep P S x a x' a') : J (x' i) (a'.phase i) a'.value := by
  cases hs with
  | @own j k y hanswer hnext =>
      by_cases hj : i = j
      · subst hj
        rw [Function.update_self]
        exact hJ.own h hanswer hnext
      · rwa [Function.update_of_ne hj]
  | @call j op hpending hidle =>
      by_cases hj : i = j
      · subst hj
        rw [Spec.State.move_self]
        exact hJ.call (hidle ▸ h) hpending
      · rwa [Spec.State.move_of_ne _ hj]
  | @apply j op result value hcalled happly =>
      by_cases hj : i = j
      · subst hj
        have hphase := Spec.State.move_self a i (.applied op result)
        exact hphase.symm ▸ hJ.apply (hcalled ▸ h) happly
      · have hphase := Spec.State.move_of_ne a hj (.applied op result)
        exact hphase.symm ▸ hJ.others h (Ne.symm hj) happly
  | @ret j k op result y hanswer hnext happlied =>
      by_cases hj : i = j
      · subst hj
        rw [Function.update_self, Spec.State.move_self]
        exact hJ.ret (happlied ▸ h) hanswer hnext
      · rwa [Function.update_of_ne hj, Spec.State.move_of_ne _ hj]

theorem Outline.steps (hJ : Outline (P i) S i J) (h : J (x i) (a.phase i) a.value)
    (hs : (callers P S.atomic).Steps (x, a) out (x', a')) : J (x' i) (a'.phase i) a'.value := by
  suffices hall : ∀ p o q, (callers P S.atomic).Steps p o q →
      J (p.1 i) (p.2.phase i) p.2.value → J (q.1 i) (q.2.phase i) q.2.value from hall _ _ _ hs h
  intro p o q hs h
  induction hs with
  | refl => exact h
  | tail _ hstep ih => exact hJ.step ih (atomicStep_of_callers hstep)

theorem Outline.run (hJ : Outline (P i) S i J) (hinit : ∀ y, (P i).init y → J y .idle S.init)
    (h : (callers P S.atomic).Run (x, a) out) : J (x i) (a.phase i) a.value := by
  obtain ⟨⟨x₀, a₀⟩, ⟨hx₀, rfl⟩, hsteps⟩ := h.fromStart
  exact hJ.steps (hinit _ (hx₀ i)) hsteps

end Outline

end Transition
