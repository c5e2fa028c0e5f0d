import Mathlib.Data.List.Induction
import EventHistory.Lib.Machine

/-!
# Machines in step

Two machines with the same outputs, run side by side: each takes the steps
without output on its own, and they take the steps with an output together
(`Machine.sync`). For machines whose steps emit one output at most
(`Machine.Brief`), a run of the pair is a run of each of them with the same
outputs, and any two such runs make up a run of the pair (`sync_of_run`). So
a machine may be exchanged for another that has its outputs, and nothing that
runs in step with it can tell.
-/

namespace Transition

namespace Machine

variable {γ σ τ β : Type} {M : Machine σ β} {s s' : σ} {out : List β}

/-- A step emits one output at most. -/
def Brief (M : Machine σ β) : Prop := ∀ s o s', M.step s o s' → o.length ≤ 1

/-- The last output of a sequence of steps is emitted by one of them, and the
steps behind it are silent. -/
theorem Steps.unsnoc (hM : M.Brief) (h : M.Steps s out s') :
    ∀ {l : List β} {b : β}, out = l ++ [b] →
      ∃ s₁ s₂, M.Steps s l s₁ ∧ M.step s₁ [b] s₂ ∧ M.Steps s₂ [] s' := by
  induction h with
  | refl => intro l b heq; simp at heq
  | @tail s₁ s₂ out o h hs ih =>
      intro l b heq
      match o, hM _ _ _ hs with
      | [], _ =>
          obtain ⟨t₁, t₂, hl, hb, hquiet⟩ := ih (by simpa using heq)
          exact ⟨t₁, t₂, hl, hb, by simpa using hquiet.tail hs⟩
      | [c], _ =>
          obtain ⟨rfl, hc⟩ := List.append_inj' heq rfl
          exact ⟨_, _, h, (List.cons.inj hc).1 ▸ hs, .refl⟩

/-! ## Side by side -/

/-- The steps of a pair. -/
inductive SyncStep (C : Machine γ β) (M : Machine σ β) : γ × σ → List β → γ × σ → Prop
  | left {x y : γ} {s : σ} : C.step x [] y → SyncStep C M (x, s) [] (y, s)
  | right {x : γ} {s t : σ} : M.step s [] t → SyncStep C M (x, s) [] (x, t)
  | both {x y : γ} {s t : σ} {b : β} :
      C.step x [b] y → M.step s [b] t → SyncStep C M (x, s) [b] (y, t)

/-- `C` and `M` with their outputs in common. -/
def sync (C : Machine γ β) (M : Machine σ β) : Machine (γ × σ) β where
  init p := C.init p.1 ∧ M.init p.2
  step := SyncStep C M

variable {C : Machine γ β} {x y : γ} {t : σ}

/-- Each of the two runs on its own. -/
theorem sync_fst {p : γ × σ} (h : (sync C M).Run p out) : C.Run p.1 out := by
  induction h with
  | start h0 => exact .start h0.1
  | step _ hs ih =>
      cases hs with
      | left hx => exact ih.step hx
      | right _ => simpa using ih
      | both hx _ => exact ih.step hx

theorem sync_snd {p : γ × σ} (h : (sync C M).Run p out) : M.Run p.2 out := by
  induction h with
  | start h0 => exact .start h0.2
  | step _ hs ih =>
      cases hs with
      | left _ => simpa using ih
      | right ht => exact ih.step ht
      | both _ ht => exact ih.step ht

theorem sync_steps_fst {p q : γ × σ} (h : (sync C M).Steps p out q) : C.Steps p.1 out q.1 := by
  induction h with
  | refl => exact .refl
  | tail _ hs ih =>
      cases hs with
      | left hx => exact ih.tail hx
      | right _ => simpa using ih
      | both hx _ => exact ih.tail hx

theorem sync_steps_snd {p q : γ × σ} (h : (sync C M).Steps p out q) : M.Steps p.2 out q.2 := by
  induction h with
  | refl => exact .refl
  | tail _ hs ih =>
      cases hs with
      | left _ => simpa using ih
      | right ht => exact ih.tail ht
      | both _ ht => exact ih.tail ht

/-- Silent steps of one of them are steps of the pair. -/
theorem sync_left (h : C.Steps x out y) (hout : out = []) (s : σ) :
    (sync C M).Steps (x, s) [] (y, s) := by
  induction h with
  | refl => exact .refl
  | tail _ hs ih =>
      obtain ⟨rfl, rfl⟩ := List.append_eq_nil_iff.mp hout
      exact (ih rfl).tail (.left hs)

theorem sync_right (h : M.Steps s out t) (hout : out = []) (x : γ) :
    (sync C M).Steps (x, s) [] (x, t) := by
  induction h with
  | refl => exact .refl
  | tail _ hs ih =>
      obtain ⟨rfl, rfl⟩ := List.append_eq_nil_iff.mp hout
      exact (ih rfl).tail (.right hs)

/-- Steps with the same outputs make up steps of the pair. -/
theorem sync_steps (hC : C.Brief) (hM : M.Brief) {x : γ} {s : σ} :
    ∀ {y : γ} {t : σ}, C.Steps x out y → M.Steps s out t → (sync C M).Steps (x, s) out (y, t) := by
  induction out using List.reverseRecOn with
  | nil => exact fun hx hs => (sync_left hx rfl _).trans (sync_right hs rfl _)
  | append_singleton l b ih =>
      intro y t hx hs
      obtain ⟨x₁, x₂, hx₁, hxb, hx₂⟩ := hx.unsnoc hC rfl
      obtain ⟨s₁, s₂, hs₁, hsb, hs₂⟩ := hs.unsnoc hM rfl
      have hboth := (ih hx₁ hs₁).tail (.both hxb hsb)
      simpa using (hboth.trans (sync_left hx₂ rfl s₂)).trans (sync_right hs₂ rfl y)

/-- Two runs with the same outputs make up a run of the pair. -/
theorem sync_of_run (hC : C.Brief) (hM : M.Brief) (hx : C.Run x out) (hs : M.Run s out) :
    (sync C M).Run (x, s) out := by
  obtain ⟨x₀, hx₀, hx⟩ := hx.fromStart
  obtain ⟨s₀, hs₀, hs⟩ := hs.fromStart
  have hrun : (sync C M).Run (x₀, s₀) [] := .start ⟨hx₀, hs₀⟩
  exact hrun.steps (sync_steps hC hM hx hs)

end Machine

end Transition
