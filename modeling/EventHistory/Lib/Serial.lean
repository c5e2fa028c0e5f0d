import Mathlib.Data.List.Nodup
import Mathlib.Logic.Function.Basic

/-!
# Keys that are given out once

Transactions that draw keys from one source, keep them pending, and commit or
roll back. The source never gives out a key twice, whatever becomes of the
transaction that drew it. `Distinct` is the invariant this is for: committed
and pending keys are all different.
-/

namespace Serial

universe u v

variable {ι : Type u} {κ : Type v}

/-- Committed keys, the keys each transaction has pending, and all keys
drawn so far. -/
structure Keys (ι : Type u) (κ : Type v) where
  committed : List κ
  pending : ι → List κ
  drawn : List κ

namespace Keys

/-- What transaction `i` sees. -/
def visible (k : Keys ι κ) (i : ι) : List κ := k.committed ++ k.pending i

/-- A key is drawn and lost. -/
def skip (k : Keys ι κ) (x : κ) : Keys ι κ := { k with drawn := x :: k.drawn }

variable [DecidableEq ι]

/-- Transaction `i` draws `x`. -/
def draw (k : Keys ι κ) (i : ι) (x : κ) : Keys ι κ :=
  { k with
    pending := Function.update k.pending i (k.pending i ++ [x])
    drawn := x :: k.drawn }

def commit (k : Keys ι κ) (i : ι) : Keys ι κ :=
  { k with
    committed := k.committed ++ k.pending i
    pending := Function.update k.pending i [] }

def rollback (k : Keys ι κ) (i : ι) : Keys ι κ :=
  { k with pending := Function.update k.pending i [] }

variable {k : Keys ι κ} {i j : ι} {x : κ}

@[simp] theorem draw_pending_self : (k.draw i x).pending i = k.pending i ++ [x] :=
  Function.update_self ..

theorem draw_pending_of_ne (h : j ≠ i) : (k.draw i x).pending j = k.pending j :=
  Function.update_of_ne h ..

@[simp] theorem commit_pending_self : (k.commit i).pending i = [] := Function.update_self ..

theorem commit_pending_of_ne (h : j ≠ i) : (k.commit i).pending j = k.pending j :=
  Function.update_of_ne h ..

@[simp] theorem rollback_pending_self : (k.rollback i).pending i = [] := Function.update_self ..

theorem rollback_pending_of_ne (h : j ≠ i) : (k.rollback i).pending j = k.pending j :=
  Function.update_of_ne h ..

end Keys

open Keys

variable {k : Keys ι κ}

/-- No key is twice among the committed and the pending ones. -/
structure Distinct (k : Keys ι κ) : Prop where
  committed : k.committed.Nodup
  nodup : ∀ i, (k.visible i).Nodup
  apart : ∀ i j, i ≠ j → (k.pending i).Disjoint (k.pending j)
  drawn : ∀ i, ∀ x ∈ k.visible i, x ∈ k.drawn

namespace Distinct

theorem initial : Distinct (⟨[], fun _ => [], []⟩ : Keys ι κ) :=
  ⟨List.nodup_nil, fun _ => List.nodup_nil, fun _ _ _ => List.disjoint_nil_left _,
    fun _ _ h => by cases h⟩

theorem skip (h : Distinct k) (x : κ) : Distinct (k.skip x) :=
  ⟨h.committed, h.nodup, h.apart, fun i y hy => List.mem_cons_of_mem x (h.drawn i y hy)⟩

variable [DecidableEq ι] {i : ι}

theorem draw (h : Distinct k) {x : κ} (hx : x ∉ k.drawn) : Distinct (k.draw i x) := by
  have hvisible : ∀ j, (k.draw i x).visible j = k.visible j ++ if j = i then [x] else [] := by
    intro j
    unfold visible
    by_cases hj : j = i
    · rw [hj, draw_pending_self, if_pos rfl, List.append_assoc]
      rfl
    · rw [draw_pending_of_ne hj, if_neg hj, List.append_nil]
      rfl
  have hnew : ∀ j, x ∉ k.visible j := fun j hmem => hx (h.drawn j x hmem)
  have hpending : ∀ j, x ∉ k.pending j := fun j hmem => hnew j (List.mem_append_right _ hmem)
  refine ⟨h.committed, ?_, ?_, ?_⟩
  · intro j
    rw [hvisible]
    by_cases hj : j = i
    · rw [if_pos hj]
      exact (h.nodup j).append (List.nodup_singleton x) (List.disjoint_singleton.mpr (hnew j))
    · rw [if_neg hj, List.append_nil]
      exact h.nodup j
  · intro a b hab
    have happart := h.apart a b hab
    by_cases ha : a = i
    · subst ha
      rw [draw_pending_self, draw_pending_of_ne hab.symm, List.disjoint_append_left]
      exact ⟨happart, List.singleton_disjoint.mpr (hpending b)⟩
    · rw [draw_pending_of_ne ha]
      by_cases hb : b = i
      · subst hb
        rw [draw_pending_self, List.disjoint_append_right]
        exact ⟨happart, List.disjoint_singleton.mpr (hpending a)⟩
      · rw [draw_pending_of_ne hb]
        exact happart
  · intro j y hy
    rw [hvisible] at hy
    rcases List.mem_append.mp hy with hy | hy
    · exact List.mem_cons_of_mem x (h.drawn j y hy)
    · by_cases hj : j = i
      · rw [if_pos hj] at hy
        exact List.mem_singleton.mp hy ▸ List.mem_cons_self
      · rw [if_neg hj] at hy
        cases hy

theorem rollback (h : Distinct k) : Distinct (k.rollback i) := by
  have hsub : ∀ j, ((k.rollback i).pending j).Sublist (k.pending j) := by
    intro j
    by_cases hj : j = i
    · rw [hj, rollback_pending_self]
      exact List.nil_sublist _
    · rw [rollback_pending_of_ne hj]
  have hvisible : ∀ j, ((k.rollback i).visible j).Sublist (k.visible j) :=
    fun j => (List.Sublist.refl _).append (hsub j)
  exact ⟨h.committed, fun j => (h.nodup j).sublist (hvisible j),
    fun a b hab x ha hb => h.apart a b hab ((hsub a).subset ha) ((hsub b).subset hb),
    fun j x hx => h.drawn j x ((hvisible j).subset hx)⟩

theorem commit (h : Distinct k) : Distinct (k.commit i) := by
  have hself : (k.commit i).visible i = k.visible i := by
    unfold visible
    rw [commit_pending_self, List.append_nil]
    rfl
  have hother : ∀ j, j ≠ i → (k.commit i).visible j = k.visible i ++ k.pending j := by
    intro j hj
    unfold visible
    rw [commit_pending_of_ne hj]
    rfl
  refine ⟨h.nodup i, ?_, h.rollback.apart, ?_⟩
  · intro j
    by_cases hj : j = i
    · rw [hj, hself]
      exact h.nodup i
    · rw [hother j hj]
      obtain ⟨-, hnodup, hdisjoint⟩ := List.nodup_append'.mp (h.nodup j)
      refine (h.nodup i).append hnodup (List.disjoint_append_left.mpr ⟨hdisjoint, ?_⟩)
      exact h.apart i j (Ne.symm hj)
  · intro j x hx
    by_cases hj : j = i
    · rw [hj, hself] at hx
      exact h.drawn i x hx
    · rw [hother j hj] at hx
      rcases List.mem_append.mp hx with hx | hx
      · exact h.drawn i x hx
      · exact h.drawn j x (List.mem_append_right _ hx)

end Distinct

end Serial
