import Mathlib.Data.List.Nodup
import Mathlib.Data.List.Perm.Basic
import Mathlib.Data.List.Sort
import Mathlib.Order.Basic

/-!
# A fragment of SQL

Three-valued conditions, the left join and `ORDER BY`, for rows of any type.
A truth value is an `Option Bool` with `none` for `NULL`; `WHERE` keeps a row
exactly when its condition is true. `ORDER BY` leaves the order of equal keys
open: `Arranged` says which lists of rows it allows.
-/

namespace Sql

variable {α β γ κ : Type}

/-! ## Conditions -/

abbrev Truth := Option Bool

/-- A comparison is `NULL` when one of its sides is. -/
def compare (r : α → α → Bool) : Option α → Option α → Truth
  | some a, some b => some (r a b)
  | _, _ => none

def and : Truth → Truth → Truth
  | some true, t => t
  | some false, _ => some false
  | none, some false => some false
  | none, _ => none

def coalesce : Option α → Option α → Option α
  | some a, _ => some a
  | none, b => b

/-- What `WHERE` asks of a condition. -/
def holds (t : Truth) : Bool := t = some true

@[simp] theorem holds_and (s t : Truth) : holds (and s t) = (holds s && holds t) := by
  rcases s with _ | s
  · rcases t with _ | t
    · rfl
    · cases t <;> rfl
  · cases s
    · rfl
    · rfl

/-- The optional filter `column ⋈ COALESCE(param, column)`: it drops a `NULL`
column whatever the parameter, and is open without one. -/
theorem holds_compare_coalesce {r : α → α → Bool} (hr : ∀ a, r a a = true)
    (column param : Option α) :
    holds (compare r column (coalesce param column)) =
      (column.any fun a => param.all fun b => r a b) := by
  cases column with
  | none => cases param <;> rfl
  | some a =>
      cases param with
      | none => simp [holds, compare, coalesce, hr]
      | some b => simp [holds, compare, coalesce]

/-! ## Joins -/

/-- `LEFT JOIN`: every left row with its matches, or once with none. -/
def leftJoin (on : α → β → Bool) (l : List α) (r : List β) : List (α × Option β) :=
  l.flatMap fun a =>
    match r.filter (on a) with
    | [] => [(a, none)]
    | b :: bs => (b :: bs).map fun b => (a, some b)

/-- In a list without repetition one element satisfies an equation. -/
theorem filter_eq_of_nodup [DecidableEq κ] {f : α → κ} :
    ∀ {l : List α} {a : α}, (l.map f).Nodup → a ∈ l → l.filter (fun b => f a = f b) = [a]
  | x :: l, a, hnodup, ha => by
      rw [List.map_cons, List.nodup_cons] at hnodup
      rcases List.mem_cons.mp ha with rfl | ha
      · have hrest : l.filter (fun b => f a = f b) = [] := by
          rw [List.filter_eq_nil_iff]
          intro b hb hab
          exact hnodup.1 (of_decide_eq_true hab ▸ List.mem_map_of_mem hb)
        rw [List.filter_cons_of_pos (by simp), hrest]
      · have hne : f a ≠ f x := fun hax => hnodup.1 (hax ▸ List.mem_map_of_mem ha)
        rw [List.filter_cons_of_neg (by simpa using hne)]
        exact filter_eq_of_nodup hnodup.2 ha

/-- Where the key of the right table repeats nothing, every left row joins
once: with its match, or with none. -/
theorem leftJoin_unique [DecidableEq κ] {f : α → κ} {g : β → κ} {l : List α} {r : List β}
    (hnodup : (r.map g).Nodup) :
    leftJoin (fun a b => f a = g b) l r = l.map fun a => (a, r.find? fun b => f a = g b) := by
  have hmap : (l.map fun a => (a, r.find? fun b => decide (f a = g b))) =
      l.flatMap fun a => [(a, r.find? fun b => decide (f a = g b))] := List.map_eq_flatMap
  rw [leftJoin, hmap]
  refine List.flatMap_congr ?_
  intro a ha
  cases hfind : r.find? (fun b => f a = g b) with
  | none =>
      have hnone : r.filter (fun b => f a = g b) = [] :=
        List.filter_eq_nil_iff.mpr (List.find?_eq_none.mp hfind)
      rw [hnone]
  | some b =>
      have hb : f a = g b := by simpa using List.find?_some hfind
      have hone : r.filter (fun b => f a = g b) = [b] := by
        rw [hb]
        exact filter_eq_of_nodup hnodup (List.mem_of_find?_eq_some hfind)
      rw [hone]
      rfl

/-- Two tables in one-to-one correspondence by a key join row by row. -/
theorem leftJoin_pairs [DecidableEq κ] {f : α → κ} {g : β → κ} {pairs : List (α × β)}
    (hkey : ∀ p ∈ pairs, f p.1 = g p.2) (hnodup : (pairs.map fun p => f p.1).Nodup) :
    leftJoin (fun a b => f a = g b) (pairs.map (·.1)) (pairs.map (·.2)) =
      pairs.map fun p => (p.1, some p.2) := by
  have hmatch : ∀ p ∈ pairs,
      (pairs.map (·.2)).filter (fun b => f p.1 = g b) = [p.2] := by
    intro p hp
    have hfilter : pairs.filter (fun q => f p.1 = g q.2) = [p] := by
      rw [← filter_eq_of_nodup hnodup hp]
      refine List.filter_congr ?_
      intro q hq
      rw [hkey q hq]
    rw [List.filter_map]
    exact congrArg (List.map (·.2)) hfilter
  have hmap : pairs.map (fun p => (p.1, some p.2)) =
      pairs.flatMap fun p => [(p.1, some p.2)] := List.map_eq_flatMap
  rw [leftJoin, List.flatMap_map, hmap]
  refine List.flatMap_congr ?_
  intro p hp
  rw [hmatch p hp]
  rfl

/-! ## Order -/

section Order

variable [LinearOrder κ] {key : α → κ} {l a : List α}

/-- The lists `ORDER BY key` may produce from the rows `l`. -/
structure Arranged (key : α → κ) (l a : List α) : Prop where
  perm : a.Perm l
  sorted : a.Pairwise fun x y => key x ≤ key y

/-- Where the rows stand for something, row by row, an arrangement of the rows
stands for a permutation of it. -/
theorem Arranged.exists_perm {R : γ → α → Prop} {u : List γ} (ha : Arranged key l a)
    (h : List.Forall₂ R u l) : ∃ v, v.Perm u ∧ List.Forall₂ R v a := by
  have hcomp : Relation.Comp (List.Forall₂ R) List.Perm u a := ⟨l, h, ha.perm.symm⟩
  rw [List.forall₂_comp_perm_eq_perm_comp_forall₂] at hcomp
  obtain ⟨v, hperm, hv⟩ := hcomp
  exact ⟨v, hperm.symm, hv⟩

/-- And it stands for something sorted, if the keys can be told from that. -/
theorem Arranged.pairwise {f : γ → κ} {v : List γ} (ha : Arranged key l a)
    (h : List.Forall₂ (fun c x => f c = key x) v a) : v.Pairwise fun c d => f c ≤ f d := by
  have hmap : v.map f = a.map key := by
    rw [← List.forall₂_eq_eq_eq, List.forall₂_map_left_iff, List.forall₂_map_right_iff]
    exact h
  rw [← List.pairwise_map (R := (· ≤ ·)), hmap, List.pairwise_map]
  exact ha.sorted

/-- Arranging images is arranging what they are images of. -/
theorem Arranged.exists_map {key : β → κ} {f : α → β} {g : β → α} (hgf : ∀ x, g (f x) = x)
    {a : List β} (ha : Arranged key (l.map f) a) :
    ∃ b, a = b.map f ∧ Arranged (key ∘ f) l b := by
  have hfg : ∀ y ∈ a, f (g y) = y := by
    intro y hy
    obtain ⟨x, -, rfl⟩ := List.mem_map.mp (ha.perm.mem_iff.mp hy)
    rw [hgf]
  have hmap : a = (a.map g).map f := by
    rw [List.map_map]
    conv_lhs => rw [← List.map_id a]
    exact List.map_congr_left fun y hy => (hfg y hy).symm
  refine ⟨a.map g, hmap, ?_, ?_⟩
  · have hperm := ha.perm.map g
    rw [List.map_map] at hperm
    have hid : g ∘ f = id := funext hgf
    rwa [hid, List.map_id] at hperm
  · have hsorted := ha.sorted
    rw [hmap, List.pairwise_map] at hsorted
    exact hsorted

/-- One arrangement, which keeps equal keys in their order. -/
def arrange (key : α → κ) (l : List α) : List α :=
  l.insertionSort fun x y => key x ≤ key y

theorem arranged_arrange (key : α → κ) (l : List α) : Arranged key l (arrange key l) := by
  have htotal : Std.Total fun x y : α => key x ≤ key y := ⟨fun x y => le_total _ _⟩
  have htrans : IsTrans α fun x y => key x ≤ key y := ⟨fun x y z => le_trans⟩
  exact ⟨List.perm_insertionSort _ l, List.pairwise_insertionSort _ l⟩

end Order

end Sql
