import Mathlib.Data.List.Perm.Basic
import Mathlib.Data.Prod.Lex
import Mathlib.Logic.Function.Basic
import EventHistory.Lib.Sql

/-!
# Paging through an ordered query

A query is executed once for each page, and each execution may arrange equal
keys in its own way. `window limit offset` is the page it returns. A page
boundary is clean for `f` (`CleanCut`) when the rows whose key lies on both
sides of it all look alike under `f`.

`pages_perm_iff` is the criterion: the pages make up the rows, seen through
`f`, for every choice of arrangements, exactly when every boundary is clean.
-/

namespace Paging

open Sql

variable {α κ γ : Type}

/-- `LIMIT limit OFFSET offset`. -/
def window (limit offset : Nat) (l : List α) : List α := (l.drop offset).take limit

theorem take_add_window (limit offset : Nat) (l : List α) :
    l.take (offset + limit) = l.take offset ++ window limit offset l :=
  List.take_add

theorem window_length (limit offset : Nat) (l : List α) :
    (window limit offset l).length = min limit (l.length - offset) := by
  rw [window, List.length_take, List.length_drop]

/-- A page is empty exactly when it starts behind the rows. -/
theorem window_eq_nil_iff {limit offset : Nat} (hk : 1 ≤ limit) {l : List α} :
    window limit offset l = [] ↔ l.length ≤ offset := by
  rw [← List.length_eq_zero_iff, window_length]
  omega

/-- The first `count` pages of size `k`, one arrangement for each. -/
def pages (k : Nat) (arrangement : Nat → List α) (count : Nat) : List α :=
  (List.range count).flatMap fun j => window k (j * k) (arrangement j)

/-- Pages of one arrangement are its first rows. -/
theorem pages_const (k : Nat) (a : List α) (count : Nat) :
    pages k (fun _ => a) count = a.take (count * k) := by
  induction count with
  | zero => simp [pages]
  | succ n ih =>
      rw [Nat.succ_mul, take_add_window, ← ih]
      simp [pages, List.range_succ, List.flatMap_append]

theorem pages_succ (k : Nat) (arrangement : Nat → List α) (count : Nat) :
    pages k arrangement (count + 1) =
      pages k arrangement count ++ window k (count * k) (arrangement count) := by
  simp [pages, List.range_succ, List.flatMap_append]

theorem length_pages_le (k : Nat) (arrangement : Nat → List α) (count : Nat) :
    (pages k arrangement count).length ≤ count * k := by
  induction count with
  | zero => simp [pages]
  | succ c ih =>
      have hwindow : (window k (c * k) (arrangement c)).length ≤ k := List.length_take_le ..
      rw [pages_succ, List.length_append, Nat.succ_mul]
      omega

theorem length_pages {k n : Nat} {arrangement : Nat → List α}
    (h : ∀ j, (arrangement j).length = n) (count : Nat) :
    (pages k arrangement count).length = min (count * k) n := by
  induction count with
  | zero => simp [pages]
  | succ c ih =>
      rw [pages_succ, List.length_append, ih, window_length, h, Nat.succ_mul]
      omega

/-- Pages of lists that all have at least `n` rows start with the pages of
their first `n`. -/
theorem pages_take {k n : Nat} {arrangement : Nat → List α}
    (h : ∀ j, n ≤ (arrangement j).length) (count : Nat) :
    (pages k arrangement count).take n = pages k (fun j => (arrangement j).take n) count := by
  have hlen : ∀ j, ((arrangement j).take n).length = n := fun j => by
    rw [List.length_take, Nat.min_eq_left (h j)]
  induction count with
  | zero => simp [pages]
  | succ c ih =>
      have hfirst := length_pages (k := k) hlen c
      rw [← ih, List.length_take] at hfirst
      rw [pages_succ, pages_succ, List.take_append, ih]
      congr 1
      rcases Nat.le_total (c * k) n with hle | hge
      · -- the page begins among the first `n` rows
        have hwhole : (pages k arrangement c).length = c * k := by
          have := length_pages_le k arrangement c
          omega
        rw [hwhole, window, window, List.drop_take, List.take_take, List.take_take, Nat.min_comm]
      · rw [show n - (pages k arrangement c).length = 0 by omega, List.take_zero, window,
          List.drop_eq_nil_of_le ((hlen c).trans_le hge), List.take_nil]

section Ties

variable [LinearOrder κ] {key : α → κ} {l a b : List α}

/-- The position `c` falls between rows with the key of `x`. -/
def Straddles (key : α → κ) (l : List α) (x : α) (c : Nat) : Prop :=
  l.countP (fun y => key y < key x) < c ∧ c < l.countP fun y => key y ≤ key x

/-- The rows whose key lies on both sides of position `c` look alike. -/
def CleanCut (key : α → κ) (f : α → γ) (l : List α) (c : Nat) : Prop :=
  ∀ x ∈ l, ∀ y ∈ l, key x = key y → Straddles key l x c → f x = f y

/-! ### Sorted rows around one key -/

theorem filter_nil_of_le {x : α} {k₀ : κ} (h : ∀ y ∈ l, key x ≤ key y) (hx : k₀ ≤ key x) :
    l.filter (fun y => key y < k₀) = [] := by
  rw [List.filter_eq_nil_iff]
  intro y hy hlt
  exact absurd (of_decide_eq_true hlt) (not_lt.mpr (hx.trans (h y hy)))

/-- Sorted rows are those below a key, those with it and those above. -/
theorem sorted_split (hs : a.Pairwise fun x y => key x ≤ key y) (k₀ : κ) :
    a = a.filter (fun y => key y < k₀)
      ++ (a.filter (fun y => key y = k₀) ++ a.filter fun y => k₀ < key y) := by
  induction a with
  | nil => rfl
  | cons x a ih =>
      rw [List.pairwise_cons] at hs
      have ih := ih hs.2
      rcases lt_trichotomy (key x) k₀ with hlt | heq | hgt
      · rw [List.filter_cons_of_pos (by simpa using hlt),
          List.filter_cons_of_neg (by simpa using hlt.ne),
          List.filter_cons_of_neg (by simpa using hlt.le), List.cons_append, ← ih]
      · rw [filter_nil_of_le hs.1 heq.ge, List.nil_append] at ih
        rw [List.filter_cons_of_neg (by simpa using heq.ge),
          List.filter_cons_of_pos (by simpa using heq),
          List.filter_cons_of_neg (by simpa using heq.le),
          filter_nil_of_le hs.1 heq.ge, List.nil_append, List.cons_append, ← ih]
      · have heqs : a.filter (fun y => key y = k₀) = [] := by
          rw [List.filter_eq_nil_iff]
          intro y hy hyk
          have := hs.1 y hy
          rw [of_decide_eq_true hyk] at this
          exact absurd hgt (not_lt.mpr this)
        rw [filter_nil_of_le hs.1 hgt.le, heqs, List.nil_append, List.nil_append] at ih
        rw [List.filter_cons_of_neg (by simpa using hgt.le),
          List.filter_cons_of_neg (by simpa using hgt.ne'),
          List.filter_cons_of_pos (by simpa using hgt),
          filter_nil_of_le hs.1 hgt.le, heqs, List.nil_append, List.nil_append, ← ih]

/-- How many rows have at most the key `k₀`. -/
theorem countP_le_eq (l : List α) (k₀ : κ) :
    l.countP (fun y => key y ≤ k₀) =
      l.countP (fun y => key y < k₀) + l.countP fun y => key y = k₀ := by
  induction l with
  | nil => rfl
  | cons x l ih =>
      rcases lt_trichotomy (key x) k₀ with hlt | heq | hgt
      · simp [hlt, hlt.le, hlt.ne, ih]
        omega
      · simp [heq, ih]
        omega
      · simp [not_lt.mpr hgt.le, not_le.mpr hgt, hgt.ne', ih]

/-! ### Clean cuts -/

/-- At a clean cut the rows with the key found there, as far as they stand
before the cut, are determined. -/
theorem take_ties {f : α → γ} {c : Nat} {x : α} (hx : x ∈ l) (hclean : CleanCut key f l c)
    (ha : Arranged key l a) (hle : l.countP (fun y => key y < key x) ≤ c)
    (hlt : c < l.countP fun y => key y ≤ key x) :
    ((a.filter fun y => key y = key x).take (c - l.countP fun y => key y < key x)).map f =
      List.replicate (c - l.countP fun y => key y < key x) (f x) := by
  have hlen : (a.filter fun y => key y = key x).length = l.countP fun y => key y = key x := by
    rw [← List.countP_eq_length_filter]
    exact ha.perm.countP_eq _
  rw [countP_le_eq] at hlt
  rw [List.eq_replicate_iff, List.length_map, List.length_take, hlen]
  refine ⟨by omega, ?_⟩
  intro z hz
  obtain ⟨y, hy, rfl⟩ := List.mem_map.mp hz
  have hpos : 0 < c - l.countP fun y => key y < key x := by
    have := List.length_pos_of_mem hy
    rw [List.length_take] at this
    omega
  obtain ⟨hya, hyk⟩ := List.mem_filter.mp (List.mem_of_mem_take hy)
  refine (hclean x hx y (ha.perm.mem_iff.mp hya) (of_decide_eq_true hyk).symm ⟨by omega, ?_⟩).symm
  rw [countP_le_eq]
  omega

/-- A position among the rows falls to the rows with one key. -/
theorem exists_key_at {c : Nat} (hc : c < l.length) (key : α → κ) :
    ∃ x ∈ l, l.countP (fun y => key y < key x) ≤ c ∧ c < l.countP fun y => key y ≤ key x := by
  obtain ⟨a, ha⟩ : ∃ a, Arranged key l a := ⟨_, arranged_arrange key l⟩
  have hca : c < a.length := by rwa [ha.perm.length_eq]
  obtain ⟨p, x, q, hp, rfl⟩ : ∃ p x q, p.length = c ∧ a = p ++ x :: q := by
    refine ⟨a.take c, a[c], a.drop (c + 1), ?_, ?_⟩
    · rw [List.length_take]
      omega
    · rw [← List.drop_eq_getElem_cons hca, List.take_append_drop]
  obtain ⟨-, hq, hpq⟩ := List.pairwise_append.mp ha.sorted
  have hbefore : p.countP (fun y => key y ≤ key x) = p.length := by
    rw [List.countP_eq_length]
    intro y hy
    exact decide_eq_true (hpq y hy x List.mem_cons_self)
  have hafter : q.countP (fun y => key y < key x) = 0 := by
    rw [List.countP_eq_zero]
    intro y hy hlt
    exact absurd (of_decide_eq_true hlt) (not_lt.mpr ((List.pairwise_cons.mp hq).1 y hy))
  refine ⟨x, ha.perm.mem_iff.mp (by simp), ?_, ?_⟩
  · have hle : p.countP (fun y => key y < key x) ≤ p.length := List.countP_le_length
    rw [← ha.perm.countP_eq, List.countP_append, List.countP_cons_of_neg (by simp), hafter]
    omega
  · rw [← ha.perm.countP_eq, List.countP_append, List.countP_cons_of_pos (by simp), hbefore]
    omega

/-- At a clean cut the rows before it are determined, seen through `f`. -/
theorem take_perm {f : α → γ} {c : Nat} (hclean : CleanCut key f l c)
    (ha : Arranged key l a) (hb : Arranged key l b) :
    ((a.take c).map f).Perm ((b.take c).map f) := by
  by_cases hc : c < l.length
  · obtain ⟨x, hx, hle, hlt⟩ := exists_key_at hc key
    have htake : ∀ {d : List α}, Arranged key l d → (d.take c).map f =
        (d.filter fun y => key y < key x).map f ++
          List.replicate (c - l.countP fun y => key y < key x) (f x) := by
      intro d hd
      have hlo : (d.filter fun y => key y < key x).length = l.countP fun y => key y < key x := by
        rw [← List.countP_eq_length_filter]
        exact hd.perm.countP_eq _
      have heq : (d.filter fun y => key y = key x).length = l.countP fun y => key y = key x := by
        rw [← List.countP_eq_length_filter]
        exact hd.perm.countP_eq _
      rw [countP_le_eq] at hlt
      conv_lhs => rw [sorted_split hd.sorted (key x)]
      rw [List.take_append, List.take_append, hlo, heq,
        List.take_of_length_le (hlo.trans_le hle), List.map_append, List.map_append,
        take_ties hx hclean hd hle (by rw [countP_le_eq]; exact hlt),
        show c - l.countP (fun y => key y < key x) - l.countP (fun y => key y = key x) = 0 by omega,
        List.take_zero, List.map_nil, List.append_nil]
    rw [htake ha, htake hb]
    exact (((ha.perm.trans hb.perm.symm).filter _).map f).append_right _
  · rw [List.take_of_length_le (ha.perm.length_eq.trans_le (Nat.le_of_not_lt hc)),
      List.take_of_length_le (hb.perm.length_eq.trans_le (Nat.le_of_not_lt hc))]
    exact (ha.perm.trans hb.perm.symm).map f

/-- Where further rows come behind the others, the others stand in front. -/
theorem arranged_take {l' : List α} (ha : Arranged key (l ++ l') a)
    (h : ∀ x ∈ l, ∀ y ∈ l', key x < key y) : Arranged key l (a.take l.length) := by
  have hl := arranged_arrange key l
  have hl' := arranged_arrange key l'
  have hb : Arranged key (l ++ l') (Sql.arrange key l ++ Sql.arrange key l') := by
    refine ⟨hl.perm.append hl'.perm, List.pairwise_append.mpr ⟨hl.sorted, hl'.sorted, ?_⟩⟩
    intro x hx y hy
    exact (h x (hl.perm.mem_iff.mp hx) y (hl'.perm.mem_iff.mp hy)).le
  -- no key lies on both sides of the border
  have hclean : CleanCut key id (l ++ l') l.length := by
    rintro x hx y - - ⟨hlow, hhigh⟩
    rw [List.countP_append] at hlow hhigh
    rcases List.mem_append.mp hx with hx | hx
    · have hnone : l'.countP (fun y => key y ≤ key x) = 0 :=
        List.countP_eq_zero.mpr fun y hy hle =>
          absurd (h x hx y hy) (not_lt.mpr (of_decide_eq_true hle))
      have hle : l.countP (fun y => key y ≤ key x) ≤ l.length := List.countP_le_length
      omega
    · have hall : l.countP (fun y => key y < key x) = l.length :=
        List.countP_eq_length.mpr fun y hy => decide_eq_true (h y hy x hx)
      omega
  have hperm := take_perm hclean ha hb
  rw [List.map_id, List.map_id, ← hl.perm.length_eq, List.take_left'] at hperm
  · exact ⟨(hl.perm.length_eq ▸ hperm).trans hl.perm, ha.sorted.sublist (List.take_sublist ..)⟩
  · rfl

/-- Between clean boundaries the page is determined, seen through `f`. -/
theorem window_perm {f : α → γ} {k o : Nat} (hfrom : CleanCut key f l o)
    (hto : CleanCut key f l (o + k)) (ha : Arranged key l a) (hb : Arranged key l b) :
    ((window k o a).map f).Perm ((window k o b).map f) := by
  have hsum := take_perm hto ha hb
  rw [take_add_window, take_add_window, List.map_append, List.map_append] at hsum
  have hhead := take_perm hfrom ha hb
  exact (List.perm_append_left_iff _).mp ((hhead.symm.append_right _).trans hsum)

/-! ### A boundary that is not clean -/

/-- The rows with one key may be put in any order. -/
theorem arranged_reorder {k₀ : κ} {mid : List α} (ha : Arranged key l a)
    (hmid : mid.Perm (a.filter fun y => key y = k₀)) :
    Arranged key l (a.filter (fun y => key y < k₀) ++ (mid ++ a.filter fun y => k₀ < key y)) := by
  refine ⟨?_, ?_⟩
  · refine List.Perm.trans ?_ ha.perm
    conv_rhs => rw [sorted_split ha.sorted k₀]
    exact (hmid.append_right _).append_left _
  · have hlo : ∀ y ∈ a.filter (fun y => key y < k₀), key y < k₀ :=
      fun y hy => of_decide_eq_true (List.mem_filter.mp hy).2
    have hhi : ∀ y ∈ a.filter (fun y => k₀ < key y), k₀ < key y :=
      fun y hy => of_decide_eq_true (List.mem_filter.mp hy).2
    have hm : ∀ y ∈ mid, key y = k₀ :=
      fun y hy => of_decide_eq_true (List.mem_filter.mp (hmid.mem_iff.mp hy)).2
    rw [List.pairwise_append, List.pairwise_append]
    refine ⟨ha.sorted.filter _, ⟨?_, ha.sorted.filter _, ?_⟩, ?_⟩
    · refine List.pairwise_of_forall_mem_list ?_
      intro x hx y hy
      rw [hm x hx, hm y hy]
    · intro x hx y hy
      rw [hm x hx]
      exact (hhi y hy).le
    · intro x hx y hy
      rcases List.mem_append.mp hy with hy | hy
      · rw [hm y hy]
        exact (hlo x hx).le
      · exact (hlo x hx).le.trans (hhi y hy).le

/-- Two rows of one key that straddle a position may stand next to it in
either order. -/
theorem exists_swap {x y : α} {c : Nat} (hx : x ∈ l) (hy : y ∈ l) (hne : x ≠ y)
    (hkey : key x = key y) (hc : Straddles key l x c) :
    ∃ p q, p.length + 1 = c ∧ Arranged key l (p ++ x :: y :: q)
      ∧ Arranged key l (p ++ y :: x :: q) := by
  classical
  obtain ⟨a, ha⟩ : ∃ a, Arranged key l a := ⟨_, arranged_arrange key l⟩
  obtain ⟨hlo, hhi⟩ := hc
  rw [countP_le_eq] at hhi
  rw [← ha.perm.countP_eq, List.countP_eq_length_filter] at hlo
  rw [← ha.perm.countP_eq, ← ha.perm.countP_eq, List.countP_eq_length_filter,
    List.countP_eq_length_filter] at hhi
  have hmem : ∀ z ∈ l, key z = key x → z ∈ a.filter fun y => key y = key x := fun z hz hk =>
    List.mem_filter.mpr ⟨ha.perm.mem_iff.mpr hz, decide_eq_true hk⟩
  -- the ties are `x`, `y` and a rest that fills the places around them
  obtain ⟨t, ht⟩ : ∃ t, (a.filter fun y => key y = key x).Perm (x :: y :: t) := by
    have hpx := List.perm_cons_erase (hmem x hx rfl)
    have hpy := List.perm_cons_erase
      ((List.mem_erase_of_ne hne.symm).mpr (hmem y hy hkey.symm))
    exact ⟨_, hpx.trans (hpy.cons x)⟩
  have hlen := ht.length_eq
  simp only [List.length_cons] at hlen
  let d := c - 1 - (a.filter fun y => key y < key x).length
  have hd : d ≤ t.length := by omega
  have hperm : ∀ u v : α, (t.take d ++ u :: v :: t.drop d).Perm (u :: v :: t) := by
    intro u v
    refine List.perm_middle.trans (List.Perm.cons u (List.perm_middle.trans ?_))
    rw [List.take_append_drop]
  have hxy := arranged_reorder ha ((hperm x y).trans ht.symm)
  have hyx := arranged_reorder ha ((hperm y x).trans ((List.Perm.swap x y t).trans ht.symm))
  refine ⟨a.filter (fun y => key y < key x) ++ t.take d,
    t.drop d ++ a.filter fun y => key x < key y, ?_, ?_, ?_⟩
  · rw [List.length_append, List.length_take]
    omega
  · simpa [List.append_assoc] using hxy
  · simpa [List.append_assoc] using hyx

/-- The page that ends right behind `p` and one more row. -/
theorem window_ending {k o : Nat} {p : List α} (hk : 1 ≤ k) (ho : p.length + 1 = o + k) (x : α)
    (q : List α) : window k o (p ++ x :: q) = p.drop o ++ [x] := by
  have hle : o ≤ p.length := by omega
  rw [window, List.drop_append_of_le_length hle, List.take_append, List.length_drop,
    List.take_of_length_le (by rw [List.length_drop]; omega),
    show k - (p.length - o) = 1 by omega]
  rfl

/-! ### All pages -/

/-- A page taken from another arrangement that swaps `x` and `y` around its
end no longer completes the others, unless the two look alike. -/
theorem eq_of_pages_swap {f : α → γ} {k j count : Nat} {x y : α} {p q : List α}
    (hk : 1 ≤ k) (hj : j < count) (hp : p.length + 1 = j * k + k)
    (h : ((pages k (Function.update (fun _ => p ++ x :: y :: q) j (p ++ y :: x :: q)) count).map
      f).Perm ((pages k (fun _ => p ++ x :: y :: q) count).map f)) : f x = f y := by
  obtain ⟨r₁, r₂, hr⟩ := List.append_of_mem (List.mem_range.mpr hj)
  have hnodup := List.nodup_range (n := count)
  rw [hr, List.nodup_append] at hnodup
  have hr₁ : ∀ i ∈ r₁, i ≠ j := fun i hi => hnodup.2.2 i hi j List.mem_cons_self
  have hr₂ : ∀ i ∈ r₂, i ≠ j := by
    rintro i hi rfl
    exact (List.nodup_cons.mp hnodup.2.1).1 hi
  have hupdate : ∀ r : List Nat, (∀ i ∈ r, i ≠ j) →
      (r.flatMap fun i => window k (i * k) (Function.update (fun _ => p ++ x :: y :: q) j
        (p ++ y :: x :: q) i)) = r.flatMap fun i => window k (i * k) (p ++ x :: y :: q) := by
    intro r hne
    refine List.flatMap_congr ?_
    intro i hi
    rw [Function.update_of_ne (hne i hi)]
  unfold pages at h
  rw [hr, List.flatMap_append, List.flatMap_append, List.flatMap_cons, List.flatMap_cons,
    hupdate r₁ hr₁, hupdate r₂ hr₂, Function.update_self, window_ending hk hp,
    window_ending hk hp] at h
  simp only [List.map_append] at h
  have hwindow := (List.perm_append_right_iff _).mp ((List.perm_append_left_iff _).mp h)
  have hrow := (List.perm_append_left_iff _).mp hwindow
  exact (List.singleton_inj.mp (List.perm_singleton.mp hrow)).symm

/-- **Paging loses and repeats nothing exactly when every boundary is
clean.** With enough pages of size `k` for all rows: whatever arrangement
each page is taken from, the pages are the rows, seen through `f`. -/
theorem pages_perm_iff {f : α → γ} {k count : Nat} (hk : 1 ≤ k) (hcount : l.length ≤ count * k) :
    (∀ arrangement : Nat → List α, (∀ j, Arranged key l (arrangement j)) →
      ((pages k arrangement count).map f).Perm (l.map f)) ↔
    ∀ j, CleanCut key f l (j * k) := by
  constructor
  · intro h j x hx y hy hkey hc
    by_contra hne
    obtain ⟨p, q, hp, hxy, hyx⟩ := exists_swap hx hy (fun heq => hne (heq ▸ rfl)) hkey hc
    obtain ⟨i, rfl⟩ : ∃ i, j = i + 1 := by
      refine ⟨j - 1, ?_⟩
      rcases Nat.eq_zero_or_pos j with rfl | hpos
      · rw [Nat.zero_mul] at hp
        omega
      · omega
    rw [Nat.succ_mul] at hp
    have hi : i < count := by
      have hlen := hxy.perm.length_eq
      simp only [List.length_append, List.length_cons] at hlen
      by_contra hge
      have := Nat.mul_le_mul_right k (Nat.le_of_not_lt hge)
      omega
    have hall := h (fun _ => p ++ x :: y :: q) fun _ => hxy
    have hswap := h (Function.update (fun _ => p ++ x :: y :: q) i (p ++ y :: x :: q)) ?_
    · exact hne (eq_of_pages_swap hk hi hp (hswap.trans hall.symm))
    · intro i'
      by_cases hi' : i' = i
      · rw [hi', Function.update_self]
        exact hyx
      · rw [Function.update_of_ne hi']
        exact hxy
  · intro hclean arrangement harr
    have ha := harr 0
    have hpages : ((pages k arrangement count).map f).Perm
        ((pages k (fun _ => arrangement 0) count).map f) := by
      unfold pages
      rw [List.map_flatMap, List.map_flatMap]
      refine List.Perm.flatMap_left _ ?_
      intro j _
      have hto := hclean (j + 1)
      rw [Nat.succ_mul] at hto
      exact window_perm (hclean j) hto (harr j) ha
    rw [pages_const, List.take_of_length_le (ha.perm.length_eq.trans_le hcount)] at hpages
    exact hpages.trans (ha.perm.map f)

/-- Pages of rows that grow between one page and the next: as long as all new
rows come behind, and every boundary is clean, the old rows are the first ones
of the pages, each once. -/
theorem pages_grown {f : α → γ} {k count : Nat} (hk : 1 ≤ k) (hcount : l.length ≤ count * k)
    (hclean : ∀ j, CleanCut key f l (j * k)) {page : Nat → List γ}
    (hpage : ∀ j < count, ∃ new a, (∀ x ∈ l, ∀ y ∈ new, key x < key y)
      ∧ Arranged key (l ++ new) a ∧ page j = (window k (j * k) a).map f) :
    (((List.range count).flatMap page).take l.length).Perm (l.map f) := by
  have harr : ∀ j, ∃ a, Arranged key l (a.take l.length) ∧ l.length ≤ a.length
      ∧ (j < count → page j = (window k (j * k) a).map f) := by
    intro j
    by_cases hj : j < count
    · obtain ⟨new, a, hnew, ha, hpage⟩ := hpage j hj
      refine ⟨a, arranged_take ha hnew, ?_, fun _ => hpage⟩
      rw [ha.perm.length_eq, List.length_append]
      omega
    · have ha := arranged_arrange key l
      refine ⟨Sql.arrange key l, ?_, ha.perm.length_eq.ge, fun hlt => absurd hlt hj⟩
      rwa [List.take_of_length_le ha.perm.length_eq.le]
  choose arrangement hold hlong hwindow using harr
  have hpages : (List.range count).flatMap page = (pages k arrangement count).map f := by
    rw [pages, List.map_flatMap]
    exact List.flatMap_congr fun j hj => hwindow j (List.mem_range.mp hj)
  rw [hpages, ← List.map_take, pages_take hlong]
  exact (pages_perm_iff hk hcount).mpr hclean _ hold

/-! ### What every arrangement has in front -/

/-- Rows of one key, those that pass `p` in front. -/
def frontKey (key : α → κ) (p : α → Bool) (x : α) : Lex (κ × Bool) := toLex (key x, !p x)

theorem arranged_of_frontKey {p : α → Bool} (h : Arranged (frontKey key p) l a) :
    Arranged key l a := by
  refine ⟨h.perm, h.sorted.imp ?_⟩
  intro x y hxy
  exact Prod.Lex.monotone_fst _ _ hxy

/-- Behind a row that fails `p` come none of its key or a lower one that
pass. -/
theorem countP_behind {p : α → Bool} {x : α} (hpx : p x = false)
    (hs : (x :: l).Pairwise fun y z => frontKey key p y ≤ frontKey key p z) :
    (x :: l).countP (fun y => p y && decide (key y ≤ key x)) = 0 := by
  have hstrict : ¬(true ≤ false) := by decide
  rw [List.countP_eq_zero]
  intro y hy hpass
  obtain ⟨hpy, hkey⟩ := Bool.and_eq_true_iff.mp hpass
  rcases List.mem_cons.mp hy with rfl | hy
  · rw [hpx] at hpy
    cases hpy
  · rcases Prod.Lex.toLex_le_toLex.mp ((List.pairwise_cons.mp hs).1 y hy) with hlt | ⟨-, hbool⟩
    · exact absurd hlt (not_lt.mpr (of_decide_eq_true hkey))
    · rw [hpx, hpy] at hbool
      exact hstrict hbool

/-- If each arrangement has a failing row among its first `n`, one fails that
has fewer than `n` of the others up to its key: they could all stand before
it. -/
theorem count_of_forall_take {p : α → Bool} {n : Nat}
    (h : ∀ a, Arranged key l a → ∃ x ∈ a.take n, p x = false) :
    ∃ x ∈ l, p x = false ∧ l.countP (fun y => p y && decide (key y ≤ key x)) < n := by
  obtain ⟨a, ha⟩ : ∃ a, Arranged (frontKey key p) l a := ⟨_, arranged_arrange _ l⟩
  obtain ⟨x, hx, hpx⟩ := h a (arranged_of_frontKey ha)
  obtain ⟨s, t, hst⟩ := List.append_of_mem hx
  refine ⟨x, ha.perm.mem_iff.mp (List.mem_of_mem_take hx), hpx, ?_⟩
  have hsplit : a = s ++ x :: (t ++ a.drop n) := by
    rw [← List.cons_append, ← List.append_assoc, ← hst, List.take_append_drop]
  have hlen : s.length < n := by
    have hle := List.length_take_le n a
    rw [hst, List.length_append, List.length_cons] at hle
    omega
  have hsorted := ha.sorted
  rw [hsplit, List.pairwise_append] at hsorted
  rw [← ha.perm.countP_eq, hsplit, List.countP_append, countP_behind hpx hsorted.2.1]
  exact lt_of_le_of_lt List.countP_le_length hlen

/-- And such a row is never behind the first `n`. -/
theorem exists_take_of_count {p : α → Bool} {n : Nat} {x : α} (hx : x ∈ l) (hpx : p x = false)
    (hcount : l.countP (fun y => p y && decide (key y ≤ key x)) < n) (ha : Arranged key l a) :
    ∃ y ∈ a.take n, p y = false := by
  by_contra hall
  have hpass : ∀ y ∈ a.take n, p y = true := by
    intro y hy
    by_contra hy'
    exact hall ⟨y, hy, Bool.not_eq_true _ ▸ hy'⟩
  have hsplit := List.take_append_drop n a
  have hdrop : x ∈ a.drop n := by
    have hmem := ha.perm.mem_iff.mpr hx
    rw [← hsplit, List.mem_append] at hmem
    refine hmem.resolve_left ?_
    intro htake
    rw [hpass x htake] at hpx
    cases hpx
  have hlong : n ≤ a.length := by
    have hpos := List.length_pos_of_mem hdrop
    rw [List.length_drop] at hpos
    omega
  have hsorted := ha.sorted
  rw [← hsplit, List.pairwise_append] at hsorted
  have htake : (a.take n).countP (fun y => p y && decide (key y ≤ key x)) = n := by
    rw [List.countP_eq_length.mpr, List.length_take, Nat.min_eq_left hlong]
    intro y hy
    rw [hpass y hy, decide_eq_true (hsorted.2.2 y hy x hdrop)]
    rfl
  rw [← ha.perm.countP_eq, ← hsplit, List.countP_append, htake] at hcount
  omega

end Ties

/-! ## Up to the first empty page -/

/-- `results` are the pages from the first on, up to the first empty one;
`page` answers `none` where a page cannot be had. -/
structure UpToEmpty (page : Nat → Option (List γ)) (results : List (List γ)) : Prop where
  got : ∀ j r, results[j]? = some r → page j = some r ∧ r ≠ []
  last : page results.length = some []

variable {page : Nat → Option (List γ)}

/-- The results as the pages of the arrangements behind them. -/
theorem UpToEmpty.flatten_eq {results : List (List γ)} {f : α → γ} {k : Nat}
    {arrangement : Nat → List α}
    (h : UpToEmpty page results)
    (hpage : ∀ j < results.length, page j = some ((window k (j * k) (arrangement j)).map f)) :
    results.flatten = (pages k arrangement results.length).map f := by
  have hresults : results =
      (List.range results.length).map fun j => (window k (j * k) (arrangement j)).map f := by
    refine List.ext_getElem (by simp) ?_
    intro j hj _
    rw [List.getElem_map, List.getElem_range]
    have hget := (h.got j _ (List.getElem?_eq_getElem hj)).1
    rw [hpage j hj] at hget
    exact (Option.some.inj hget).symm
  rw [pages, List.map_flatMap, List.flatMap_def, ← hresults]

end Paging
