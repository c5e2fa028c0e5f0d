import EventHistory.Db.Queries

/-!
# Pagination

A client that pages through the history with one limit and growing offsets.
`get_events` orders by timestamp only, so each page may be cut from another
arrangement of the rows of equal timestamp. `pagination_iff` says when that
does no harm: the filter has to bind, the rows have to decode, and no page
boundary may fall between rows of one timestamp that differ.
-/

namespace EventHistory

open Sql Paging

/-- Page `j` of size `k` under a filter. -/
def pageFilter (filter : Dto.EventFilter) (k j : Nat) : Dto.EventFilter :=
  { filter with limit := some (.ofNat k), offset := some (.ofNat (j * k)) }

/-- The same filter without a page. -/
def unpaged (filter : Dto.EventFilter) : Dto.EventFilter :=
  { filter with limit := none, offset := none }

/-- Whatever arrangement each execution picks, the pages up to the first
empty one succeed and hold every matching event exactly once. -/
def Paginates (pg : Pg) (tables : Tables) (filter : Dto.EventFilter) (k : Nat) : Prop :=
  ∀ arrange : Nat → Arrangement, (∀ j, Admissible (arrange j)) →
    ∃ q events pages,
      bindGetEvents pg (filterParams (unpaged filter)) = .ok q
      ∧ (q.rows tables).mapM (decode pg) = .ok events
      ∧ UpToEmpty (fun j => (getEvents pg (arrange j) tables (some (pageFilter filter k j))).data)
          pages
      ∧ pages.flatten.Perm events

/-! ## Decoding all rows -/

/-- The event of a row that decodes. -/
def eventOf (pg : Pg) (r : Joined) : Dto.Event := (decode pg r).toOption.getD {}

theorem decode_eq_eventOf {pg : Pg} {r : Joined} (h : (decode pg r).isOk = true) :
    decode pg r = .ok (eventOf pg r) := by
  unfold eventOf
  cases hd : decode pg r with
  | error what =>
      rw [hd] at h
      cases h
  | ok e => rfl

theorem mapM_decode {pg : Pg} {rows : List Joined} :
    (∀ r ∈ rows, (decode pg r).isOk = true) →
      rows.mapM (decode pg) = .ok (rows.map (eventOf pg)) := by
  induction rows with
  | nil => exact fun _ => rfl
  | cons r rows ih =>
      intro h
      rw [List.mapM_cons, decode_eq_eventOf (h r List.mem_cons_self),
        ih fun r' hr' => h r' (List.mem_cons_of_mem _ hr')]
      rfl

theorem isOk_of_mapM {pg : Pg} {rows : List Joined} :
    ∀ {events : List Dto.Event}, rows.mapM (decode pg) = .ok events →
      ∀ r ∈ rows, (decode pg r).isOk = true := by
  induction rows with
  | nil => exact fun _ r hr => absurd hr List.not_mem_nil
  | cons r rows ih =>
      intro events h r' hr'
      rw [List.mapM_cons] at h
      cases hd : decode pg r with
      | error what =>
          rw [hd] at h
          cases h
      | ok e =>
          cases hrest : rows.mapM (decode pg) with
          | error what =>
              rw [hd, hrest] at h
              cases h
          | ok es =>
              rcases List.mem_cons.mp hr' with rfl | hr'
              · rw [hd]
                rfl
              · exact ih hrest r' hr'

/-- For rows that decode, looking alike is decoding alike. -/
theorem cleanCut_eventOf {pg : Pg} {rows : List Joined} {c : Nat}
    (h : ∀ r ∈ rows, (decode pg r).isOk = true) :
    CleanCut orderKey (eventOf pg) rows c ↔ CleanCut orderKey (decode pg) rows c := by
  constructor
  · intro hclean x hx y hy hkey hc
    rw [decode_eq_eventOf (h x hx), decode_eq_eventOf (h y hy), hclean x hx y hy hkey hc]
  · intro hclean x hx y hy hkey hc
    unfold eventOf
    rw [hclean x hx y hy hkey hc]

/-! ## One page -/

section Page

variable {pg : Pg} {tables : Tables} {filter : Dto.EventFilter} {q : GetEventsQuery}

/-- A page within the range of the offsets is a window of its arrangement. -/
theorem page_eq (hq : bindGetEvents pg (filterParams (unpaged filter)) = .ok q)
    (hdecode : ∀ r ∈ q.rows tables, (decode pg r).isOk = true) {k j : Nat} (hk : k < 2 ^ 32)
    (hj : j * k < 2 ^ 31) {arrange : Arrangement} (ha : Admissible arrange) :
    (getEvents pg arrange tables (some (pageFilter filter k j))).data =
      some ((window k (j * k) (arrange (q.rows tables))).map (eventOf pg)) := by
  have hbind := bind_window hq hk hj
  have hwindow : ∀ r ∈ window k (j * k) (arrange (q.rows tables)),
      (decode pg r).isOk = true := fun r hr =>
    hdecode r ((ha _).perm.mem_iff.mp (List.mem_of_mem_drop (List.mem_of_mem_take hr)))
  simp only [getEvents, execGetEvents, Option.map_some, Option.getD_some, pageFilter, hbind,
    rows_withWindow, mapM_decode hwindow, Result.ok_data]

/-- How many pages there are up to the first empty one. -/
def pageCount (n k : Nat) : Nat := (n + k - 1) / k

theorem le_pageCount_mul {n k : Nat} (hk : 1 ≤ k) : n ≤ pageCount n k * k := by
  unfold pageCount
  have hdiv := Nat.div_add_mod (n + k - 1) k
  have hmod := Nat.mod_lt (n + k - 1) hk
  rw [Nat.mul_comm] at hdiv
  omega

theorem mul_lt_of_lt_pageCount {n k j : Nat} (hj : j < pageCount n k) : j * k < n := by
  have hle : (j + 1) * k ≤ n + k - 1 :=
    (Nat.mul_le_mul_right k hj).trans (Nat.div_mul_le_self ..)
  rw [Nat.succ_mul] at hle
  rcases Nat.eq_zero_or_pos k with rfl | hk
  · simp [pageCount] at hj
  · omega

/-- There are that many of them, given that each page can be had. -/
theorem upToEmpty_length {page : Nat → Option (List Dto.Event)} {results : List (List Dto.Event)}
    {rows : List Joined} {k : Nat} {arrangement : Nat → List Joined} (hk : 1 ≤ k)
    (hlen : ∀ j, (arrangement j).length = rows.length)
    (hpage : ∀ j ≤ pageCount rows.length k,
      page j = some ((window k (j * k) (arrangement j)).map (eventOf pg)))
    (h : UpToEmpty page results) : results.length = pageCount rows.length k := by
  rcases Nat.lt_trichotomy results.length (pageCount rows.length k) with hlt | heq | hgt
  · have hlast := hpage _ hlt.le
    rw [h.last, Option.some_inj, eq_comm, List.map_eq_nil_iff, window_eq_nil_iff hk, hlen] at hlast
    exact absurd (mul_lt_of_lt_pageCount hlt) (Nat.not_lt.mpr hlast)
  · exact heq
  · obtain ⟨hgot, hne⟩ := h.got _ _ (List.getElem?_eq_getElem hgt)
    rw [hpage _ (Nat.le_refl _), Option.some_inj] at hgot
    refine absurd ?_ hne
    rw [← hgot, List.map_eq_nil_iff, window_eq_nil_iff hk, hlen]
    exact le_pageCount_mul hk

theorem exists_upToEmpty {page : Nat → Option (List Dto.Event)} {rows : List Joined} {k : Nat}
    {arrangement : Nat → List Joined} (hk : 1 ≤ k)
    (hlen : ∀ j, (arrangement j).length = rows.length)
    (hpage : ∀ j ≤ pageCount rows.length k,
      page j = some ((window k (j * k) (arrangement j)).map (eventOf pg))) :
    ∃ results, UpToEmpty page results := by
  refine ⟨(List.range (pageCount rows.length k)).map fun j =>
    (window k (j * k) (arrangement j)).map (eventOf pg), ?_, ?_⟩
  · intro j r hr
    rw [List.getElem?_map] at hr
    obtain ⟨i, hi, rfl⟩ := Option.map_eq_some_iff.mp hr
    obtain ⟨hlt, rfl⟩ := List.getElem?_eq_some_iff.mp hi
    rw [List.length_range] at hlt
    rw [List.getElem_range]
    refine ⟨hpage j hlt.le, ?_⟩
    intro hnil
    rw [List.map_eq_nil_iff, window_eq_nil_iff hk, hlen] at hnil
    exact absurd (mul_lt_of_lt_pageCount hlt) (Nat.not_lt.mpr hnil)
  · rw [List.length_map, List.length_range, hpage _ (Nat.le_refl _), Option.some_inj,
      List.map_eq_nil_iff, window_eq_nil_iff hk, hlen]
    exact le_pageCount_mul hk

/-- The offsets of all requests up to the first empty page are in range. -/
def OffsetsInRange (pg : Pg) (tables : Tables) (filter : Dto.EventFilter) (k : Nat) : Prop :=
  ∀ q, bindGetEvents pg (filterParams (unpaged filter)) = .ok q →
    ∀ j ≤ pageCount (q.rows tables).length k, j * k < 2 ^ 31

/-- An execution that returns a given arrangement of given rows. -/
theorem exists_admissible {rows a : List Joined} (ha : Arranged orderKey rows a) :
    ∃ arrange : Arrangement, Admissible arrange ∧ arrange rows = a := by
  classical
  refine ⟨fun l => if l = rows then a else Sql.arrange orderKey l, ?_, if_pos rfl⟩
  intro l
  by_cases hl : l = rows
  · simpa [hl] using ha
  · simpa [hl] using arranged_arrange orderKey l

/-- A filter that paginates has clean boundaries only: a boundary between
rows that differ could repeat one of them and lose another. -/
theorem Paginates.clean {k : Nat} (hk : 1 ≤ k) (hwire : k < 2 ^ 32)
    (hoffsets : OffsetsInRange pg tables filter k) (h : Paginates pg tables filter k) :
    ∃ q, bindGetEvents pg (filterParams (unpaged filter)) = .ok q
      ∧ (∀ r ∈ q.rows tables, (decode pg r).isOk = true)
      ∧ ∀ j, CleanCut orderKey (decode pg) (q.rows tables) (j * k) := by
  obtain ⟨q, events, -, hq, hevents, -⟩ :=
    h (fun _ => Sql.arrange orderKey) fun _ => arranged_arrange orderKey
  have hdecode := isOk_of_mapM hevents
  have hall : events = (q.rows tables).map (eventOf pg) :=
    Except.ok.inj (hevents.symm.trans (mapM_decode hdecode))
  refine ⟨q, hq, hdecode, fun j => (cleanCut_eventOf hdecode).mp ?_⟩
  refine (pages_perm_iff hk (le_pageCount_mul hk)).mp ?_ j
  intro arrangement harr
  choose arrange hadm happly using fun j => exists_admissible (harr j)
  obtain ⟨q', events', results, hq', hevents', hpages, hperm⟩ := h arrange hadm
  obtain rfl := Except.ok.inj (hq.symm.trans hq')
  obtain rfl := Except.ok.inj (hevents.symm.trans hevents')
  have hpage : ∀ j ≤ pageCount (q.rows tables).length k,
      (getEvents pg (arrange j) tables (some (pageFilter filter k j))).data =
        some ((window k (j * k) (arrangement j)).map (eventOf pg)) := by
    intro j hj
    rw [page_eq hq hdecode hwire (hoffsets q hq j hj) (hadm j), happly]
  have hlen := upToEmpty_length hk (fun j => (harr j).perm.length_eq) hpage hpages
  rw [hpages.flatten_eq fun j hj => hpage j (hlen ▸ hj.le), hlen, hall] at hperm
  exact hperm

/-- **When pagination loses and repeats nothing.** With all offsets in range:
exactly when the filter's texts bind, every matching row decodes, and no page
boundary falls between matching rows of one timestamp that decode to
different events. -/
theorem pagination_iff {k : Nat} (hk : 1 ≤ k) (hwire : k < 2 ^ 32)
    (hoffsets : OffsetsInRange pg tables filter k) :
    Paginates pg tables filter k ↔
      ∃ q, bindGetEvents pg (filterParams (unpaged filter)) = .ok q
        ∧ (∀ r ∈ q.rows tables, (decode pg r).isOk = true)
        ∧ ∀ j, CleanCut orderKey (decode pg) (q.rows tables) (j * k) := by
  refine ⟨fun h => h.clean hk hwire hoffsets, ?_⟩
  rintro ⟨q, hq, hdecode, hclean⟩ arrange hadm
  have hpage : ∀ j ≤ pageCount (q.rows tables).length k,
      (getEvents pg (arrange j) tables (some (pageFilter filter k j))).data =
        some ((window k (j * k) (arrange j (q.rows tables))).map (eventOf pg)) :=
    fun j hj => page_eq hq hdecode hwire (hoffsets q hq j hj) (hadm j)
  have hlens : ∀ j, (arrange j (q.rows tables)).length = (q.rows tables).length :=
    fun j => (hadm j _).perm.length_eq
  obtain ⟨results, hpages⟩ := exists_upToEmpty hk hlens hpage
  have hlen := upToEmpty_length hk hlens hpage hpages
  refine ⟨q, _, results, hq, mapM_decode hdecode, hpages, ?_⟩
  rw [hpages.flatten_eq fun j hj => hpage j (hlen ▸ hj.le), hlen]
  refine (pages_perm_iff hk (le_pageCount_mul hk)).mpr ?_ _ fun j => hadm j _
  exact fun j => (cleanCut_eventOf hdecode).mpr (hclean j)

end Page

/-! ### Two events of one second -/

/-- A database that keeps every text, and knows one instant. -/
def samplePg : Pg where
  textIn := some
  timestamptzIn _ := some 0
  timestamptzOut _ := "2026-07-08 11:55:29+00"
  inetIn := some
  what _ := "error"

/-- Two events saved in the same second, told apart by their line. -/
def sampleTables : Tables where
  events := [⟨1, "ipv4_filter", some 0, "success"⟩, ⟨2, "ipv4_filter", some 0, "success"⟩]
  payloads := [⟨1, "first", none, "accepted", none⟩, ⟨2, "second", none, "accepted", none⟩]

/-- The event of the first row. -/
def firstEvent : Dto.Event :=
  { sourceService := "ipv4_filter", timestampUtc := "2026-07-08 11:55:29+00", status := .success,
    payload := { rawLine := "first", filterDecision := "accepted" } }

/-- One page of two holds both: no boundary falls between them. -/
theorem pagination_iff_sample : Paginates samplePg sampleTables {} 2 := by
  have hoffsets : OffsetsInRange samplePg sampleTables {} 2 := by
    rintro q hq
    obtain rfl := Except.ok.inj hq
    decide
  refine (pagination_iff (by decide) (by decide) hoffsets).mpr ⟨_, rfl, by decide, ?_⟩
  intro j x hx y hy _ hc
  have hle := hc.2.trans_le List.countP_le_length
  have hlt : j * 2 < 2 := hle
  have hpos := Nat.zero_lt_of_lt hc.1
  omega

/-- With pages of one event, two executions that arrange the two differently
return the first event twice and never the second. -/
theorem pagination_repeats :
    ∃ arrange : Nat → Arrangement, (∀ j, Admissible (arrange j))
      ∧ OffsetsInRange samplePg sampleTables {} 1
      ∧ UpToEmpty (fun j =>
          (getEvents samplePg (arrange j) sampleTables (some (pageFilter {} 1 j))).data)
          [[firstEvent], [firstEvent]]
      ∧ ¬Paginates samplePg sampleTables {} 1 := by
  have hoffsets : OffsetsInRange samplePg sampleTables {} 1 := by
    rintro q hq
    obtain rfl := Except.ok.inj hq
    decide
  let arrange : Nat → Arrangement := fun j l =>
    Sql.arrange orderKey (if j = 1 then l.reverse else l)
  have hadm : ∀ j, Admissible (arrange j) := by
    intro j l
    by_cases hj : j = 1
    · have h := arranged_arrange orderKey l.reverse
      simpa [arrange, hj] using ⟨h.perm.trans (List.reverse_perm l), h.sorted⟩
    · simpa [arrange, hj] using arranged_arrange orderKey l
  have hpage : ∀ j < 3, (getEvents samplePg (arrange j) sampleTables
      (some (pageFilter {} 1 j))).data = some ((window 1 (j * 1)
        (arrange j (joined sampleTables))).map (eventOf samplePg)) := by
    intro j hj
    exact page_eq (q := ⟨none, none, none, none, 1000000000, 0⟩) rfl (by decide) (by decide)
      (by omega) (hadm j)
  refine ⟨arrange, hadm, hoffsets, ⟨?_, hpage 2 (by decide)⟩, ?_⟩
  · intro j r hr
    rcases j with _ | _ | j
    · obtain rfl := Option.some.inj hr
      exact ⟨hpage 0 (by decide), List.cons_ne_nil _ _⟩
    · obtain rfl := Option.some.inj hr
      exact ⟨hpage 1 (by decide), List.cons_ne_nil _ _⟩
    · cases hr
  · intro h
    obtain ⟨q, hq, -, hclean⟩ := h.clean (by decide) (by decide) hoffsets
    obtain rfl := Except.ok.inj hq
    have hsame := hclean 1 (⟨1, "ipv4_filter", some 0, "success"⟩,
        some ⟨1, "first", none, "accepted", none⟩) (by decide)
      (⟨2, "ipv4_filter", some 0, "success"⟩, some ⟨2, "second", none, "accepted", none⟩)
      (by decide) rfl (by unfold Straddles; decide)
    exact absurd hsame (by decide)

end EventHistory
