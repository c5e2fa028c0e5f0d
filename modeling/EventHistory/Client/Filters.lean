import EventHistory.Db.Queries
import EventHistory.Client.CommandLine

/-!
# From the command line to the query

The way of a limit and an offset: the `int` of `std::stoi`, the `size_t` of
the client's filter, the `uint32` of the wire, the `size_t` of the server's
filter, and the decimal text that is bound to the statement. `lastInt` reads
the number off the command line; `Parses.numbers` says that the client's
filter holds it, and `roundTrip_iff` when it survives the wire.
-/

namespace EventHistory

open CxxText Proto

/-! ## The numbers on the command line -/

/-- The number behind the last occurrence of an option. -/
def lastInt (type : Dto.FilterType) : List CliOption → Option Int
  | [] => none
  | o :: os =>
      (lastInt type os).or
        (if o.type = some type then o.value.bind fun v => (stoi v).toOption else none)

/-- The number typed for an option of a `get` command. -/
def typedInt (type : Dto.FilterType) (args : List String) : Option Int :=
  lastInt type (options (args.drop 1))

section Typed

variable {filter f : Dto.EventFilter} {stderr : List String} {os : List CliOption}
  {parsed : Parsed} {o : CliOption} {type type' : Dto.FilterType} {value : String}

theorem lastInt_of_ne (htype : o.type = some type) (hne : type ≠ type') :
    lastInt type' (o :: os) = lastInt type' os := by
  have hne' : o.type ≠ some type' := by
    rw [htype]
    exact fun h => hne (Option.some.inj h)
  rw [lastInt, if_neg hne', Option.or_none]

theorem lastInt_of_eq {n : Int} (htype : o.type = some type) (hvalue : o.value = some value)
    (hn : stoi value = .ok n) : lastInt type (o :: os) = (lastInt type os).or (some n) := by
  rw [lastInt, if_pos htype, hvalue, Option.bind_some, hn]
  rfl

theorem lastInt_missing (hvalue : o.value = none) : lastInt type [o] = none := by
  simp [lastInt, hvalue]

/-- Every number of a command line is an `int`. -/
theorem isInt_of_lastInt {n : Int} (h : lastInt type os = some n) : IsInt n := by
  induction os with
  | nil => cases h
  | cons o os ih =>
      rw [lastInt, Option.or_eq_some_iff] at h
      rcases h with h | ⟨-, h⟩
      · exact ih h
      · split at h
        · obtain ⟨v, -, hv⟩ := Option.bind_eq_some_iff.mp h
          cases hs : stoi v with
          | error what =>
              rw [hs] at hv
              cases hv
          | ok m =>
              rw [hs] at hv
              obtain rfl := Option.some.inj hv
              exact (stoi_eq_ok.mp hs).2
        · cases h

/-- A filter that was parsed holds the numbers that were typed. -/
theorem Parses.numbers (h : Parses filter stderr os parsed) (hf : parsed.filter = some f) :
    f.limit = ((lastInt .limit os).map sizeOfInt).or filter.limit
      ∧ f.offset = ((lastInt .offset os).map sizeOfInt).or filter.offset := by
  have hor : ∀ {a : Option Int} {n : Int} {x : Option UInt64},
      ((a.or (some n)).map sizeOfInt).or x = (a.map sizeOfInt).or (some (sizeOfInt n)) := by
    intro a n x
    cases a <;> rfl
  induction h with
  | done =>
      obtain rfl := Option.some.inj hf
      exact ⟨rfl, rfl⟩
  | unknown => cases hf
  | missing _ _ hvalue =>
      obtain rfl := Option.some.inj hf
      rw [lastInt_missing hvalue, lastInt_missing hvalue]
      exact ⟨rfl, rfl⟩
  | unsupported => cases hf
  | set _ htype hvalue hset _ ih =>
      obtain ⟨hlimit, hoffset⟩ := ih hf
      cases sets_of_ok hset with
      | limit hn =>
          rw [lastInt_of_eq htype hvalue hn, lastInt_of_ne htype (by decide), hor]
          exact ⟨hlimit, hoffset⟩
      | offset hn =>
          rw [lastInt_of_eq htype hvalue hn, lastInt_of_ne htype (by decide), hor]
          exact ⟨hlimit, hoffset⟩
      | status _ =>
          rw [lastInt_of_ne htype (by decide), lastInt_of_ne htype (by decide)]
          exact ⟨hlimit, hoffset⟩
      | sourceService =>
          rw [lastInt_of_ne htype (by decide), lastInt_of_ne htype (by decide)]
          exact ⟨hlimit, hoffset⟩

end Typed

/-! ## Over the wire -/

/-- A `size_t` survives the `uint32` of the wire when it fits. -/
theorem toUInt64_toUInt32 {x : UInt64} : x.toUInt32.toUInt64 = x ↔ x.toNat < 2 ^ 32 := by
  rw [← UInt64.toNat_inj, UInt32.toNat_toUInt64, UInt64.toNat_toUInt32]
  exact Nat.mod_eq_iff_lt (by decide)

theorem toNat_sizeOfInt (n : Int) : (sizeOfInt n).toNat = (n % 2 ^ 64).toNat := by
  rw [sizeOfInt, UInt64.ofInt, UInt64.toNat_ofNat']
  omega

/-- An `int` that became a `size_t` fits the wire when it was not negative. -/
theorem sizeOfInt_lt_iff {n : Int} (h : IsInt n) : (sizeOfInt n).toNat < 2 ^ 32 ↔ 0 ≤ n := by
  obtain ⟨hlow, hhigh⟩ := h
  rw [toNat_sizeOfInt]
  omega

theorem toNat_sizeOfInt_of_nonneg {n : Int} (h : IsInt n) (hn : 0 ≤ n) :
    ((sizeOfInt n).toNat : Int) = n := by
  obtain ⟨hlow, hhigh⟩ := h
  rw [toNat_sizeOfInt]
  omega

/-- The server's filter of a client's filter without times. -/
theorem serverFilter (tu : TimeUtil) {f : Dto.EventFilter} (hfrom : f.from = none)
    (hto : f.to = none) :
    ∃ request, GrpcService.addFilterToRequest tu {} (some f) = .ok request
      ∧ fromProtoEventFilter tu (some request.getEventFilter) =
        some { f with
          limit := f.limit.map fun n => n.toUInt32.toUInt64
          offset := f.offset.map fun n => n.toUInt32.toUInt64 } := by
  obtain ⟨sourceService, status, limit, ffrom, fto, offset⟩ := f
  obtain rfl : ffrom = none := hfrom
  obtain rfl : fto = none := hto
  refine ⟨_, rfl, ?_⟩
  simp [fromProtoEventFilter, GetEventsRequest.getEventFilter, Function.comp_def]

/-- An optional number that survives the wire. -/
theorem map_toUInt32_eq_self {o : Option UInt64} :
    (o.map fun n => n.toUInt32.toUInt64) = o ↔ ∀ n, o = some n → n.toNat < 2 ^ 32 := by
  cases o with
  | none => simp
  | some n => simp only [Option.map_some, Option.some.injEq, forall_eq', toUInt64_toUInt32]

/-- A number typed on the command line survives the wire when it was not
negative. -/
theorem map_sizeOfInt_fits {o : Option Int} (hint : ∀ n, o = some n → IsInt n) :
    (∀ x, o.map sizeOfInt = some x → x.toNat < 2 ^ 32) ↔ ∀ n, o = some n → 0 ≤ n := by
  cases o with
  | none => simp
  | some n =>
      simp only [Option.map_some, Option.some.injEq, forall_eq', sizeOfInt_lt_iff (hint n rfl)]

/-- The decimal text of a number that was not negative. -/
theorem text_of_nonneg {o : Option Int} (hint : ∀ n, o = some n → IsInt n)
    (hnonneg : ∀ n, o = some n → 0 ≤ n) :
    ((o.map sizeOfInt).map fun x => toString x.toNat) = o.map toString := by
  cases o with
  | none => rfl
  | some n =>
      have hn := toNat_sizeOfInt_of_nonneg (hint n rfl) (hnonneg n rfl)
      rw [Option.map_some, Option.map_some, Option.map_some, Option.some_inj]
      conv_rhs => rw [← hn]
      rfl

/-! ## What reaches the query -/

/-- The server's filter is the client's filter `f`, and the texts bound to
`$5` and `$6` are those of the integers typed. -/
def ReachesQuery (tu : TimeUtil) (args : List String) (f : Dto.EventFilter) : Prop :=
  ∃ request g, GrpcService.addFilterToRequest tu {} (some f) = .ok request
    ∧ fromProtoEventFilter tu (some request.getEventFilter) = some g
    ∧ g = f
    ∧ (filterParams g)[4]? = some ((typedInt .limit args).map toString)
    ∧ (filterParams g)[5]? = some ((typedInt .offset args).map toString)

/-- **When the filter that reaches the query is the filter that was typed.**
For every command line that `ParseEventFilter` accepts: exactly when neither
the limit nor the offset typed is negative. -/
theorem reachesQuery_iff {args : List String} {parsed : Parsed} {f : Dto.EventFilter}
    (h : parseEventFilter args = .ok parsed) (hf : parsed.filter = some f) (tu : TimeUtil) :
    ReachesQuery tu args f ↔
      (∀ n, typedInt .limit args = some n → 0 ≤ n)
        ∧ ∀ n, typedInt .offset args = some n → 0 ≤ n := by
  have hparses := parses_of_ok h
  obtain ⟨hfrom, hto⟩ := hparses.times hf
  obtain ⟨hlimit, hoffset⟩ := hparses.numbers hf
  rw [Option.or_none] at hlimit hoffset
  have hintLimit : ∀ n, typedInt .limit args = some n → IsInt n := fun n => isInt_of_lastInt
  have hintOffset : ∀ n, typedInt .offset args = some n → IsInt n := fun n => isInt_of_lastInt
  obtain ⟨request, hrequest, hserver⟩ := serverFilter tu hfrom hto
  constructor
  · rintro ⟨request', g, hrequest', hg, rfl, -, -⟩
    obtain rfl := Except.ok.inj (hrequest.symm.trans hrequest')
    have hsame := Option.some.inj (hserver.symm.trans hg)
    have hsameLimit := congrArg Dto.EventFilter.limit hsame
    have hsameOffset := congrArg Dto.EventFilter.offset hsame
    refine ⟨?_, ?_⟩
    · rw [← map_sizeOfInt_fits hintLimit, typedInt, ← hlimit]
      exact map_toUInt32_eq_self.mp hsameLimit
    · rw [← map_sizeOfInt_fits hintOffset, typedInt, ← hoffset]
      exact map_toUInt32_eq_self.mp hsameOffset
  · rintro ⟨hnonnegLimit, hnonnegOffset⟩
    have hfitsLimit := (map_sizeOfInt_fits hintLimit).mpr hnonnegLimit
    have hfitsOffset := (map_sizeOfInt_fits hintOffset).mpr hnonnegOffset
    rw [typedInt, ← hlimit] at hfitsLimit
    rw [typedInt, ← hoffset] at hfitsOffset
    rw [map_toUInt32_eq_self.mpr hfitsLimit, map_toUInt32_eq_self.mpr hfitsOffset] at hserver
    refine ⟨request, f, hrequest, hserver, rfl, ?_, ?_⟩
    · rw [← text_of_nonneg hintLimit hnonnegLimit, typedInt, ← hlimit]
      rfl
    · rw [← text_of_nonneg hintOffset hnonnegOffset, typedInt, ← hoffset]
      rfl

/-- The numbers of the help text reach the query. -/
theorem reachesQuery_iff_sample :
    ReachesQuery ⟨fun _ => none, fun _ => ""⟩ ["Get", "--limit", "10", "--offset", "1"]
      { limit := some 10, offset := some 1 } := by
  have hparse : parseEventFilter ["Get", "--limit", "10", "--offset", "1"] =
      .ok ⟨some { limit := some 10, offset := some 1 }, []⟩ := by decide +kernel
  refine (reachesQuery_iff hparse rfl _).mpr ⟨?_, ?_⟩
  · intro n hn
    obtain rfl : 10 = n := Option.some.inj hn
    decide
  · intro n hn
    obtain rfl : 1 = n := Option.some.inj hn
    decide

/-- An offset of -1 arrives as 4294967295, and PostgreSQL refuses that text
for an `INTEGER` before `GREATEST` could make it 0. -/
theorem negative_offset_refused :
    ∃ args f g request, parseEventFilter args = .ok ⟨some f, []⟩
      ∧ typedInt .offset args = some (-1)
      ∧ GrpcService.addFilterToRequest ⟨fun _ => none, fun _ => ""⟩ {} (some f) = .ok request
      ∧ fromProtoEventFilter ⟨fun _ => none, fun _ => ""⟩ (some request.getEventFilter) = some g
      ∧ g ≠ f ∧ (filterParams g)[5]? = some (some "4294967295")
      ∧ (∀ pg, bindGetEvents pg (filterParams g) = .error (.outOfRange "integer"))
      ∧ ¬ReachesQuery ⟨fun _ => none, fun _ => ""⟩ args f := by
  have hparse : parseEventFilter ["get", "--offset", "-1"] =
      .ok ⟨some { offset := some 18446744073709551615 }, []⟩ := by decide +kernel
  have htyped : typedInt .offset ["get", "--offset", "-1"] = some (-1) := by decide
  refine ⟨["get", "--offset", "-1"], { offset := some 18446744073709551615 },
    { offset := some 4294967295 }, { eventFilter := some { offset := some 4294967295 } }, hparse,
    htyped, rfl, rfl, by decide, by decide, ?_, ?_⟩
  · intro pg
    have htext := int4In_toString_of_le (n := 4294967295) (by decide)
    have hnat : (4294967295 : UInt64).toNat = 4294967295 := rfl
    simp only [bindGetEvents, filterParams, Option.map_none, Option.map_some, Option.mapM_none,
      Option.mapM_some, hnat, htext]
    rfl
  · intro h
    have hnonneg := ((reachesQuery_iff hparse rfl _).mp h).2 (-1) htyped
    exact absurd hnonneg (by decide)

end EventHistory
