import EventHistory.Client.Filters

/-!
# The option grammar

What the help text promises of `get` (`Documented`, `Holds`), and what
`ParseEventFilter` accepts beyond it: an option whose first two characters are
not dashes, an option without its value, a number with more text around it,
and a negative number, which no `size_t` holds. `meetsGrammar_iff` says that
there is nothing else.
-/

namespace EventHistory

open CxxText

/-! ## The grammar -/

/-- An option of the help text with its value. -/
inductive ValidOption : String → String → Prop
  | limit {value : String} {n : Int} :
      intLiteral value = some n → IsInt n → ValidOption "--limit" value
  | offset {value : String} {n : Int} :
      intLiteral value = some n → IsInt n → ValidOption "--offset" value
  | status {value : String} :
      value ∈ ["unspecified", "success", "error"] → ValidOption "--status" value
  | sourceService (value : String) : ValidOption "--source_service" value

/-- The options of `get` as the help text has them. -/
inductive Documented : List String → Prop
  | nil : Documented []
  | option {arg value : String} {rest : List String} :
      ValidOption arg value → Documented rest → Documented (arg :: value :: rest)

/-- The value of the last occurrence of an option. -/
def lastValue (arg : String) : List String → Option String
  | arg' :: value :: rest => (lastValue arg rest).or (if arg' = arg then some value else none)
  | _ => none

/-- The integer of the last occurrence of an option. -/
def lastLiteral (arg : String) (args : List String) : Option Int :=
  (lastValue arg args).bind intLiteral

/-- A field is there if its option is, and holds the value of the last one. -/
structure Holds (args : List String) (f : Dto.EventFilter) : Prop where
  limit : (f.limit.map fun n => (n.toNat : Int)) = lastLiteral "--limit" args
  offset : (f.offset.map fun n => (n.toNat : Int)) = lastLiteral "--offset" args
  status : f.status.map Dto.statusToStr = lastValue "--status" args
  sourceService : f.sourceService = lastValue "--source_service" args
  «from» : f.from = none
  «to» : f.to = none

/-- `ParseEventFilter` returns a filter. -/
def Returns (args : List String) (f : Dto.EventFilter) : Prop :=
  ∃ parsed, parseEventFilter args = .ok parsed ∧ parsed.filter = some f

/-- A filter is returned for the documented options and for no others, and
holds what they say. -/
def MeetsGrammar (args : List String) : Prop :=
  ((∃ f, Returns args f) ↔ Documented (args.drop 1))
    ∧ ∀ f, Returns args f → Holds (args.drop 1) f

section Grammar

variable {arg value : String} {args rest : List String}

theorem ValidOption.literal (h : ValidOption arg value)
    (harg : arg = "--limit" ∨ arg = "--offset") :
    ∃ n, intLiteral value = some n ∧ IsInt n := by
  cases h with
  | limit hn hint => exact ⟨_, hn, hint⟩
  | offset hn hint => exact ⟨_, hn, hint⟩
  | status _ => simp at harg
  | sourceService => simp at harg

theorem ValidOption.statusName (h : ValidOption arg value) (harg : arg = "--status") :
    ∃ status, Dto.strToStatus value = .ok status := by
  cases h with
  | limit _ _ => simp at harg
  | offset _ _ => simp at harg
  | status hname => exact Dto.mem_statusNames.mp hname
  | sourceService => simp at harg

/-- The last value of an option is one of its values. -/
theorem Documented.lastValue (h : Documented args) (hlast : lastValue arg args = some value) :
    ValidOption arg value := by
  induction h with
  | nil => cases hlast
  | @option arg' value' rest hvalid _ ih =>
      rw [EventHistory.lastValue, Option.or_eq_some_iff] at hlast
      rcases hlast with hlast | ⟨-, hlast⟩
      · exact ih hlast
      · by_cases heq : arg' = arg
        · rw [if_pos heq] at hlast
          obtain rfl := Option.some.inj hlast
          exact heq ▸ hvalid
        · rw [if_neg heq] at hlast
          cases hlast

end Grammar

/-! ## Documented options are parsed -/

/-- A filter with the options behind it. -/
def applied (args : List String) (filter : Dto.EventFilter) : Dto.EventFilter where
  limit := ((lastLiteral "--limit" args).map sizeOfInt).or filter.limit
  offset := ((lastLiteral "--offset" args).map sizeOfInt).or filter.offset
  status :=
    ((lastValue "--status" args).bind fun s => (Dto.strToStatus s).toOption).or filter.status
  sourceService := (lastValue "--source_service" args).or filter.sourceService
  «from» := filter.from
  «to» := filter.to

section Applied

variable {arg value : String} {args rest : List String}

theorem lastValue_cons (a : String) :
    lastValue a (arg :: value :: rest) = (lastValue a rest).or (lastValue a [arg, value]) := by
  simp [lastValue]

/-- A value that can be read hides the one in front of it. -/
theorem bind_or_of_isSome {α β : Type} {x y : Option α} {f : α → Option β}
    (h : ∀ a, x = some a → (f a).isSome = true) : (x.or y).bind f = (x.bind f).or (y.bind f) := by
  cases x with
  | none => rfl
  | some a =>
      obtain ⟨b, hb⟩ := Option.isSome_iff_exists.mp (h a rfl)
      simp [hb]

/-- One option after the other. -/
theorem applied_cons (h : Documented rest) (filter : Dto.EventFilter) :
    applied (arg :: value :: rest) filter = applied rest (applied [arg, value] filter) := by
  have hliteral : ∀ a, a = "--limit" ∨ a = "--offset" →
      lastLiteral a (arg :: value :: rest) =
        (lastLiteral a rest).or (lastLiteral a [arg, value]) := by
    intro a ha
    rw [lastLiteral, lastValue_cons, bind_or_of_isSome]
    · rfl
    · intro v hv
      obtain ⟨n, hn, -⟩ := (h.lastValue hv).literal ha
      rw [hn]
      rfl
  have hstatus : ((lastValue "--status" (arg :: value :: rest)).bind fun s =>
      (Dto.strToStatus s).toOption) =
        ((lastValue "--status" rest).bind fun s => (Dto.strToStatus s).toOption).or
          ((lastValue "--status" [arg, value]).bind fun s => (Dto.strToStatus s).toOption) := by
    rw [lastValue_cons, bind_or_of_isSome]
    intro v hv
    obtain ⟨status, hs⟩ := (h.lastValue hv).statusName rfl
    rw [hs]
    rfl
  have hsource : lastValue "--source_service" (arg :: value :: rest) =
      (lastValue "--source_service" rest).or (lastValue "--source_service" [arg, value]) :=
    lastValue_cons _
  simp only [applied, hliteral _ (.inl rfl), hliteral _ (.inr rfl), hstatus, hsource,
    Option.map_or, Option.or_assoc]

/-- An option that sets something is one step of the loop. -/
theorem parseLoop_set {filter filter' : Dto.EventFilter} {stderr : List String}
    {type : Dto.FilterType} (hlen : 2 ≤ arg.length)
    (htype : CliOption.type ⟨arg, some value⟩ = some type)
    (hset : setOption filter type value = .ok (some filter')) :
    parseLoop filter stderr (arg :: value :: rest) = parseLoop filter' stderr rest := by
  rw [parseLoop_cons ⟨arg, some value⟩ rfl hlen, htype]
  simp only [hset]
  rfl

theorem stoi_of_intLiteral {n : Int} (hn : intLiteral value = some n) (hint : IsInt n) :
    stoi value = .ok n :=
  stoi_eq_ok.mpr ⟨leadingInt_of_intLiteral hn, hint⟩

/-- The option without its dashes is the name of its type. -/
theorem type_of_name {type : Dto.FilterType}
    (h : Dto.kMap.lookup (String.ofList (arg.toList.drop 2)) = some type) :
    CliOption.type ⟨arg, some value⟩ = some type := h

/-- The switch on a documented option. -/
theorem ValidOption.set (h : ValidOption arg value) (filter : Dto.EventFilter) :
    ∃ type, CliOption.type ⟨arg, some value⟩ = some type
      ∧ setOption filter type value = .ok (some (applied [arg, value] filter)) := by
  cases h with
  | limit hn hint =>
      refine ⟨.limit, type_of_name (by decide), ?_⟩
      rw [setOption, stoi_of_intLiteral hn hint]
      simp [Except.map, applied, lastLiteral, lastValue, hn]
  | offset hn hint =>
      refine ⟨.offset, type_of_name (by decide), ?_⟩
      rw [setOption, stoi_of_intLiteral hn hint]
      simp [Except.map, applied, lastLiteral, lastValue, hn]
  | status hname =>
      obtain ⟨status, hs⟩ := Dto.mem_statusNames.mp hname
      refine ⟨.status, type_of_name (by decide), ?_⟩
      rw [setOption, hs]
      simp [Except.map, applied, lastLiteral, lastValue, hs, Except.toOption]
  | sourceService =>
      refine ⟨.srcSrv, type_of_name (by decide), ?_⟩
      simp [setOption, applied, lastLiteral, lastValue]

theorem ValidOption.dashes (h : ValidOption arg value) : arg.toList.take 2 = ['-', '-'] := by
  cases h <;> rfl

/-- The loop takes documented options one after the other. -/
theorem parseLoop_documented (h : Documented args) :
    ∀ (filter : Dto.EventFilter) (stderr : List String),
      parseLoop filter stderr args = .ok { filter := some (applied args filter), stderr } := by
  induction h with
  | nil =>
      intro filter stderr
      simp [parseLoop, applied, lastLiteral, lastValue]
  | @option arg value rest hvalid hrest ih =>
      intro filter stderr
      obtain ⟨type, htype, hset⟩ := hvalid.set filter
      have hlen : 2 ≤ arg.length := by
        have := congrArg List.length hvalid.dashes
        rw [List.length_take, String.length_toList] at this
        simp at this
        omega
      rw [parseLoop_set hlen htype hset, ih, applied_cons hrest]

end Applied

/-! ## What else is parsed -/

namespace CliOption

/-- The option is written as the help text has it: two dashes, a value, and for
a number nothing around it. -/
structure WellWritten (o : CliOption) : Prop where
  dashes : o.arg.toList.take 2 = ['-', '-']
  value : o.value.isSome = true
  number : o.type = some .limit ∨ o.type = some .offset → ∀ v, o.value = some v →
    (intLiteral v).isSome = true

/-- The option keeps `ParseEventFilter` from returning a filter: it is unknown
or one of the two times, or a call it leads to throws. -/
def Stops (o : CliOption) : Prop := o.refused = true ∨ ¬o.Harmless

end CliOption

section Accepted

variable {args : List String} {filter f : Dto.EventFilter} {stderr : List String}
  {os : List CliOption} {parsed : Parsed} {o : CliOption}

/-- A filter comes out when no option was refused. -/
theorem Parses.refused (h : Parses filter stderr os parsed) :
    parsed.filter.isSome = true ↔ ∀ o ∈ os, o.refused = false := by
  induction h with
  | done => simp
  | @unknown filter stderr o os _ htype =>
      have hrefused : o.refused = true := by simp [CliOption.refused, htype]
      simp [hrefused]
  | @missing filter stderr o type _ htype hvalue =>
      have hgo : o.refused = false := by
        unfold CliOption.refused
        rw [htype, hvalue]
        cases type <;> rfl
      simp [hgo]
  | @unsupported filter stderr o os type value _ htype hvalue hset =>
      have hrefused : o.refused = true := by
        by_contra hgo
        obtain ⟨hfrom, hto⟩ :=
          (refused_eq_false htype hvalue).mp (Bool.eq_false_iff.mpr hgo)
        rcases setOption_eq_none.mp hset with h | h
        · exact hfrom h
        · exact hto h
      simp [hrefused]
  | @set filter filter' stderr o os type value parsed _ htype hvalue hset _ ih =>
      have hgo : o.refused = false := by
        rw [refused_eq_false htype hvalue]
        constructor
        · rintro rfl
          cases hset
        · rintro rfl
          cases hset
      rw [ih, List.forall_mem_cons]
      exact (and_iff_right hgo).symm

theorem allHarmless_of_forall (h : ∀ o ∈ os, o.Harmless) : AllHarmless os := by
  intro before o after hos _
  exact h o (hos ▸ List.mem_append_right _ List.mem_cons_self)

/-- A filter is returned exactly when no option stops the parsing. -/
theorem exists_returns_iff :
    (∃ f, Returns args f) ↔ ∀ o ∈ options (args.drop 1), ¬o.Stops := by
  constructor
  · rintro ⟨f, parsed, hparsed, hf⟩
    have hparses := parses_of_ok hparsed
    have hgo := hparses.refused.mp (by rw [hf]; rfl)
    intro o ho
    obtain ⟨before, after, hos⟩ := List.append_of_mem ho
    have hharmless := hparses.allHarmless before o after hos fun p hp =>
      hgo p (hos ▸ List.mem_append_left _ hp)
    simp [CliOption.Stops, hgo o ho, hharmless]
  · intro h
    have hharmless : ∀ o ∈ options (args.drop 1), o.Harmless := fun o ho =>
      not_not.mp (not_or.mp (h o ho)).2
    obtain ⟨parsed, hparsed⟩ := parseEventFilter_isOk.mpr (allHarmless_of_forall hharmless)
    have hsome := (parses_of_ok hparsed).refused.mpr fun o ho =>
      Bool.eq_false_iff.mpr (not_or.mp (h o ho)).1
    obtain ⟨f, hf⟩ := Option.isSome_iff_exists.mp hsome
    exact ⟨f, parsed, hparsed, hf⟩

end Accepted

/-! ## Documented, or written otherwise -/

section WellWritten

variable {arg value : String} {args rest : List String}

theorem ValidOption.wellWritten (h : ValidOption arg value) :
    CliOption.WellWritten ⟨arg, some value⟩ := by
  refine ⟨h.dashes, rfl, ?_⟩
  intro htype v hv
  obtain rfl : value = v := Option.some.inj hv
  cases h with
  | limit hn _ => rw [hn]; rfl
  | offset hn _ => rw [hn]; rfl
  | status _ =>
      have hstatus : CliOption.type ⟨"--status", some value⟩ = some .status :=
        type_of_name (by decide)
      simp [hstatus] at htype
  | sourceService =>
      have hsource : CliOption.type ⟨"--source_service", some value⟩ = some .srcSrv :=
        type_of_name (by decide)
      simp [hsource] at htype

theorem Documented.wellWritten (h : Documented args) :
    ∀ o ∈ options args, o.WellWritten := by
  induction h with
  | nil => simp [options]
  | option hvalid _ ih => exact List.forall_mem_cons.mpr ⟨hvalid.wellWritten, ih⟩

theorem Documented.not_stops (h : Documented (args.drop 1)) :
    ∀ o ∈ options (args.drop 1), ¬o.Stops :=
  exists_returns_iff.mp ⟨_, _, parseLoop_documented h {} [], rfl⟩

/-- A documented option by its two dashes and its name. -/
theorem arg_of_name {name : String} (hdashes : arg.toList.take 2 = ['-', '-'])
    (hname : String.ofList (arg.toList.drop 2) = name) :
    arg = String.ofList ('-' :: '-' :: name.toList) := by
  have hlist : arg.toList = ['-', '-'] ++ name.toList := by
    rw [← hname, String.toList_ofList, ← hdashes, List.take_append_drop]
  rw [← String.ofList_toList (s := arg), hlist]
  rfl

/-- The names of the map, by their type. -/
theorem mem_kMap {o : CliOption} {type : Dto.FilterType} (h : o.type = some type) :
    (o.name, type) ∈ Dto.kMap := by
  obtain ⟨before, after, hmap, -⟩ := List.lookup_eq_some_iff.mp h
  rw [hmap]
  exact List.mem_append_right _ List.mem_cons_self

/-- What does not stop the parsing and is well written is documented. -/
theorem validOption_of_wellWritten {o : CliOption} (hstops : ¬o.Stops) (hwell : o.WellWritten)
    (hvalue : o.value = some value) : ValidOption o.arg value := by
  obtain ⟨hgo, hharmless⟩ := not_or.mp hstops
  have hharmless := not_not.mp hharmless
  have hnumber : o.type = some .limit ∨ o.type = some .offset →
      ∃ n, intLiteral value = some n ∧ IsInt n := by
    intro htype
    obtain ⟨n, hn⟩ := Option.isSome_iff_exists.mp (hwell.number htype value hvalue)
    obtain ⟨m, hm, hint⟩ := hharmless.number htype value hvalue
    obtain rfl := Option.some.inj ((leadingInt_of_intLiteral hn).symm.trans hm)
    exact ⟨n, hn, hint⟩
  cases htype : o.type with
  | none => exact absurd (by simp [CliOption.refused, htype]) hgo
  | some type =>
      have hname := mem_kMap htype
      have harg : o.arg = String.ofList ('-' :: '-' :: o.name.toList) :=
        arg_of_name hwell.dashes rfl
      cases type with
      | «from» => exact absurd (by simp [CliOption.refused, htype, hvalue]) hgo
      | «to» => exact absurd (by simp [CliOption.refused, htype, hvalue]) hgo
      | limit =>
          obtain ⟨n, hn, hint⟩ := hnumber (.inl htype)
          obtain hname : o.name = "limit" := by simpa [Dto.kMap] using hname
          rw [harg, hname]
          exact .limit hn hint
      | offset =>
          obtain ⟨n, hn, hint⟩ := hnumber (.inr htype)
          obtain hname : o.name = "offset" := by simpa [Dto.kMap] using hname
          rw [harg, hname]
          exact .offset hn hint
      | status =>
          obtain hname : o.name = "status" := by simpa [Dto.kMap] using hname
          rw [harg, hname]
          exact .status (hharmless.status htype value hvalue)
      | srcSrv =>
          obtain hname : o.name = "source_service" := by simpa [Dto.kMap] using hname
          rw [harg, hname]
          exact .sourceService value

theorem documented_of_wellWritten {args : List String}
    (h : ∀ o ∈ options args, ¬o.Stops ∧ o.WellWritten) : Documented args := by
  induction args using options.induct with
  | case1 => exact .nil
  | case2 arg =>
      have hvalue := (h _ (List.mem_singleton.mpr rfl)).2.value
      cases hvalue
  | case3 arg value rest ih =>
      obtain ⟨⟨hstops, hwell⟩, hrest⟩ := List.forall_mem_cons.mp h
      exact .option (validOption_of_wellWritten hstops hwell rfl) (ih hrest)

end WellWritten

/-! ## The fields -/

/-- A `size_t` holds an `int` that is not negative. -/
theorem map_toNat_sizeOfInt {x : Option Int} (hint : ∀ n, x = some n → IsInt n) :
    ((x.map sizeOfInt).map fun n => (n.toNat : Int)) = x ↔ ∀ n, x = some n → 0 ≤ n := by
  cases x with
  | none => simp
  | some n =>
      simp only [Option.map_some, Option.some.injEq, forall_eq']
      constructor
      · intro h
        omega
      · exact toNat_sizeOfInt_of_nonneg (hint n rfl)

theorem Documented.isInt {args : List String} (h : Documented args) {arg : String}
    (harg : arg = "--limit" ∨ arg = "--offset") (n : Int) (hn : lastLiteral arg args = some n) :
    IsInt n := by
  obtain ⟨value, hvalue, hn⟩ := Option.bind_eq_some_iff.mp hn
  obtain ⟨m, hm, hint⟩ := (h.lastValue hvalue).literal harg
  obtain rfl := Option.some.inj (hm.symm.trans hn)
  exact hint

/-- The limit and the offset of the options are not negative. -/
def NotNegative (args : List String) : Prop :=
  (∀ n, lastLiteral "--limit" args = some n → 0 ≤ n)
    ∧ ∀ n, lastLiteral "--offset" args = some n → 0 ≤ n

theorem applied_limit (args : List String) :
    (applied args {}).limit = (lastLiteral "--limit" args).map sizeOfInt := Option.or_none

theorem applied_offset (args : List String) :
    (applied args {}).offset = (lastLiteral "--offset" args).map sizeOfInt := Option.or_none

theorem applied_status (args : List String) :
    (applied args {}).status =
      (lastValue "--status" args).bind fun s => (Dto.strToStatus s).toOption := Option.or_none

/-- The filter of documented options holds what they say, as far as its two
numbers can. -/
theorem holds_applied {args : List String} (h : Documented args) :
    Holds args (applied args {}) ↔ NotNegative args := by
  have hlimit := map_toNat_sizeOfInt (h.isInt (.inl rfl : "--limit" = "--limit" ∨ _))
  have hoffset := map_toNat_sizeOfInt (h.isInt (.inr rfl : _ ∨ "--offset" = "--offset"))
  constructor
  · intro hholds
    have hl := hholds.limit
    have ho := hholds.offset
    rw [applied_limit, hlimit] at hl
    rw [applied_offset, hoffset] at ho
    exact ⟨hl, ho⟩
  · rintro ⟨hl, ho⟩
    refine ⟨?_, ?_, ?_, ?_, rfl, rfl⟩
    · rw [applied_limit]
      exact hlimit.mpr hl
    · rw [applied_offset]
      exact hoffset.mpr ho
    · rw [applied_status]
      cases hlast : lastValue "--status" args with
      | none => rfl
      | some value =>
          obtain ⟨status, hs⟩ := (h.lastValue hlast).statusName rfl
          rw [Option.bind_some, hs]
          exact congrArg some (Dto.strToStatus_eq_ok.mp hs).symm
    · exact Option.or_none

/-- **What `ParseEventFilter` accepts.** It returns a filter for the documented
options and for no others, and the filter holds what they say, exactly if some
option stops the parsing (it is unknown, a time with a value, or one whose
reading throws), or every option starts with two dashes and has its value,
every limit and offset is a number and nothing else, and the last of each is
not negative. -/
theorem meetsGrammar_iff (args : List String) :
    MeetsGrammar args ↔
      (∃ o ∈ options (args.drop 1), o.Stops)
        ∨ (∀ o ∈ options (args.drop 1), o.WellWritten) ∧ NotNegative (args.drop 1) := by
  by_cases hstops : ∃ o ∈ options (args.drop 1), o.Stops
  · obtain ⟨o, ho, hstop⟩ := hstops
    have hnone : ∀ f, ¬Returns args f := fun f hf =>
      exists_returns_iff.mp ⟨f, hf⟩ o ho hstop
    have hnot : ¬Documented (args.drop 1) := fun h => h.not_stops o ho hstop
    refine iff_of_true ⟨iff_of_false ?_ hnot, fun f hf => absurd hf (hnone f)⟩
      (.inl ⟨o, ho, hstop⟩)
    rintro ⟨f, hf⟩
    exact hnone f hf
  · have hgo : ∀ o ∈ options (args.drop 1), ¬o.Stops := by
      intro o ho hstop
      exact hstops ⟨o, ho, hstop⟩
    obtain ⟨f, hf⟩ := exists_returns_iff.mpr hgo
    have hfilter : Documented (args.drop 1) → ∀ g, Returns args g →
        g = applied (args.drop 1) {} := by
      rintro h g ⟨parsed, hparsed, hg⟩
      have hloop := parseLoop_documented h {} []
      obtain rfl := Except.ok.inj (hparsed.symm.trans hloop)
      exact (Option.some.inj hg).symm
    rw [or_iff_right hstops]
    constructor
    · rintro ⟨haccepts, hholds⟩
      have hdoc := haccepts.mp ⟨f, hf⟩
      refine ⟨hdoc.wellWritten, (holds_applied hdoc).mp ?_⟩
      exact hfilter hdoc f hf ▸ hholds f hf
    · rintro ⟨hwell, hnonneg⟩
      have hdoc := documented_of_wellWritten fun o ho => ⟨hgo o ho, hwell o ho⟩
      refine ⟨iff_of_true ⟨f, hf⟩ hdoc, ?_⟩
      intro g hg
      rw [hfilter hdoc g hg]
      exact (holds_applied hdoc).mpr hnonneg

/-- A limit without its number is dropped, text behind a number is ignored, and
any two characters do for the dashes. -/
theorem grammar_not_met :
    ¬MeetsGrammar ["get", "--limit"] ∧ ¬MeetsGrammar ["get", "--limit", "10abc"]
      ∧ ¬MeetsGrammar ["get", "xxlimit", "10"] := by
  refine ⟨?_, ?_, ?_⟩
  · intro h
    have hreturns : Returns ["get", "--limit"] {} :=
      ⟨⟨some {}, ["Missing value for parameter: limit"]⟩, by decide +kernel, rfl⟩
    cases h.1.mp ⟨_, hreturns⟩
  · intro h
    have hreturns : Returns ["get", "--limit", "10abc"] { limit := some 10 } :=
      ⟨⟨some { limit := some 10 }, []⟩, by decide +kernel, rfl⟩
    cases h.1.mp ⟨_, hreturns⟩ with
    | option hvalid _ =>
        obtain ⟨n, hn, -⟩ := hvalid.literal (.inl rfl)
        have hnone : intLiteral "10abc" = none := by decide
        rw [hnone] at hn
        cases hn
  · intro h
    have hreturns : Returns ["get", "xxlimit", "10"] { limit := some 10 } :=
      ⟨⟨some { limit := some 10 }, []⟩, by decide +kernel, rfl⟩
    cases h.1.mp ⟨_, hreturns⟩ with
    | option hvalid _ => exact absurd hvalid.dashes (by decide)

end EventHistory
