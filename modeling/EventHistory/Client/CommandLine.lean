import EventHistory.Lib.Text
import EventHistory.Rpc.GetEvents

/-!
# The command line of the client

The command loop of `services/ipv4_filter/main.cc`: the tokenizer, the
choice of a command, `ParseEventFilter` and `HandleGetEvents`. Nothing in
`main` catches an exception, so one that leaves a handler ends the program
with the line that caused it.

`ParseEventFilter` reads its arguments two at a time, an option and its value
(`options`), up to the first option it refuses. `parseEventFilter_isOk` says
when no exception escapes on the way, and `get_survives_iff` what that means
for the command loop.
-/

namespace EventHistory

open CxxText

/-! ## Tokens and commands -/

/-- The local variables of the tokenizer. -/
structure Tokenizer where
  args : List String := []
  currArg : List Char := []
  inQuotes : Bool := false
deriving DecidableEq

namespace Tokenizer

/-- The end of an argument, unless it is empty. -/
def flush (t : Tokenizer) : Tokenizer :=
  if t.currArg.isEmpty then t
  else { t with args := t.args ++ [String.ofList t.currArg], currArg := [] }

/-- The loop body. -/
def next (t : Tokenizer) (c : Char) : Tokenizer :=
  if c = '"' then { t with inQuotes := !t.inQuotes }
  else if c = ' ' && !t.inQuotes then t.flush
  else { t with currArg := t.currArg ++ [c] }

end Tokenizer

/-- The arguments of a line. -/
def tokenize (line : String) : List String := (line.toList.foldl Tokenizer.next {}).flush.args

inductive Command where
  | help
  | save (args : List String)
  | get (args : List String)
  | stats
  | unknown (command : String)
deriving Repr, DecidableEq

/-- The command of a line; an empty line has none. -/
def command (line : String) : Option Command :=
  match tokenize line with
  | [] => none
  | arg :: args =>
      let name := lower arg
      some
        (if name = "help" then .help
        else if name = "save" then .save (arg :: args)
        else if name = "get" then .get (arg :: args)
        else if name = "stats" then .stats
        else .unknown name)

/-! ## `ParseEventFilter` -/

/-- What `ParseEventFilter` returns, and the lines it prints on `stderr`. -/
structure Parsed where
  filter : Option Dto.EventFilter
  stderr : List String
deriving DecidableEq

/-- An `int` assigned to a `size_t`. -/
def sizeOfInt (n : Int) : UInt64 := UInt64.ofInt n

/-- The switch over the option; `none` where it returns `std::nullopt`. -/
def setOption (filter : Dto.EventFilter) (type : Dto.FilterType) (value : String) :
    Except String (Option Dto.EventFilter) :=
  match type with
  | .from | .to => .ok none
  | .limit => (stoi value).map fun n => some { filter with limit := some (sizeOfInt n) }
  | .offset => (stoi value).map fun n => some { filter with offset := some (sizeOfInt n) }
  | .status => (Dto.strToStatus value).map fun s => some { filter with status := some s }
  | .srcSrv => .ok (some { filter with sourceService := some value })

/-- The loop over the arguments behind the command. -/
def parseLoop (filter : Dto.EventFilter) (stderr : List String) :
    List String → Except String Parsed
  | [] => .ok { filter := some filter, stderr }
  | arg :: rest => do
      let arg ← substr arg 2
      match Dto.kMap.lookup arg with
      | none => return { filter := none, stderr := stderr ++ ["Unknown parameter: " ++ arg] }
      | some type =>
          match rest with
          | [] =>
              -- `continue` at the last argument is the end of the loop
              return { filter := some filter,
                       stderr := stderr ++ ["Missing value for parameter: " ++ arg] }
          | value :: rest =>
              match ← setOption filter type value with
              | none =>
                  return { filter := none, stderr := stderr ++ ["Unsupported filter param"] }
              | some filter => parseLoop filter stderr rest

def parseEventFilter (args : List String) : Except String Parsed :=
  parseLoop {} [] (args.drop 1)

/-! ## The command loop -/

/-- What `HandleGetEvents` prints on `stdout` or, for a filter that was
refused, on `stderr`. -/
inductive GetReply where
  | invalidFilterParams
  | got (events : List Dto.Event)
  | failed
deriving DecidableEq

/-- `HandleGetEvents`; `execute` is `GetEventsUseCase::Execute`. -/
def handleGetEvents (execute : Dto.EventFilter → Except String (Option (List Dto.Event)))
    (args : List String) : Except String GetReply := do
  match (← parseEventFilter args).filter with
  | none => return .invalidFilterParams
  | some filter =>
      match ← execute filter with
      | some events => return .got events
      | none => return .failed

/-- The handlers of the other commands, and the use case behind `get`. -/
structure Client where
  other : Command → Except String Unit
  getEvents : Dto.EventFilter → Except String (Option (List Dto.Event))

namespace Client

/-- The handler of a command, with what it replies to `get`. -/
def handle (client : Client) : Command → Except String (Option GetReply)
  | .get args => (handleGetEvents client.getEvents args).map some
  | c => (client.other c).map fun _ => none

/-- The command loop over the lines of the input: the replies to `get`, and
the exception that ended the program before the input did. -/
def run (client : Client) : List String → List GetReply × Option String
  | [] => ([], none)
  | line :: lines =>
      match command line with
      | none => client.run lines
      | some c =>
          match client.handle c with
          | .error what => ([], some what)
          | .ok reply => (reply.toList ++ (client.run lines).1, (client.run lines).2)

end Client

/-! ## Options -/

/-- An argument that is read as an option, with the one behind it. -/
structure CliOption where
  arg : String
  value : Option String

/-- The options of the arguments behind the command. -/
def options : List String → List CliOption
  | [] => []
  | [arg] => [⟨arg, none⟩]
  | arg :: value :: rest => ⟨arg, some value⟩ :: options rest

namespace CliOption

/-- The option without its dashes; whatever the first two characters are. -/
def name (o : CliOption) : String := String.ofList (o.arg.toList.drop 2)

def type (o : CliOption) : Option Dto.FilterType := Dto.kMap.lookup o.name

/-- Parsing ends here with `std::nullopt`. -/
def refused (o : CliOption) : Bool :=
  match o.type, o.value with
  | none, _ => true
  | some .from, some _ | some .to, some _ => true
  | _, _ => false

/-- No call that the option leads to throws: it has two characters to skip, a
number to read where it takes one, and a known status. -/
structure Harmless (o : CliOption) : Prop where
  dashes : 2 ≤ o.arg.length
  number : o.type = some .limit ∨ o.type = some .offset → ∀ v, o.value = some v →
    ∃ n, leadingInt v = some n ∧ IsInt n
  status : o.type = some .status → ∀ v, o.value = some v →
    v ∈ ["unspecified", "success", "error"]

end CliOption

/-- The options that parsing reaches are harmless. -/
def AllHarmless (os : List CliOption) : Prop :=
  ∀ before o after, os = before ++ o :: after → (∀ p ∈ before, p.refused = false) → o.Harmless

theorem allHarmless_nil : AllHarmless [] := by
  intro before o after h
  simp at h

theorem allHarmless_cons {o : CliOption} {os : List CliOption} :
    AllHarmless (o :: os) ↔ o.Harmless ∧ (o.refused = false → AllHarmless os) := by
  constructor
  · intro h
    refine ⟨h [] o os rfl (fun p hp => by cases hp), ?_⟩
    intro hgo before p after hos hbefore
    refine h (o :: before) p after (by rw [hos]; rfl) ?_
    exact List.forall_mem_cons.mpr ⟨hgo, hbefore⟩
  · rintro ⟨ho, hrest⟩ before p after hos hbefore
    cases before with
    | nil =>
        obtain ⟨rfl, -⟩ := List.cons.inj hos
        exact ho
    | cons q before =>
        rw [List.cons_append, List.cons.injEq] at hos
        obtain ⟨rfl, hos⟩ := hos
        obtain ⟨hq, hbefore⟩ := List.forall_mem_cons.mp hbefore
        exact hrest hq before p after hos hbefore

/-! ## What `ParseEventFilter` does with its options -/

theorem substr_arg {o : CliOption} (h : 2 ≤ o.arg.length) : substr o.arg 2 = .ok o.name :=
  substr_of_le h

/-- The derivations of `ParseEventFilter`: what the loop does with one option
after the other, up to its return. -/
inductive Parses : Dto.EventFilter → List String → List CliOption → Parsed → Prop
  | done {filter : Dto.EventFilter} {stderr : List String} :
      Parses filter stderr [] { filter := some filter, stderr }
  | unknown {filter : Dto.EventFilter} {stderr : List String} {o : CliOption}
      {os : List CliOption} :
      2 ≤ o.arg.length → o.type = none →
      Parses filter stderr (o :: os)
        { filter := none, stderr := stderr ++ ["Unknown parameter: " ++ o.name] }
  | missing {filter : Dto.EventFilter} {stderr : List String} {o : CliOption}
      {type : Dto.FilterType} :
      2 ≤ o.arg.length → o.type = some type → o.value = none →
      Parses filter stderr [o]
        { filter := some filter, stderr := stderr ++ ["Missing value for parameter: " ++ o.name] }
  | unsupported {filter : Dto.EventFilter} {stderr : List String} {o : CliOption}
      {os : List CliOption} {type : Dto.FilterType} {value : String} :
      2 ≤ o.arg.length → o.type = some type → o.value = some value →
      setOption filter type value = .ok none →
      Parses filter stderr (o :: os)
        { filter := none, stderr := stderr ++ ["Unsupported filter param"] }
  | set {filter filter' : Dto.EventFilter} {stderr : List String} {o : CliOption}
      {os : List CliOption} {type : Dto.FilterType} {value : String} {parsed : Parsed} :
      2 ≤ o.arg.length → o.type = some type → o.value = some value →
      setOption filter type value = .ok (some filter') → Parses filter' stderr os parsed →
      Parses filter stderr (o :: os) parsed

/-- An argument without two characters to skip ends the program. -/
theorem parseLoop_short (filter : Dto.EventFilter) (stderr rest : List String) {arg : String}
    (h : ¬2 ≤ arg.length) :
    ∃ what, parseLoop filter stderr (arg :: rest) = .error what := by
  rw [parseLoop, substr, if_pos (Nat.lt_of_not_le h)]
  exact ⟨_, rfl⟩

/-- An option whose dashes can be skipped is looked up. -/
theorem parseLoop_cons {filter : Dto.EventFilter} {stderr rest : List String} {arg : String}
    (o : CliOption) (ho : o.arg = arg) (h : 2 ≤ o.arg.length) :
    parseLoop filter stderr (arg :: rest) =
      match o.type, rest with
      | none, _ =>
          .ok { filter := none, stderr := stderr ++ ["Unknown parameter: " ++ o.name] }
      | some _, [] =>
          .ok { filter := some filter,
                stderr := stderr ++ ["Missing value for parameter: " ++ o.name] }
      | some type, value :: rest =>
          (setOption filter type value).bind fun
            | none => .ok { filter := none, stderr := stderr ++ ["Unsupported filter param"] }
            | some filter => parseLoop filter stderr rest := by
  subst ho
  rw [parseLoop, substr_arg h]
  show (match Dto.kMap.lookup o.name with | none => _ | some type => _) = _
  rw [← CliOption.type]
  cases o.type with
  | none => rfl
  | some type =>
      cases rest with
      | nil => rfl
      | cons value rest => rfl

theorem parses_of_ok {args : List String} :
    ∀ {filter : Dto.EventFilter} {stderr : List String} {parsed : Parsed},
      parseLoop filter stderr args = .ok parsed → Parses filter stderr (options args) parsed := by
  induction args using options.induct with
  | case1 =>
      intro filter stderr parsed h
      obtain rfl := Except.ok.inj h
      exact .done
  | case2 arg =>
      intro filter stderr parsed h
      by_cases hlen : 2 ≤ arg.length
      · rw [parseLoop_cons ⟨arg, none⟩ rfl hlen] at h
        cases htype : CliOption.type ⟨arg, none⟩ with
        | none =>
            rw [htype] at h
            obtain rfl := Except.ok.inj h
            exact .unknown hlen htype
        | some type =>
            rw [htype] at h
            obtain rfl := Except.ok.inj h
            exact .missing hlen htype rfl
      · obtain ⟨what, hwhat⟩ := parseLoop_short filter stderr [] hlen
        rw [hwhat] at h
        cases h
  | case3 arg value rest ih =>
      intro filter stderr parsed h
      by_cases hlen : 2 ≤ arg.length
      · rw [parseLoop_cons ⟨arg, some value⟩ rfl hlen] at h
        cases htype : CliOption.type ⟨arg, some value⟩ with
        | none =>
            rw [htype] at h
            obtain rfl := Except.ok.inj h
            exact .unknown hlen htype
        | some type =>
            simp only [htype] at h
            cases hset : setOption filter type value with
            | error what =>
                rw [hset] at h
                cases h
            | ok set =>
                rw [hset] at h
                cases set with
                | none =>
                    obtain rfl := Except.ok.inj h
                    exact .unsupported hlen htype rfl hset
                | some filter' => exact .set hlen htype rfl hset (ih h)
      · obtain ⟨what, hwhat⟩ := parseLoop_short filter stderr (value :: rest) hlen
        rw [hwhat] at h
        cases h

/-! ## When no exception escapes -/

theorem exists_map_eq_ok {α β : Type} {x : Except String α} {f : α → β} :
    (∃ b, x.map f = .ok b) ↔ ∃ a, x = .ok a := by
  cases x with
  | error what => simp [Except.map]
  | ok a => simp [Except.map]

/-- The switch throws on a value that its option cannot read. -/
theorem setOption_isOk {filter : Dto.EventFilter} {type : Dto.FilterType} {value : String} :
    (∃ set, setOption filter type value = .ok set) ↔
      (type = .limit ∨ type = .offset → ∃ n, leadingInt value = some n ∧ IsInt n)
        ∧ (type = .status → value ∈ ["unspecified", "success", "error"]) := by
  cases type with
  | «from» => simp [setOption]
  | «to» => simp [setOption]
  | srcSrv => simp [setOption]
  | limit =>
      rw [setOption, exists_map_eq_ok]
      simp [stoi_eq_ok]
  | offset =>
      rw [setOption, exists_map_eq_ok]
      simp [stoi_eq_ok]
  | status =>
      rw [setOption, exists_map_eq_ok, ← Dto.mem_statusNames]
      simp

/-- The switch refuses nothing but the two times. -/
theorem setOption_eq_none {filter : Dto.EventFilter} {type : Dto.FilterType} {value : String} :
    setOption filter type value = .ok none ↔ type = .from ∨ type = .to := by
  have hmap : ∀ {α : Type} {x : Except String α} {f : α → Dto.EventFilter},
      (x.map fun a => some (f a)) ≠ .ok none := by
    intro α x f
    cases x <;> simp [Except.map]
  cases type with
  | «from» => simp [setOption]
  | «to» => simp [setOption]
  | srcSrv => simp [setOption]
  | limit => exact iff_of_false hmap (by simp)
  | offset => exact iff_of_false hmap (by simp)
  | status => exact iff_of_false hmap (by simp)

section Harmless

variable {filter : Dto.EventFilter} {stderr : List String} {o : CliOption} {os : List CliOption}

theorem harmless_of_unknown (hlen : 2 ≤ o.arg.length) (htype : o.type = none) : o.Harmless := by
  refine ⟨hlen, ?_, ?_⟩
  · intro h
    simp [htype] at h
  · intro h
    simp [htype] at h

theorem harmless_of_missing (hlen : 2 ≤ o.arg.length) (hvalue : o.value = none) :
    o.Harmless := by
  refine ⟨hlen, ?_, ?_⟩
  · intro _ v hv
    simp [hvalue] at hv
  · intro _ v hv
    simp [hvalue] at hv

/-- With its value at hand, an option is harmless when the switch does not
throw. -/
theorem harmless_iff (filter : Dto.EventFilter) {type : Dto.FilterType} {value : String}
    (hlen : 2 ≤ o.arg.length) (htype : o.type = some type) (hvalue : o.value = some value) :
    o.Harmless ↔ ∃ set, setOption filter type value = .ok set := by
  rw [setOption_isOk]
  constructor
  · intro h
    refine ⟨?_, ?_⟩
    · intro hnum
      exact h.number (by simpa [htype] using hnum) value hvalue
    · intro hst
      exact h.status (by rw [htype, hst]) value hvalue
  · rintro ⟨hnum, hst⟩
    refine ⟨hlen, ?_, ?_⟩
    · intro h v hv
      obtain rfl := Option.some.inj (hvalue.symm.trans hv)
      exact hnum (by simpa [htype] using h)
    · intro h v hv
      obtain rfl := Option.some.inj (hvalue.symm.trans hv)
      exact hst (Option.some.inj (htype.symm.trans h))

theorem refused_eq_false {type : Dto.FilterType} {value : String} (htype : o.type = some type)
    (hvalue : o.value = some value) :
    o.refused = false ↔ type ≠ .from ∧ type ≠ .to := by
  unfold CliOption.refused
  rw [htype, hvalue]
  cases type <;> simp

/-- A parse that returns has met harmless options only. -/
theorem Parses.allHarmless {parsed : Parsed} (h : Parses filter stderr os parsed) :
    AllHarmless os := by
  induction h with
  | done => exact allHarmless_nil
  | unknown hlen htype =>
      refine allHarmless_cons.mpr ⟨harmless_of_unknown hlen htype, ?_⟩
      intro hgo
      simp [CliOption.refused, htype] at hgo
  | missing hlen htype hvalue =>
      exact allHarmless_cons.mpr ⟨harmless_of_missing hlen hvalue, fun _ => allHarmless_nil⟩
  | unsupported hlen htype hvalue hset =>
      refine allHarmless_cons.mpr ⟨(harmless_iff _ hlen htype hvalue).mpr ⟨_, hset⟩, ?_⟩
      intro hgo
      obtain ⟨hfrom, hto⟩ := (refused_eq_false htype hvalue).mp hgo
      rcases setOption_eq_none.mp hset with h | h
      · exact absurd h hfrom
      · exact absurd h hto
  | set hlen htype hvalue hset _ ih =>
      exact allHarmless_cons.mpr ⟨(harmless_iff _ hlen htype hvalue).mpr ⟨_, hset⟩, fun _ => ih⟩

end Harmless

/-- Harmless options parse. -/
theorem exists_parseLoop {args : List String} :
    ∀ {filter : Dto.EventFilter} {stderr : List String}, AllHarmless (options args) →
      ∃ parsed, parseLoop filter stderr args = .ok parsed := by
  induction args using options.induct with
  | case1 => exact fun _ => ⟨_, rfl⟩
  | case2 arg =>
      intro filter stderr h
      obtain ⟨ho, -⟩ := allHarmless_cons.mp h
      rw [parseLoop_cons ⟨arg, none⟩ rfl ho.dashes]
      cases CliOption.type ⟨arg, none⟩ with
      | none => exact ⟨_, rfl⟩
      | some type => exact ⟨_, rfl⟩
  | case3 arg value rest ih =>
      intro filter stderr h
      obtain ⟨ho, hrest⟩ := allHarmless_cons.mp h
      rw [parseLoop_cons ⟨arg, some value⟩ rfl ho.dashes]
      cases htype : CliOption.type ⟨arg, some value⟩ with
      | none => exact ⟨_, rfl⟩
      | some type =>
          obtain ⟨set, hset⟩ := (harmless_iff filter ho.dashes htype rfl).mp ho
          simp only [hset]
          cases set with
          | none => exact ⟨_, rfl⟩
          | some filter' =>
              have hgo : CliOption.refused ⟨arg, some value⟩ = false := by
                refine (refused_eq_false htype rfl).mpr (not_or.mp ?_)
                intro htimes
                rw [setOption_eq_none.mpr htimes] at hset
                cases hset
              exact ih (hrest hgo)

/-- No exception leaves `ParseEventFilter` exactly when the options it
reaches are harmless. -/
theorem parseEventFilter_isOk {args : List String} :
    (∃ parsed, parseEventFilter args = .ok parsed) ↔ AllHarmless (options (args.drop 1)) := by
  constructor
  · rintro ⟨parsed, h⟩
    exact (parses_of_ok h).allHarmless
  · exact exists_parseLoop

/-! ## Lines that the command loop survives -/

/-- What an option with a value that can be read sets. -/
inductive Sets (filter : Dto.EventFilter) :
    Dto.FilterType → String → Dto.EventFilter → Prop
  | limit {value : String} {n : Int} :
      stoi value = .ok n → Sets filter .limit value { filter with limit := some (sizeOfInt n) }
  | offset {value : String} {n : Int} :
      stoi value = .ok n → Sets filter .offset value { filter with offset := some (sizeOfInt n) }
  | status {value : String} {status : Dto.Status} :
      Dto.strToStatus value = .ok status →
      Sets filter .status value { filter with status := some status }
  | sourceService {value : String} :
      Sets filter .srcSrv value { filter with sourceService := some value }

theorem map_some_eq_ok {α β : Type} {x : Except String α} {f : α → β} {b : β} :
    (x.map fun a => some (f a)) = .ok (some b) ↔ ∃ a, x = .ok a ∧ f a = b := by
  cases x with
  | error what => simp [Except.map]
  | ok a => simp [Except.map]

theorem sets_of_ok {filter filter' : Dto.EventFilter} {type : Dto.FilterType} {value : String}
    (h : setOption filter type value = .ok (some filter')) : Sets filter type value filter' := by
  cases type with
  | «from» => cases h
  | «to» => cases h
  | srcSrv =>
      obtain rfl := Option.some.inj (Except.ok.inj h)
      exact .sourceService
  | limit =>
      obtain ⟨n, hn, rfl⟩ := map_some_eq_ok.mp h
      exact .limit hn
  | offset =>
      obtain ⟨n, hn, rfl⟩ := map_some_eq_ok.mp h
      exact .offset hn
  | status =>
      obtain ⟨status, hs, rfl⟩ := map_some_eq_ok.mp h
      exact .status hs

/-- A filter that was parsed has no times. -/
theorem Parses.times {filter f : Dto.EventFilter} {stderr : List String} {os : List CliOption}
    {parsed : Parsed} (h : Parses filter stderr os parsed) (hf : parsed.filter = some f) :
    f.from = filter.from ∧ f.to = filter.to := by
  induction h with
  | done =>
      obtain rfl := Option.some.inj hf
      exact ⟨rfl, rfl⟩
  | unknown => cases hf
  | missing =>
      obtain rfl := Option.some.inj hf
      exact ⟨rfl, rfl⟩
  | unsupported => cases hf
  | set _ _ _ hset _ ih =>
      obtain ⟨hfrom, hto⟩ := ih hf
      cases sets_of_ok hset with
      | limit => exact ⟨hfrom, hto⟩
      | offset => exact ⟨hfrom, hto⟩
      | status => exact ⟨hfrom, hto⟩
      | sourceService => exact ⟨hfrom, hto⟩

namespace Client

/-- The client over a gRPC stub. -/
def ofStub (tu : TimeUtil)
    (stub : Proto.GetEventsRequest → Grpc.Status × Proto.GetEventsResponse)
    (other : Command → Except String Unit) : Client where
  other := other
  getEvents := GrpcService.getEventsImpl tu stub

variable {tu : TimeUtil}
  {stub : Proto.GetEventsRequest → Grpc.Status × Proto.GetEventsResponse}
  {other : Command → Except String Unit} {line : String} {args : List String} {parsed : Parsed}

/-- Behind `ParseEventFilter` nothing throws. -/
theorem handle_get (tu : TimeUtil)
    (stub : Proto.GetEventsRequest → Grpc.Status × Proto.GetEventsResponse)
    (other : Command → Except String Unit) (h : parseEventFilter args = .ok parsed) :
    ∃ reply, (ofStub tu stub other).handle (.get args) = .ok (some reply)
      ∧ (parsed.filter = none → reply = .invalidFilterParams) := by
  simp only [handle, handleGetEvents, h]
  cases hf : parsed.filter with
  | none => exact ⟨.invalidFilterParams, by simp [hf, bind, Except.bind, Except.map, pure,
      Except.pure], fun _ => rfl⟩
  | some filter =>
      obtain ⟨hfrom, hto⟩ := (parses_of_ok h).times hf
      obtain ⟨events, hevents⟩ := GrpcService.getEventsImpl_isOk tu stub hfrom hto
      cases events with
      | none =>
          refine ⟨.failed, ?_, fun hnone => by cases hnone⟩
          simp [hf, ofStub, hevents, bind, Except.bind, Except.map, pure, Except.pure]
      | some events =>
          refine ⟨.got events, ?_, fun hnone => by cases hnone⟩
          simp [hf, ofStub, hevents, bind, Except.bind, Except.map, pure, Except.pure]

/-- A line whose handler returns is one reply more. -/
theorem run_get_ok {client : Client} {reply : GetReply} (hline : command line = some (.get args))
    (h : client.handle (.get args) = .ok (some reply)) (lines : List String) :
    client.run (line :: lines) = (reply :: (client.run lines).1, (client.run lines).2) := by
  rw [run, hline]
  simp only [h]
  rfl

theorem run_get_error {client : Client} {what : String} (hline : command line = some (.get args))
    (h : parseEventFilter args = .error what) (lines : List String) :
    client.run (line :: lines) = ([], some what) := by
  rw [run, hline]
  simp only [handle, handleGetEvents, h]
  rfl

end Client

/-- **When a `get` line does not crash the client.** Exactly when the options
that parsing reaches are harmless, `ParseEventFilter` returns, with a filter
or with none, and lets no exception escape; `HandleGetEvents` then replies,
to a filter that was refused with "Invalid filter params.", and the command
loop goes on to the next line. Otherwise the program ends with that line. -/
theorem get_survives_iff {line : String} {args : List String}
    (hline : command line = some (.get args)) (tu : TimeUtil)
    (stub : Proto.GetEventsRequest → Grpc.Status × Proto.GetEventsResponse)
    (other : Command → Except String Unit) :
    ((∃ parsed, parseEventFilter args = .ok parsed) ↔ AllHarmless (options (args.drop 1)))
    ∧ (∀ parsed, parseEventFilter args = .ok parsed →
        ∃ reply, (parsed.filter = none → reply = .invalidFilterParams)
          ∧ ∀ lines, (Client.ofStub tu stub other).run (line :: lines) =
              (reply :: ((Client.ofStub tu stub other).run lines).1,
                ((Client.ofStub tu stub other).run lines).2))
    ∧ (¬AllHarmless (options (args.drop 1)) →
        ∃ what, ∀ lines, (Client.ofStub tu stub other).run (line :: lines) =
          ([], some what)) := by
  refine ⟨parseEventFilter_isOk, ?_, ?_⟩
  · intro parsed hparsed
    obtain ⟨reply, hreply, hinvalid⟩ := Client.handle_get tu stub other hparsed
    exact ⟨reply, hinvalid, Client.run_get_ok hline hreply⟩
  · intro hharm
    cases hparse : parseEventFilter args with
    | error what => exact ⟨what, Client.run_get_error hline hparse⟩
    | ok parsed => exact absurd (parseEventFilter_isOk.mp ⟨parsed, hparse⟩) hharm

/-- A client whose server has no events. -/
def idleClient : Client :=
  .ofStub ⟨fun _ => none, fun _ => ""⟩ (fun _ => (.ok, {})) fun _ => .ok ()

/-- The line of the help text is survived. -/
theorem get_survives_iff_sample :
    AllHarmless (options ["--limit", "10", "--offset", "1"]) :=
  (@get_survives_iff "Get --limit 10 --offset 1" ["Get", "--limit", "10", "--offset", "1"]
    (by decide) ⟨fun _ => none, fun _ => ""⟩ (fun _ => (.ok, {})) fun _ => .ok ()).1.mp
    ⟨⟨some { limit := some 10, offset := some 1 }, []⟩, by decide +kernel⟩

/-- A `get` line that ends the client, whatever was to follow. -/
def Crashes (line : String) : Prop :=
  ∃ args what, command line = some (.get args) ∧ parseEventFilter args = .error what
    ∧ ∀ lines, idleClient.run (line :: lines) = ([], some what)

theorem crashes_of_error {line : String} {args : List String} {what : String}
    (hline : command line = some (.get args)) (hparse : parseEventFilter args = .error what) :
    Crashes line :=
  ⟨args, what, hline, hparse, Client.run_get_error hline hparse⟩

/-- An argument of one character, a limit that is no number and a status that
nobody knows: each ends the client. -/
theorem get_crashes :
    Crashes "get x" ∧ Crashes "get --limit ten" ∧ Crashes "get --status done" := by
  refine ⟨?_, ?_, ?_⟩
  · have hline : command "get x" = some (.get ["get", "x"]) := by decide
    exact crashes_of_error hline (by unfold parseEventFilter parseLoop; rfl)
  · have hline : command "get --limit ten" = some (.get ["get", "--limit", "ten"]) := by decide
    exact crashes_of_error hline (by unfold parseEventFilter parseLoop; rfl)
  · have hline : command "get --status done" = some (.get ["get", "--status", "done"]) := by decide
    exact crashes_of_error hline (by unfold parseEventFilter parseLoop; rfl)

end EventHistory
