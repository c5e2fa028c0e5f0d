import EventHistory.Client.Builder
import EventHistory.Client.CommandLine
import EventHistory.System.Pooled
import EventHistory.System.Visible

/-!
# The two programs

Any number of client processes, each with its prompt, and one history
service with its pool of connections: `main` of `services/ipv4_filter` against
`main` of `services/history`. A prompt takes one line after the other. A line
that makes a call keeps it until the client's part of the call has returned;
the server's part may go on behind its back. A line that ends the program is
never left.

`prompts_agree` says what the lines that are printed at the prompts have to
do with each other, and `reads_own_saves` that a prompt has seen its own
saves.
-/

namespace EventHistory

open Transition

/-! ## What a line does -/

/-- What opening a file and `net::logger::ProcessStream` on it come to; each
entry is with the time that `Build` reads. -/
inductive FileInput where
  | cannotOpen
  | entries (batches : List (List (LogEntry × Int)))
  | throws (what : String)

/-- What is printed in answer to a line. -/
inductive LineReply where
  | help
  | missingFilePath
  | cannotOpen (filePath : String)
  | saved (result : Bool)
  | get (reply : GetReply)
  | stats (stats : Option Dto.Stats)
  | unknownCommand (command : String)

/-- A line is answered at once, or by a call. -/
inductive LineTask where
  | reply (reply : LineReply)
  | call (op : ClientOp)

/-- `HandleSaveEvent`, up to `SaveBatch`. -/
def handleSaveEvent (builder : EventBuilder) (localtime : Int → Tm) (files : String → FileInput)
    (args : List String) : Except String LineTask :=
  match args[1]? with
  | none => .ok (.reply .missingFilePath)
  | some filePath =>
      match files filePath with
      | .cannotOpen => .ok (.reply (.cannotOpen filePath))
      | .entries batches => .ok (.call (.saveBatch (builder.collect localtime batches)))
      | .throws what => .error what

/-- `HandleGetEvents`, up to `GetEvents`. -/
def getTask (args : List String) : Except String LineTask := do
  match (← parseEventFilter args).filter with
  | none => return .reply (.get .invalidFilterParams)
  | some filter => return .call (.read (.getEvents filter))

/-- The command of a line; an empty line has none. -/
def lineTask (builder : EventBuilder) (localtime : Int → Tm) (files : String → FileInput)
    (line : String) : Except String (Option LineTask) :=
  match command line with
  | none => .ok none
  | some .help => .ok (some (.reply .help))
  | some (.save args) => (handleSaveEvent builder localtime files args).map some
  | some (.get args) => (getTask args).map some
  | some .stats => .ok (some (.call (.read .getStats)))
  | some (.unknown command) => .ok (some (.reply (.unknownCommand command)))

/-- What the handlers print when their call has returned. -/
def ClientCall.reply : ClientCall → Option LineReply
  | .saveBatch s =>
      match s.client with
      | .returned result => some (.saved result)
      | _ => none
  | .read s =>
      match s.client with
      | .returned (.events (some events)) => some (.get (.got events))
      | .returned (.events none) => some (.get .failed)
      | .returned (.stats stats) => some (.stats stats)
      | _ => none

/-- What a line shows, as the result it stands for. -/
def LineReply.result : LineReply → Option RepoResult
  | .get (.got events) => some (.events (.ok events))
  | .stats (some counts) => some (.stats (.ok counts))
  | _ => none

/-- The handler of `get` is its two parts. -/
theorem handleGetEvents_eq (execute : Dto.EventFilter → Except String (Option (List Dto.Event)))
    (args : List String) :
    handleGetEvents execute args =
      (getTask args >>= fun
        | .call (.read (.getEvents filter)) =>
            (execute filter).map fun events => (events.map GetReply.got).getD .failed
        | _ => .ok .invalidFilterParams) := by
  unfold handleGetEvents getTask
  cases hparse : parseEventFilter args with
  | error what => rfl
  | ok parsed =>
      cases hfilter : parsed.filter with
      | none => simp [hfilter, bind, Except.bind, pure, Except.pure]
      | some filter =>
          simp only [hfilter, bind, Except.bind, pure, Except.pure]
          cases execute filter with
          | error what => rfl
          | ok events => cases events <;> rfl

/-- A `get` line ends the program when its options do harm. -/
theorem getTask_isOk {args : List String} :
    (∃ task, getTask args = .ok task) ↔ AllHarmless (options (args.drop 1)) := by
  rw [← parseEventFilter_isOk]
  unfold getTask
  cases hparse : parseEventFilter args with
  | error what => simp [bind, Except.bind]
  | ok parsed =>
      cases hfilter : parsed.filter with
      | none | some _ => simp [hfilter, bind, Except.bind, pure, Except.pure]

/-! ## Prompts -/

/-- A line that is typed, and the files at that moment. -/
structure Line where
  text : String
  files : String → FileInput

/-- A client process with the lines of its input. -/
structure Prompt where
  builder : EventBuilder
  localtime : Int → Tm
  lines : List Line

def Prompt.task (p : Prompt) (k : Nat) : Option (Except String (Option LineTask)) :=
  p.lines[k]?.map fun line => lineTask p.builder p.localtime line.files line.text

/-- The call that line `k` makes. -/
def Prompt.op (p : Prompt) (k : Nat) : Option ClientOp :=
  match p.task k with
  | some (.ok (some (.call op))) => some op
  | _ => none

/-- The processes with the number of the line they are at, whether it has made
its call, and what was printed for which line; the calls of all lines; and the
service. -/
structure Prompts (ι : Type) where
  line : ι → Nat := fun _ => 0
  calling : ι → Bool := fun _ => false
  printed : ι → List (Nat × LineReply) := fun _ => []
  calls : ι × Nat → ClientCall
  service : Pooled (ι × Nat)

/-- A caller that does nothing. -/
def idleProgram : Program ClientCall ClientInput RepoOp RepoResult where
  init _ := True
  next _ _ := none
  pending _ := none
  answer _ _ := none

namespace Prompts

variable {ι : Type}

/-- The line has been read. -/
def made (s : Prompts ι) (q : ι × Nat) : Bool :=
  q.2 < s.line q.1 || q.2 = s.line q.1 && s.calling q.1

/-- The call of a line; of one that makes none, a call that never begins. -/
def lineOp (prompts : ι → Prompt) (q : ι × Nat) : ClientOp :=
  ((prompts q.1).op q.2).getD (.read .getStats)

/-- The call of each line, as a program over the service. -/
abbrev lineProgram (tu : TimeUtil) (prompts : ι → Prompt) (q : ι × Nat) :
    Program ClientCall ClientInput RepoOp RepoResult :=
  ClientCall.program tu (lineOp prompts q)

/-- The calls that have been made go on. -/
def programs (tu : TimeUtil) (prompts : ι → Prompt) (s : Prompts ι) (q : ι × Nat) :
    Program ClientCall ClientInput RepoOp RepoResult :=
  if s.made q && ((prompts q.1).op q.2).isSome then lineProgram tu prompts q else idleProgram

/-- The call of the line has been made. -/
def Active (prompts : ι → Prompt) (s : Prompts ι) (q : ι × Nat) : Prop :=
  s.made q = true ∧ ((prompts q.1).op q.2).isSome = true

variable {tu : TimeUtil} {prompts : ι → Prompt} {s : Prompts ι} {q : ι × Nat}

theorem programs_of_active (h : s.Active prompts q) :
    s.programs tu prompts q = lineProgram tu prompts q :=
  if_pos (Bool.and_eq_true_iff.mpr h)

theorem programs_of_not_active (h : ¬s.Active prompts q) :
    s.programs tu prompts q = idleProgram :=
  if_neg fun hactive => h (Bool.and_eq_true_iff.mp hactive)

/-- A call that moves has been made. -/
theorem active_of_next {c c' : ClientCall} {input : ClientInput}
    (h : (s.programs tu prompts q).next c input = some c') : s.Active prompts q := by
  by_contra hactive
  rw [programs_of_not_active hactive] at h
  cases h

theorem active_of_pending {c : ClientCall} {op : RepoOp}
    (h : (s.programs tu prompts q).pending c = some op) : s.Active prompts q := by
  by_contra hactive
  rw [programs_of_not_active hactive] at h
  cases h

variable [DecidableEq ι]

/-- The prompt is done with its line. -/
def nextLine (s : Prompts ι) (i : ι) : Prompts ι :=
  { s with
    line := Function.update s.line i (s.line i + 1)
    calling := Function.update s.calling i false }

def print (s : Prompts ι) (i : ι) (reply : LineReply) : Prompts ι :=
  { s with printed := Function.update s.printed i (s.printed i ++ [(s.line i, reply)]) }

inductive Step (tu : TimeUtil) (pg : Pg) (n : Nat) (prompts : ι → Prompt) (s : Prompts ι) :
    List ((ι × Nat) × Label RepoOp RepoResult) → Prompts ι → Prop
  | empty {i : ι} :
      s.calling i = false → (prompts i).task (s.line i) = some (.ok none) →
      Step tu pg n prompts s [] (s.nextLine i)
  | reply {i : ι} {reply : LineReply} :
      s.calling i = false → (prompts i).task (s.line i) = some (.ok (some (.reply reply))) →
      Step tu pg n prompts s [] ((s.print i reply).nextLine i)
  | call {i : ι} {op : ClientOp} :
      s.calling i = false → (prompts i).task (s.line i) = some (.ok (some (.call op))) →
      Step tu pg n prompts s [] { s with calling := Function.update s.calling i true }
  | returned {i : ι} {reply : LineReply} :
      s.calling i = true → (s.calls (i, s.line i)).reply = some reply →
      Step tu pg n prompts s [] ((s.print i reply).nextLine i)
  | system {o : List ((ι × Nat) × Label RepoOp RepoResult)} {calls : ι × Nat → ClientCall}
      {service : Pooled (ι × Nat)} :
      (callers (s.programs tu prompts) (Pooled.machine (ι × Nat) pg n)).step (s.calls, s.service) o
        (calls, service) →
      Step tu pg n prompts s o { s with calls, service }

/-- All runs with a pool of `n` connections. -/
def machine (tu : TimeUtil) (pg : Pg) (n : Nat) (prompts : ι → Prompt) :
    Machine (Prompts ι) ((ι × Nat) × Label RepoOp RepoResult) where
  init s := s.line = (fun _ => 0) ∧ s.calling = (fun _ => false) ∧ s.printed = (fun _ => [])
    ∧ (callers (lineProgram tu prompts) (Pooled.machine (ι × Nat) pg n)).init (s.calls, s.service)
  step := Step tu pg n prompts

/-! ### The system under the prompts -/

variable {pg : Pg} {n : Nat} {s' : Prompts ι}
  {out o : List ((ι × Nat) × Label RepoOp RepoResult)}

/-- Calls that are held back could be calls that wait. -/
theorem programStep_lineProgram {calls calls' : ι × Nat → ClientCall}
    (h : ProgramStep (s.programs tu prompts) calls o calls') :
    ProgramStep (lineProgram tu prompts) calls o calls' := by
  cases h with
  | own hanswer hnext =>
      rw [programs_of_active (active_of_next hnext)] at hanswer hnext
      exact .own hanswer hnext
  | call hpending =>
      rw [programs_of_active (active_of_pending hpending)] at hpending
      exact .call hpending
  | ret hanswer hnext =>
      rw [programs_of_active (active_of_next hnext)] at hanswer hnext
      exact .ret hanswer hnext

/-- What a step of the system changes of the calls. -/
theorem calls_of_programStep {calls calls' : ι × Nat → ClientCall}
    (h : ProgramStep (s.programs tu prompts) calls o calls') (q : ι × Nat) :
    calls' q = calls q ∨ s.Active prompts q
      ∧ ∃ input, (lineProgram tu prompts q).next (calls q) input = some (calls' q) := by
  have hmoves {q' : ι × Nat} {input : ClientInput} {c : ClientCall}
      (hnext : (s.programs tu prompts q').next (calls q') input = some c) :
      Function.update calls q' c q = calls q ∨ s.Active prompts q
        ∧ ∃ input, (lineProgram tu prompts q).next (calls q) input =
          some (Function.update calls q' c q) := by
    by_cases hq : q = q'
    · subst hq
      have hactive := active_of_next hnext
      rw [programs_of_active hactive] at hnext
      exact .inr ⟨hactive, input, by rw [Function.update_self, hnext]⟩
    · exact .inl (Function.update_of_ne hq ..)
  cases h with
  | own _ hnext => exact hmoves hnext
  | call => exact .inl rfl
  | ret _ hnext => exact hmoves hnext

theorem callers_lineProgram {calls calls' : ι × Nat → ClientCall}
    {service service' : Pooled (ι × Nat)}
    (h : (callers (s.programs tu prompts) (Pooled.machine (ι × Nat) pg n)).step (calls, service) o
      (calls', service')) :
    (callers (lineProgram tu prompts) (Pooled.machine (ι × Nat) pg n)).step (calls, service) o
      (calls', service') := by
  cases h with
  | left h => exact .left (programStep_lineProgram h)
  | right h => exact .right h
  | both h hservice => exact .both (programStep_lineProgram h) hservice

theorem calls_of_callers {calls calls' : ι × Nat → ClientCall}
    {service service' : Pooled (ι × Nat)}
    (h : (callers (s.programs tu prompts) (Pooled.machine (ι × Nat) pg n)).step (calls, service) o
      (calls', service')) (q : ι × Nat) :
    calls' q = calls q ∨ s.Active prompts q
      ∧ ∃ input, (lineProgram tu prompts q).next (calls q) input = some (calls' q) := by
  cases h with
  | left h => exact calls_of_programStep h q
  | right => exact .inl rfl
  | both h _ => exact calls_of_programStep h q

theorem system_step (h : (machine tu pg n prompts).step s o s') :
    (callers (lineProgram tu prompts) (Pooled.machine (ι × Nat) pg n)).Steps (s.calls, s.service) o
      (s'.calls, s'.service) := by
  cases h with
  | empty | reply | call | returned => exact .refl
  | system h => exact .single (callers_lineProgram h)

theorem system_steps (h : (machine tu pg n prompts).Steps s o s') :
    (callers (lineProgram tu prompts) (Pooled.machine (ι × Nat) pg n)).Steps (s.calls, s.service) o
      (s'.calls, s'.service) := by
  induction h with
  | refl => exact .refl
  | tail _ hs ih => exact ih.trans (system_step hs)

theorem system_run (h : (machine tu pg n prompts).Run s out) :
    (callers (lineProgram tu prompts) (Pooled.machine (ι × Nat) pg n)).Run (s.calls, s.service)
      out := by
  obtain ⟨s₀, ⟨-, -, -, hinit⟩, hs⟩ := h.fromStart
  exact (Machine.Run.start hinit).steps (system_steps hs)

/-! ### What the prompts keep -/

/-- A client that has returned stays where it is. -/
theorem returned_saveBatch {events : List Dto.Event} {c c' : Session} {a : Session.Act}
    {result : Bool} (h : c.client = .returned result) (hn : c.next events a = some c') :
    c'.client = .returned result := by
  cases Session.step_of_next hn with
  | call _ hclient | write hclient | writeFailed hclient | writesDone hclient | finish hclient =>
      rw [h] at hclient
      cases hclient
  | cancel hclient => exact absurd h (hclient result)
  | serve => exact h

theorem returned_read {query : ReadQuery} {c c' : ReadSession} {a : ReadSession.Act}
    {reply : Reply} (h : c.client = .returned reply) (hn : c.next tu query a = some c') :
    c'.client = .returned reply := by
  cases ReadSession.step_of_next hn with
  | call hclient | threw hclient | cancel hclient | finish hclient =>
      rw [h] at hclient
      cases hclient
  | proceed | execute => exact h

theorem reply_next {op : ClientOp} {c c' : ClientCall} {input : ClientInput} {reply : LineReply}
    (h : c.reply = some reply) (hn : c.next tu op input = some c') : c'.reply = some reply := by
  unfold ClientCall.next at hn
  split at hn
  · rename_i c a
    obtain ⟨c', hc', rfl⟩ := Option.map_eq_some_iff.mp hn
    cases hclient : c.client with
    | returned result =>
        simp only [ClientCall.reply, hclient] at h
        simp only [ClientCall.reply, returned_saveBatch hclient hc', h]
    | start | writing _ | finish => simp [ClientCall.reply, hclient] at h
  · rename_i query c a
    obtain ⟨c', hc', rfl⟩ := Option.map_eq_some_iff.mp hn
    cases hclient : c.client with
    | returned result =>
        simp only [ClientCall.reply, hclient] at h
        simp only [ClientCall.reply, returned_read hclient hc', h]
    | start | waiting => simp [ClientCall.reply, hclient] at h
  · cases hn

/-- What was printed for a line is what the line or its call says. -/
structure Inv (prompts : ι → Prompt) (s : Prompts ι) : Prop where
  waits : ∀ q op, (prompts q.1).op q.2 = some op → ¬s.Active prompts q →
    s.calls q = ClientCall.start op
  calling : ∀ i, s.calling i = true → ((prompts i).op (s.line i)).isSome = true
  printed : ∀ i k reply, (k, reply) ∈ s.printed i → k < s.line i
    ∧ (((prompts i).op k).isSome = true → (s.calls (i, k)).reply = some reply)

theorem task_of_op {p : Prompt} {k : Nat} {op : ClientOp} (h : p.op k = some op) :
    p.task k = some (.ok (some (.call op))) := by
  unfold Prompt.op at h
  split at h
  · obtain rfl := Option.some.inj h
    assumption
  · cases h

theorem op_of_reply {p : Prompt} {k : Nat} {reply : LineReply}
    (h : p.task k = some (.ok (some (.reply reply)))) : p.op k = none := by
  rw [Prompt.op, h]

theorem op_of_call {p : Prompt} {k : Nat} {op : ClientOp}
    (h : p.task k = some (.ok (some (.call op)))) : p.op k = some op := by
  rw [Prompt.op, h]

@[simp] theorem nextLine_line_self (s : Prompts ι) (i : ι) :
    (s.nextLine i).line i = s.line i + 1 := Function.update_self ..

@[simp] theorem nextLine_calling_self (s : Prompts ι) (i : ι) :
    (s.nextLine i).calling i = false := Function.update_self ..

theorem nextLine_line_of_ne (s : Prompts ι) {i j : ι} (h : j ≠ i) :
    (s.nextLine i).line j = s.line j := Function.update_of_ne h ..

theorem nextLine_calling_of_ne (s : Prompts ι) {i j : ι} (h : j ≠ i) :
    (s.nextLine i).calling j = s.calling j := Function.update_of_ne h ..

omit [DecidableEq ι] in
theorem made_iff : s.made q = true ↔
    q.2 < s.line q.1 ∨ q.2 = s.line q.1 ∧ s.calling q.1 = true := by
  simp [made]

/-- Lines that have been read stay so. -/
theorem made_nextLine {i : ι} (h : s.made q = true) : (s.nextLine i).made q = true := by
  rw [made_iff] at h ⊢
  by_cases hi : q.1 = i
  · rw [hi, nextLine_line_self]
    rw [hi] at h
    omega
  · rwa [nextLine_line_of_ne s hi, nextLine_calling_of_ne s hi]

theorem made_step (hs : Step tu pg n prompts s o s') (h : s.made q = true) :
    s'.made q = true := by
  cases hs with
  | empty => exact made_nextLine h
  | @reply i reply => exact made_nextLine (s := s.print i reply) h
  | @returned i reply => exact made_nextLine (s := s.print i reply) h
  | @call i =>
      rw [made_iff] at h ⊢
      refine h.imp_right fun ⟨hk, hcalling⟩ => ⟨hk, ?_⟩
      by_cases hi : q.1 = i
      · rw [hi]
        exact Function.update_self ..
      · exact (Function.update_of_ne hi ..).trans hcalling
  | system => exact h

/-- The prompt takes the next line, and may have printed something for the one
it was at. -/
theorem inv_nextLine {i : ι} (hwaits : ∀ q op, (prompts q.1).op q.2 = some op →
      ¬s.Active prompts q → s.calls q = ClientCall.start op)
    (hcalling : ∀ i, s.calling i = true → ((prompts i).op (s.line i)).isSome = true)
    (hprinted : ∀ j k reply, (k, reply) ∈ s.printed j → (k < s.line j ∨ j = i ∧ k = s.line i)
      ∧ (((prompts j).op k).isSome = true → (s.calls (j, k)).reply = some reply)) :
    (s.nextLine i).Inv prompts where
  waits q op hop hactive :=
    hwaits q op hop fun hbefore => hactive ⟨made_nextLine hbefore.1, hbefore.2⟩
  calling j hj := by
    by_cases hi : j = i
    · subst hi
      rw [nextLine_calling_self] at hj
      cases hj
    · rw [nextLine_calling_of_ne _ hi] at hj
      rw [nextLine_line_of_ne _ hi]
      exact hcalling j hj
  printed j k reply hk := by
    obtain ⟨hbound, hreply⟩ := hprinted j k reply hk
    refine ⟨?_, hreply⟩
    by_cases hi : j = i
    · subst hi
      rw [nextLine_line_self]
      omega
    · rw [nextLine_line_of_ne _ hi]
      exact hbound.resolve_right fun ⟨hj, _⟩ => hi hj

/-- The prompt prints the answer to its line. -/
theorem inv_print {i : ι} {reply : LineReply} (h : s.Inv prompts)
    (hreply : ((prompts i).op (s.line i)).isSome = true →
      (s.calls (i, s.line i)).reply = some reply) :
    ((s.print i reply).nextLine i).Inv prompts := by
  refine inv_nextLine h.waits h.calling fun j k x hx => ?_
  by_cases hi : j = i
  · subst hi
    have hself : (s.print j reply).printed j = s.printed j ++ [(s.line j, reply)] :=
      Function.update_self ..
    rw [hself] at hx
    rcases List.mem_append.mp hx with hold | hnew
    · exact ⟨.inl (h.printed j k x hold).1, (h.printed j k x hold).2⟩
    · obtain ⟨rfl, rfl⟩ := Prod.mk.inj (List.mem_singleton.mp hnew)
      exact ⟨.inr ⟨rfl, rfl⟩, hreply⟩
  · have hsame : (s.print i reply).printed j = s.printed j := Function.update_of_ne hi ..
    obtain ⟨hlt, hsaid⟩ := h.printed j k x (hsame ▸ hx)
    exact ⟨.inl hlt, hsaid⟩

theorem inv_step (h : s.Inv prompts) (hs : Step tu pg n prompts s o s') : s'.Inv prompts := by
  have hmade := fun q => made_step (q := q) hs
  cases hs with
  | empty =>
      refine inv_nextLine h.waits h.calling fun j k reply hk => ?_
      exact ⟨.inl (h.printed j k reply hk).1, (h.printed j k reply hk).2⟩
  | reply _ htask =>
      refine inv_print h fun hop => ?_
      rw [op_of_reply htask] at hop
      cases hop
  | returned _ hreply => exact inv_print h fun _ => hreply
  | @call i op hidle htask =>
      refine ⟨fun q op hop hactive => h.waits q op hop fun hb => hactive ⟨hmade q hb.1, hb.2⟩,
        fun j hj => ?_, h.printed⟩
      by_cases hi : j = i
      · subst hi
        rw [op_of_call htask]
        rfl
      · exact h.calling j ((Function.update_of_ne hi ..).symm.trans hj)
  | system hcallers =>
      have hcalls := calls_of_callers hcallers
      refine ⟨fun q op hop hactive => ?_, h.calling, fun i k reply hk => ?_⟩
      · rcases hcalls q with heq | ⟨hbefore, -⟩
        · exact heq.trans (h.waits q op hop hactive)
        · exact absurd hbefore hactive
      · obtain ⟨hlt, hreply⟩ := h.printed i k reply hk
        refine ⟨hlt, fun hop => ?_⟩
        rcases hcalls (i, k) with heq | ⟨-, input, hnext⟩
        · exact (congrArg ClientCall.reply heq).trans (hreply hop)
        · exact reply_next (hreply hop) hnext

theorem inv_run (h : (machine tu pg n prompts).Run s out) : s.Inv prompts := by
  refine h.invariant (I := fun s _ => s.Inv prompts) ?_ fun _ _ _ _ hs hstep => inv_step hs hstep
  rintro s ⟨hline, hcalling, hprinted, hcalls, -⟩
  refine ⟨fun q op hop _ => ?_, fun i hi => ?_, fun i k reply hk => ?_⟩
  · have hq : s.calls q = ClientCall.start (lineOp prompts q) := hcalls q
    rwa [lineOp, hop] at hq
  · rw [hcalling] at hi
    cases hi
  · rw [hprinted] at hk
    cases hk

/-! ## What is printed -/

theorem ok_of_map_some {x : Except String LineTask} {task : LineTask}
    (h : x.map some = .ok (some task)) : x = .ok task := by
  cases x with
  | error what => cases h
  | ok task' => rw [Option.some.inj (Except.ok.inj h)]

/-- `get` calls `GetEvents`, if anything. -/
theorem op_of_getTask {args : List String} {op : ClientOp} (h : getTask args = .ok (.call op)) :
    ∃ filter, op = .read (.getEvents filter) := by
  unfold getTask at h
  cases hparse : parseEventFilter args with
  | error what =>
      rw [hparse] at h
      cases h
  | ok parsed =>
      cases hfilter : parsed.filter with
      | none =>
          simp only [hparse, bind, Except.bind, hfilter] at h
          cases h
      | some filter =>
          simp only [hparse, bind, Except.bind, hfilter] at h
          cases h
          exact ⟨filter, rfl⟩

/-- Only `save` sends events, which it has collected. -/
theorem collect_of_lineTask {b : EventBuilder} {localtime : Int → Tm} {files : String → FileInput}
    {line : String} {events : List Dto.Event}
    (h : lineTask b localtime files line = .ok (some (.call (.saveBatch events)))) :
    ∃ batches, events = b.collect localtime batches := by
  unfold lineTask at h
  split at h
  · cases h
  · cases h
  · have htask := ok_of_map_some h
    unfold handleSaveEvent at htask
    split at htask
    · cases htask
    · split at htask
      · cases htask
      · rename_i batches _
        cases htask
        exact ⟨batches, rfl⟩
      · cases htask
  · obtain ⟨filter, hop⟩ := op_of_getTask (ok_of_map_some h)
    cases hop
  · cases h
  · cases h

/-- What a `save` line sends was built from the entries of its file. -/
theorem built_of_op {p : Prompt} {k : Nat} {events : List Dto.Event}
    (h : p.op k = some (.saveBatch events)) {e : Dto.Event} (he : e ∈ events) :
    ∃ now logEntry, p.builder.build p.localtime now logEntry = some e := by
  obtain ⟨line, -, htask⟩ := Option.map_eq_some_iff.mp (task_of_op h)
  obtain ⟨batches, rfl⟩ := collect_of_lineTask htask
  obtain ⟨batch, -, he⟩ := List.mem_flatMap.mp he
  obtain ⟨entry, -, he⟩ := List.mem_filterMap.mp he
  exact ⟨_, _, he⟩

/-- A line that shows something is done by a call that has been answered. -/
theorem reply_of_result {c : ClientCall} {reply : LineReply} {result : RepoResult}
    (h : c.reply = some reply) (hresult : reply.result = some result) :
    ∃ s r, c = .read s ∧ s.client = .returned r ∧ r.result = some result := by
  unfold ClientCall.reply at h
  split at h
  · split at h
    · obtain rfl := Option.some.inj h
      cases hresult
    · cases h
  · split at h
    · rename_i events hclient
      obtain rfl := Option.some.inj h
      exact ⟨_, _, rfl, hclient, hresult⟩
    · obtain rfl := Option.some.inj h
      cases hresult
    · rename_i stats hclient
      obtain rfl := Option.some.inj h
      refine ⟨_, _, rfl, hclient, ?_⟩
      cases stats with
      | none => cases hresult
      | some _ => exact hresult
    · cases h

/-- One that says so has saved. -/
theorem saved_of_reply {c : ClientCall} (h : c.reply = some (.saved true)) :
    ∃ s, c = .saveBatch s ∧ s.client = .returned true := by
  unfold ClientCall.reply at h
  split at h
  · split at h
    · rename_i hclient
      cases h
      exact ⟨_, rfl, hclient⟩
    · cases h
  · split at h <;> cases h

omit [DecidableEq ι] in
theorem log_of_simulates (s : Pooled (ι × Nat))
    (a : Spec.State (ι × Nat) (List ((ι × Nat) × Dto.Event)) RepoOp RepoResult)
    (ha : Repository.Simulates s.repo a) : a.value = s.repo.log := ha.1

theorem task_of_line {p : Prompt} {k : Nat} {line : Line} {args : List String}
    (hline : p.lines[k]? = some line) (hget : command line.text = some (.get args)) :
    p.task k = some ((getTask args).map some) := by
  rw [Prompt.task, hline, Option.map_some, lineTask, hget]

/-- A line that ends the program is not left. -/
theorem line_le {i : ι} {k : Nat} {what : String}
    (hends : (prompts i).task k = some (.error what)) (h : (machine tu pg n prompts).Run s out) :
    s.line i ≤ k := by
  induction h with
  | start hinit => exact hinit.1 ▸ Nat.zero_le k
  | @step s s' out o h hs ih =>
      have hnext {j : ι} {t : Prompts ι} (hline : t.line = s.line)
          (htask : (prompts j).task (s.line j) ≠ some (.error what)) :
          (t.nextLine j).line i ≤ k := by
        by_cases hi : i = j
        · subst hi
          rw [nextLine_line_self, hline]
          exact Nat.lt_of_le_of_ne ih fun heq => htask (heq ▸ hends)
        · rwa [nextLine_line_of_ne _ hi, hline]
      cases hs with
      | empty _ htask => exact hnext rfl (by rw [htask]; simp)
      | reply _ htask => exact hnext rfl (by rw [htask]; simp)
      | @returned j reply hcalling _ =>
          obtain ⟨op, hop⟩ := Option.isSome_iff_exists.mp ((inv_run h).calling j hcalling)
          exact hnext rfl (by rw [task_of_op hop]; simp)
      | call | system => exact ih

/-- What is in the log was sent for a line that has been read. -/
theorem made_of_mem_log (htext : KeepsText pg) (h : (machine tu pg n prompts).Run s out)
    {q : ι × Nat} {e : Dto.Event} (he : (q, e) ∈ s.service.repo.log) :
    s.made q = true ∧ ∃ events, (prompts q.1).op q.2 = some (.saveBatch events) ∧ e ∈ events := by
  have hrun : (callers (fun q => ClientCall.program tu (lineOp prompts q)) _).Run _ _ :=
    system_run h
  obtain ⟨phase, hsaving, hreading, -⟩ :=
    log_over (Pooled.simulatedBack htext n) log_of_simulates hrun
  have hshare : e ∈ share q s.service.repo.log := mem_share.mpr he
  have hreads (query : ReadQuery) (hop : lineOp prompts q = .read query) : False := by
    rw [(hreading q query hop).nothing] at hshare
    cases hshare
  cases hop : (prompts q.1).op q.2 with
  | none => exact (hreads .getStats (by rw [lineOp, hop]; rfl)).elim
  | some op =>
      have hline : lineOp prompts q = op := by rw [lineOp, hop]; rfl
      cases op with
      | read query => exact (hreads query hline).elim
      | saveBatch events =>
          have hq := hsaving q events hline
          refine ⟨?_, events, rfl, ?_⟩
          · by_contra hmade
            have hwaits := (inv_run h).waits q _ hop fun hactive => hmade hactive.1
            rw [hwaits] at hq
            rw [hq.nothing] at hshare
            cases hshare
          · obtain ⟨c, hpersisted⟩ := hq.persisted
            exact (Session.persisted hpersisted).subset hshare

/-- What the log has of a `save` line. -/
theorem saved_printed (htext : KeepsText pg) (h : (machine tu pg n prompts).Run s out) {i : ι}
    {k : Nat} {events : List Dto.Event} (hop : (prompts i).op k = some (.saveBatch events)) :
    share (i, k) s.service.repo.log <+: events
      ∧ ((k, .saved true) ∈ s.printed i → share (i, k) s.service.repo.log = events) := by
  have hrun : (callers (fun q => ClientCall.program tu (lineOp prompts q)) _).Run _ _ :=
    system_run h
  have hline : lineOp prompts (i, k) = .saveBatch events := by rw [lineOp, hop]; rfl
  obtain ⟨hpart, hall⟩ := saved_over (Pooled.simulatedBack htext n) log_of_simulates hrun hline
  refine ⟨hpart, fun hk => ?_⟩
  obtain ⟨c, hc, hreturned⟩ :=
    saved_of_reply (((inv_run h).printed i k _ hk).2 (by rw [hop]; rfl))
  exact hall c hc hreturned

/-- What a line shows that is read after some steps. -/
theorem shown_printed (htext : KeepsText pg) (h : (machine tu pg n prompts).Run s out)
    (hs : (machine tu pg n prompts).Steps s o s') {i : ι} {k : Nat} {query : ReadQuery}
    {reply : LineReply} {result : RepoResult} (hop : (prompts i).op k = some (.read query))
    (hmade : s.made (i, k) = false) (hk : (k, reply) ∈ s'.printed i)
    (hresult : reply.result = some result) :
    ∃ op log, query.op tu = .ok op ∧ s.service.repo.log <+: log
      ∧ log <+: s'.service.repo.log ∧ Shows pg log op result := by
  have hrun : (callers (fun q => ClientCall.program tu (lineOp prompts q)) _).Run _ _ :=
    system_run h
  have hsteps : (callers (fun q => ClientCall.program tu (lineOp prompts q)) _).Steps _ _ _ :=
    system_steps hs
  have hline : lineOp prompts (i, k) = .read query := by rw [lineOp, hop]; rfl
  have hstart := (inv_run h).waits (i, k) _ hop fun hactive =>
    Bool.false_ne_true (hmade.symm.trans hactive.1)
  have hreply := ((inv_run (h.steps hs)).printed i k reply hk).2 (by rw [hop]; rfl)
  obtain ⟨c, r, hc, hr, hshown⟩ := reply_of_result hreply hresult
  exact shown_over (Pooled.simulatedBack htext n) log_of_simulates htext hrun hsteps hline hstart
    hc hr hshown

/-- **The prompts agree.** Take any reachable state of the processes and the
service, and any state that is reached from it. The tables hold the log, and
whatever is in it is one of the events that a client collected for the file of a
line it has read, and was built from an entry. Where "Events saved successfully." was printed the
log has all events of the file, in order. A line that is read later and shows
events or statistics shows what is right for the log of the first state or for
an extension of it. And no prompt gets behind a `get` line with an option that
does harm. -/
theorem prompts_agree (htext : KeepsText pg) (h : (machine tu pg n prompts).Run s out)
    (hs : (machine tu pg n prompts).Steps s o s') :
    s.service.repo.db.tables.Holds pg (s.service.repo.log.map (·.2))
      ∧ (∀ q e, (q, e) ∈ s.service.repo.log → s.made q = true
        ∧ (∃ events, (prompts q.1).op q.2 = some (.saveBatch events) ∧ e ∈ events)
        ∧ ∃ now logEntry, (prompts q.1).builder.build (prompts q.1).localtime now logEntry = some e)
      ∧ (∀ i k events, (prompts i).op k = some (.saveBatch events) →
        share (i, k) s.service.repo.log <+: events
          ∧ ((k, .saved true) ∈ s.printed i → share (i, k) s.service.repo.log = events))
      ∧ (∀ i k query reply result, (prompts i).op k = some (.read query) →
        s.made (i, k) = false → (k, reply) ∈ s'.printed i → reply.result = some result →
        ∃ op log, query.op tu = .ok op ∧ s.service.repo.log <+: log
          ∧ log <+: s'.service.repo.log ∧ Shows pg log op result)
      ∧ ∀ i k line args, (prompts i).lines[k]? = some line → command line.text = some (.get args) →
        ¬AllHarmless (options (args.drop 1)) → s.line i ≤ k := by
  refine ⟨(Repository.inv_run (Pooled.repo_run (Machine.sync_snd (system_run h)))).holds.1,
    fun q e he => ?_, fun i k events hop => saved_printed htext h hop,
    fun i k query reply result hop hmade hk hresult =>
      shown_printed htext h hs hop hmade hk hresult, fun i k line args hline hget hharm => ?_⟩
  · obtain ⟨hmade, events, hop, hmem⟩ := made_of_mem_log htext h he
    exact ⟨hmade, ⟨events, hop, hmem⟩, built_of_op hop hmem⟩
  · cases htask : getTask args with
    | ok task => exact absurd (getTask_isOk.mp ⟨task, htask⟩) hharm
    | error what =>
        have hends : (prompts i).task k = some (.error what) := by
          rw [task_of_line hline hget, htask]
          rfl
        exact line_le hends h

/-! ### One prompt -/

theorem line_le_nextLine (i j : ι) : s.line j ≤ (s.nextLine i).line j := by
  by_cases hj : j = i
  · rw [hj, nextLine_line_self]
    exact Nat.le_succ _
  · rw [nextLine_line_of_ne s hj]

theorem line_step (hs : Step tu pg n prompts s o s') (i : ι) : s.line i ≤ s'.line i := by
  cases hs with
  | empty | reply | returned => exact line_le_nextLine ..
  | call | system => exact Nat.le_refl _

theorem line_steps (hs : (machine tu pg n prompts).Steps s o s') (i : ι) :
    s.line i ≤ s'.line i := by
  induction hs with
  | refl => exact Nat.le_refl _
  | tail _ hstep ih => exact ih.trans (line_step hstep i)

/-- A line is read when the prompt is at it. -/
theorem line_of_made (hs : Step tu pg n prompts s o s') (hbefore : ¬s.made q = true)
    (hmade : s'.made q = true) : s.line q.1 = q.2 := by
  rw [made_iff] at hbefore hmade
  have hnext {i : ι} {t : Prompts ι} (hline : t.line = s.line) (hcalling : t.calling = s.calling)
      (h : q.2 < (t.nextLine i).line q.1
        ∨ q.2 = (t.nextLine i).line q.1 ∧ (t.nextLine i).calling q.1 = true) :
      s.line q.1 = q.2 := by
    by_cases hi : q.1 = i
    · subst hi
      rw [nextLine_line_self, nextLine_calling_self, hline] at h
      have hle : s.line q.1 ≤ q.2 := Nat.le_of_not_lt fun hlt => hbefore (.inl hlt)
      rcases h with hlt | ⟨-, hfalse⟩
      · omega
      · cases hfalse
    · rw [nextLine_line_of_ne _ hi, nextLine_calling_of_ne _ hi, hline, hcalling] at h
      exact absurd h hbefore
  cases hs with
  | empty | reply | returned => exact hnext rfl rfl hmade
  | call =>
      rcases hmade with hlt | ⟨heq, -⟩
      · exact absurd (.inl hlt) hbefore
      · exact heq.symm
  | system => exact absurd hmade hbefore

/-- So a run leads past the moment before that. -/
theorem exists_begin (h : (machine tu pg n prompts).Run s out) (hmade : s.made q = true) :
    ∃ s₀ out₀ o₀, (machine tu pg n prompts).Run s₀ out₀
      ∧ (machine tu pg n prompts).Steps s₀ o₀ s ∧ s₀.made q = false ∧ s₀.line q.1 = q.2 := by
  induction h with
  | start hinit =>
      rw [made_iff, hinit.1, hinit.2.1] at hmade
      simp at hmade
  | @step s s' out o h hs ih =>
      by_cases hbefore : s.made q = true
      · obtain ⟨s₀, out₀, o₀, hrun, hsteps, hs₀⟩ := ih hbefore
        exact ⟨s₀, out₀, _, hrun, hsteps.tail hs, hs₀⟩
      · exact ⟨s, out, o, h, .single hs, Bool.not_eq_true _ ▸ hbefore,
          line_of_made hs hbefore hmade⟩

theorem printed_step {i : ι} {k : Nat} {reply : LineReply} (hs : Step tu pg n prompts s o s')
    (hk : (k, reply) ∈ s'.printed i) (hlt : k < s.line i) : (k, reply) ∈ s.printed i := by
  have hprint {j : ι} {x : LineReply} (hk : (k, reply) ∈ (s.print j x).printed i) :
      (k, reply) ∈ s.printed i := by
    by_cases hi : i = j
    · subst hi
      have hself : (s.print i x).printed i = s.printed i ++ [(s.line i, x)] :=
        Function.update_self ..
      rw [hself] at hk
      rcases List.mem_append.mp hk with hold | hnew
      · exact hold
      · obtain ⟨rfl, -⟩ := Prod.mk.inj (List.mem_singleton.mp hnew)
        exact absurd hlt (Nat.lt_irrefl _)
    · have hsame : (s.print j x).printed i = s.printed i := Function.update_of_ne hi ..
      exact hsame ▸ hk
  cases hs with
  | reply | returned => exact hprint hk
  | empty | call | system => exact hk

/-- Lines that are behind the prompt get no further answer. -/
theorem printed_steps {i : ι} {k : Nat} {reply : LineReply}
    (hs : (machine tu pg n prompts).Steps s o s') (hk : (k, reply) ∈ s'.printed i)
    (hlt : k < s.line i) : (k, reply) ∈ s.printed i := by
  induction hs with
  | refl => exact hk
  | tail hs hstep ih =>
      exact ih (printed_step hstep hk (hlt.trans_le (line_steps hs i)))

/-- **A prompt sees its own saves.** Where a prompt has printed "Events saved
successfully." and then, for a later line, events or statistics, these are
right for a log that has all the events of the first line, in order. -/
theorem reads_own_saves (htext : KeepsText pg) (h : (machine tu pg n prompts).Run s out) (i : ι)
    (k m : Nat) (hkm : k < m) (events : List Dto.Event) (query : ReadQuery) (reply : LineReply)
    (result : RepoResult) (hsave : (prompts i).op k = some (.saveBatch events))
    (hsaved : (k, .saved true) ∈ s.printed i) (hread : (prompts i).op m = some (.read query))
    (hreply : (m, reply) ∈ s.printed i) (hresult : reply.result = some result) :
    ∃ op log, query.op tu = .ok op ∧ log <+: s.service.repo.log ∧ share (i, k) log = events
      ∧ Shows pg log op result := by
  have hmade : s.made (i, m) = true := made_iff.mpr (.inl ((inv_run h).printed i m _ hreply).1)
  obtain ⟨s₀, out₀, o₀, hrun, hsteps, hnot, hline⟩ := exists_begin h hmade
  have hearlier := printed_steps hsteps hsaved (hline ▸ hkm)
  have hall : share (i, k) s₀.service.repo.log = events :=
    (saved_printed htext hrun hsave).2 hearlier
  obtain ⟨op, log, hop, hle, hle', hshows⟩ :=
    shown_printed htext hrun hsteps hread hnot hreply hresult
  refine ⟨op, log, hop, hle', ?_, hshows⟩
  -- the shown log lies between two that have the events
  have hpart : share (i, k) s.service.repo.log <+: events := (saved_printed htext h hsave).1
  have hlow : events <+: share (i, k) log := hall ▸ prefix_share _ hle
  exact ((prefix_share _ hle').trans hpart).eq_of_length_le hlow.length_le

/-! ### One prompt with two lines -/

/-- While no line is read or answered, the system takes its steps. -/
theorem steps_system {p p' : (ι × Nat → ClientCall) × Pooled (ι × Nat)}
    (h : (callers (s.programs tu prompts) (Pooled.machine (ι × Nat) pg n)).Steps p o p') :
    (machine tu pg n prompts).Steps { s with calls := p.1, service := p.2 } o
      { s with calls := p'.1, service := p'.2 } := by
  induction h with
  | refl => exact .refl
  | tail _ hs ih => exact ih.tail (.system hs)

def samplePrompt : Prompt where
  builder := mainBuilder fun _ => none
  localtime _ := sampleTime
  lines :=
    [⟨"save log.txt", fun _ => .entries [[(sampleEntry, 0)]]⟩, ⟨"get", fun _ => .cannotOpen⟩]

example : samplePrompt.op 0 = some (.saveBatch [sampleEvent]) := rfl

/-- The calls of its two lines, as threads of the service. -/
def sampleSave : Unit × Nat := ((), 0)
def sampleGet : Unit × Nat := ((), 1)

/-- A call of the repository with the `k`-th connection it acquires. -/
def sampleUse (q : Unit × Nat) (k : Nat) (op : RepoOp) (inside : List RepoInput) :
    List (PooledInput (Unit × Nat)) :=
  [.repo q (.call op), .pool q (.acquire false), .pool q (.check k false)]
    ++ inside.map (.repo q)
    ++ [.pool q (.destroy k), .pool q (.testOpen k true), .pool q (.push k),
      .pool q (.notify k none), .pool q (.finish k), .repo q .leave]

def sampleStart : Pooled (Unit × Nat) where
  pool := Pool.between 1 [0] (Pool.prepareStatements.onAll (Pool.construct 1).heap [0])

theorem orders_sampleUse (q : Unit × Nat) (k : Nat) (op : RepoOp) {inside : List RepoInput}
    (h : ∀ input ∈ inside, Repository.Orders (q, input)) :
    ∀ a ∈ sampleUse q k op inside, Pooled (Unit × Nat) → Pooled.Orders a := by
  intro a ha _
  simp only [sampleUse, List.mem_append, List.mem_cons, List.not_mem_nil, or_false,
    List.mem_map] at ha
  rcases ha with ((rfl | rfl | rfl) | ⟨input, hinput, rfl⟩) | rfl | rfl | rfl | rfl | rfl | rfl
  all_goals first | trivial | exact h input hinput

def sampleSaves : List ((Unit × Nat) × Label RepoOp RepoResult) :=
  [(sampleSave, .call (.saveEvents [sampleEvent])), (sampleSave, .ret (.saved (.returned .ok)))]

def sampleReads : List ((Unit × Nat) × Label RepoOp RepoResult) :=
  [(sampleGet, .call (.read (.getEvents (some {})))),
    (sampleGet, .ret (.events (.ok [Repository.sampleBack])))]

theorem sampleService : ∃ t t' : Pooled (Unit × Nat),
    (Pooled.machine (Unit × Nat) samplePg 1).Steps sampleStart sampleSaves t
    ∧ (Pooled.machine (Unit × Nat) samplePg 1).Steps t sampleReads t' := by
  have hsave : ∀ input ∈ [RepoInput.save .proceed, .save (.insertEvent 1), .save .proceed,
      .save .proceed], Repository.Orders (sampleSave, input) := by
    simp [Repository.Orders]
  have hget : ∀ input ∈ [RepoInput.read (.exec (Sql.arrange orderKey)), .read .commit],
      Repository.Orders (sampleGet, input) := by
    have hadm : Admissible (Sql.arrange orderKey) := Sql.arranged_arrange orderKey
    simp [Repository.Orders, hadm]
  exact ⟨_, _,
    Machine.steps_of_feed_where (orders_sampleUse _ 1 (.saveEvents [sampleEvent]) hsave) rfl,
    Machine.steps_of_feed_where
      (orders_sampleUse _ 2 (.read (.getEvents (some {}))) hget) rfl⟩

abbrev sampleMachine : Machine (Prompts Unit) ((Unit × Nat) × Label RepoOp RepoResult) :=
  machine sampleTu samplePg 1 fun _ => samplePrompt

/-- The first line saves. -/
theorem sampleFirst {t : Pooled (Unit × Nat)}
    (ht : (Pooled.machine (Unit × Nat) samplePg 1).Steps sampleStart sampleSaves t) :
    ∃ s, sampleMachine.Run s sampleSaves ∧ s.line () = 1
      ∧ s.calling () = false ∧ s.printed () = [(0, .saved true)]
      ∧ s.calls sampleGet = .read {} ∧ s.service = t := by
  let s₀ : Prompts Unit :=
    { calls := fun q => ClientCall.start (lineOp (fun _ => samplePrompt) q)
      service := sampleStart }
  have hinit : sampleMachine.init s₀ := ⟨rfl, rfl, rfl, fun q => rfl, fun _ => true, _, rfl, rfl⟩
  let s₁ : Prompts Unit := { s₀ with calling := Function.update s₀.calling () true }
  have hcall : sampleMachine.step s₀ [] s₁ := .call (i := ()) rfl rfl
  have h₁ := (Machine.Steps.refl
    (M := Transition.programs (s₁.programs sampleTu fun _ => samplePrompt))
    (s := s₁.calls)).tail (.own (i := sampleSave) (k := .saveBatch (.call true)) rfl rfl)
  have h₂ := h₁.tail
    (.own (i := sampleSave) (k := .saveBatch (.serve false (.returned .ok))) rfl rfl)
  have h₃ := h₂.tail
    (.call (i := sampleSave) (show _ = some (.saveEvents [sampleEvent]) from rfl))
  have h₄ := h₃.tail
    (.ret (i := sampleSave) (k := .saveBatch (.serve false (.returned .ok))) rfl rfl)
  have h₅ := h₄.tail (.own (i := sampleSave) (k := .saveBatch .finish) rfl rfl)
  have hsystem := steps_system (Machine.sync_steps (brief_programs _)
    (Pooled.brief_machine samplePg 1) h₅ ht)
  exact ⟨_, ((Machine.Run.start hinit).step hcall).steps
    (hsystem.tail (.returned (i := ()) rfl rfl)), rfl, rfl, rfl, rfl, rfl⟩

/-- The second one shows what was saved. -/
theorem sampleSecond {s : Prompts Unit} {t' : Pooled (Unit × Nat)}
    (hline : s.line () = 1) (hcalling : s.calling () = false)
    (hstart : s.calls sampleGet = .read {})
    (ht : (Pooled.machine (Unit × Nat) samplePg 1).Steps s.service sampleReads t') :
    ∃ s', sampleMachine.Steps s sampleReads s'
      ∧ s'.printed () = s.printed () ++ [(1, .get (.got [Repository.sampleBack]))] := by
  let s₁ : Prompts Unit := { s with calling := Function.update s.calling () true }
  have hcall : sampleMachine.step s [] s₁ := .call (i := ()) hcalling (by rw [hline]; rfl)
  have hactive : s₁.Active (fun _ => samplePrompt) sampleGet :=
    ⟨made_iff.mpr (.inr ⟨hline.symm, rfl⟩), rfl⟩
  have hprogram : s₁.programs sampleTu (fun _ => samplePrompt) sampleGet =
      ClientCall.program sampleTu (.read (.getEvents {})) := programs_of_active hactive
  obtain ⟨c, hshown, hsteps⟩ := programs_sampleRead hprogram hstart
  have hsystem := steps_system (s := s₁) (Machine.sync_steps (brief_programs _)
    (Pooled.brief_machine samplePg 1) hsteps ht)
  have hreply : ClientCall.reply (.read c) = some (.get (.got [Repository.sampleBack])) := by
    simp only [ClientCall.reply, hshown]
  have hself : Function.update s₁.calls sampleGet (.read c) ((), s.line ()) = .read c := by
    rw [hline]
    exact Function.update_self ..
  refine ⟨_, (Machine.Steps.head hcall hsystem).tail
    (.returned rfl ((congrArg _ hself).trans hreply)), ?_⟩
  have hprinted : ∀ x, (s.print () x).printed () = s.printed () ++ [(s.line (), x)] :=
    fun _ => rfl
  exact hline ▸ hprinted _

/-- The prompt shows what it has saved. -/
theorem sampleRun : ∃ s s' : Prompts Unit,
    sampleMachine.Run s sampleSaves ∧ sampleMachine.Steps s sampleReads s'
      ∧ s.printed () = [(0, .saved true)] ∧ s.made sampleGet = false
      ∧ s'.printed () = [(0, .saved true), (1, .get (.got [Repository.sampleBack]))] := by
  obtain ⟨t, t', hsaves, hreads⟩ := sampleService
  obtain ⟨s, hrun, hline, hcalling, hprinted, hstart, rfl⟩ := sampleFirst hsaves
  obtain ⟨s', hsteps, hprinted'⟩ := sampleSecond hline hcalling hstart hreads
  refine ⟨s, s', hrun, hsteps, hprinted, ?_, by rw [hprinted', hprinted]; rfl⟩
  have hat : s.line sampleGet.1 = 1 := hline
  have hidle : s.calling sampleGet.1 = false := hcalling
  rw [made, hat, hidle]
  rfl

theorem prompts_agree_sample : ∃ (s s' : Prompts Unit) (log : List ((Unit × Nat) × Dto.Event)),
    share sampleSave s.service.repo.log = [sampleEvent] ∧ s.service.repo.log <+: log
      ∧ log <+: s'.service.repo.log
      ∧ Shows samplePg log (.getEvents (some {})) (.events (.ok [Repository.sampleBack])) := by
  obtain ⟨s, s', hrun, hsteps, hprinted, hmade, hprinted'⟩ := sampleRun
  obtain ⟨-, -, hsaved, hshown, -⟩ := prompts_agree (fun _ _ => rfl) hrun hsteps
  obtain ⟨op, log, hop, hlog, hlog', hshows⟩ := hshown () 1 (.getEvents {})
    (.get (.got [Repository.sampleBack])) _ rfl hmade (by simp [hprinted']) rfl
  obtain rfl : .getEvents (some {}) = op := Except.ok.inj hop
  exact ⟨s, s', log, (hsaved () 0 [sampleEvent] rfl).2 (by simp [hprinted]), hlog, hlog', hshows⟩

theorem reads_own_saves_sample : ∃ (s : Prompts Unit) (log : List ((Unit × Nat) × Dto.Event)),
    log <+: s.service.repo.log ∧ share sampleSave log = [sampleEvent]
      ∧ Shows samplePg log (.getEvents (some {})) (.events (.ok [Repository.sampleBack])) := by
  obtain ⟨s, s', hrun, hsteps, -, -, hprinted⟩ := sampleRun
  obtain ⟨op, log, hop, hlog, hall, hshows⟩ := reads_own_saves (fun _ _ => rfl)
    (hrun.steps hsteps) () 0 1 (by decide) [sampleEvent] (.getEvents {})
    (.get (.got [Repository.sampleBack])) _ rfl (by simp [hprinted]) rfl (by simp [hprinted]) rfl
  obtain rfl : .getEvents (some {}) = op := Except.ok.inj hop
  exact ⟨s', log, hlog, hall, hshows⟩

end Prompts

end EventHistory
