import Mathlib.Algebra.Group.Nat.Even
import Mathlib.Data.List.Induction
import EventHistory.Client.CommandLine

/-!
# Quoting on the command line

What the tokenizer of `main` makes of a line. `Tokenizer.Inv` relates its
variables to the part of the line it has read; `tokenize_undoes_quoting` says
that arguments written with quotes where they need them come back, and what
can be said of any line.
-/

namespace EventHistory

/-! ## Lines written from arguments -/

/-- An argument on a line: bare if it has no space, or between quotes. -/
inductive Written (arg : String) : List Char → Prop
  | bare : ' ' ∉ arg.toList → Written arg arg.toList
  | quoted : Written arg ('"' :: arg.toList ++ ['"'])

/-- Arguments joined by spaces. -/
inductive JoinedArgs : List String → List Char → Prop
  | nil : JoinedArgs [] []
  | one {arg : String} {text : List Char} : Written arg text → JoinedArgs [arg] text
  | cons {arg arg' : String} {args : List String} {text rest : List Char} {n : Nat} :
      Written arg text → 0 < n → JoinedArgs (arg' :: args) rest →
      JoinedArgs (arg :: arg' :: args) (text ++ List.replicate n ' ' ++ rest)

/-- A line of arguments, with spaces before and after. -/
def LineOf (args : List String) (line : String) : Prop :=
  ∃ m n joined, JoinedArgs args joined
    ∧ line.toList = List.replicate m ' ' ++ joined ++ List.replicate n ' '

namespace Tokenizer

/-- Between two arguments, `args` read. -/
def between (args : List String) : Tokenizer := { args }

/-- Spaces between two arguments are skipped. -/
theorem foldl_spaces (args : List String) (n : Nat) :
    (List.replicate n ' ').foldl next (between args) = between args := by
  induction n with
  | zero => rfl
  | succ n ih =>
      rw [List.replicate_succ, List.foldl_cons]
      exact ih

/-- Characters without a quote, and without a space unless it is quoted, are
appended to the argument. -/
theorem foldl_chars {chars : List Char} (hquote : '"' ∉ chars) :
    ∀ {t : Tokenizer}, (t.inQuotes = true ∨ ' ' ∉ chars) →
      chars.foldl next t = { t with currArg := t.currArg ++ chars } := by
  induction chars with
  | nil =>
      intro t _
      simp
  | cons c chars ih =>
      intro t hspace
      rw [List.mem_cons, not_or] at hquote
      have hnext : next t c = { t with currArg := t.currArg ++ [c] } := by
        have hc : ¬((c = ' ' && !t.inQuotes) = true) := by
          rcases hspace with hq | hs
          · simp [hq]
          · rw [List.mem_cons, not_or] at hs
            simp [Ne.symm hs.1]
        rw [next, if_neg (Ne.symm hquote.1), if_neg hc]
      have hrest : (next t c).inQuotes = true ∨ ' ' ∉ chars := by
        rcases hspace with hq | hs
        · exact Or.inl (by rw [hnext, hq])
        · exact Or.inr fun h => hs (List.mem_cons_of_mem _ h)
      rw [List.foldl_cons, ih hquote.2 hrest, hnext]
      simp

/-- An argument, however it is written, is read into `currArg`. -/
theorem foldl_written {arg : String} {text : List Char} (h : Written arg text)
    (hquote : '"' ∉ arg.toList) (args : List String) :
    text.foldl next (between args) = { between args with currArg := arg.toList } := by
  cases h with
  | bare hspace => exact foldl_chars hquote (.inr hspace)
  | quoted =>
      have hopen : next (between args) '"' = { between args with inQuotes := true } := rfl
      rw [List.cons_append, List.foldl_cons, List.foldl_append, hopen,
        foldl_chars hquote (.inl rfl)]
      rfl

theorem flush_between (args : List String) : (between args).flush = between args := rfl

theorem flush_arg {arg : String} (harg : arg ≠ "") (args : List String) :
    flush { between args with currArg := arg.toList } = between (args ++ [arg]) := by
  have hne : arg.toList.isEmpty = false := by simpa using harg
  simp [flush, between, hne]

/-- The first of the spaces behind an argument ends it. -/
theorem foldl_spaces_flush {n : Nat} (hn : 0 < n) {arg : String} (harg : arg ≠ "")
    (args : List String) :
    (List.replicate n ' ').foldl next { between args with currArg := arg.toList } =
      between (args ++ [arg]) := by
  have hfirst : next { between args with currArg := arg.toList } ' ' = between (args ++ [arg]) :=
    flush_arg harg args
  obtain ⟨n, rfl⟩ := Nat.exists_eq_add_of_lt hn
  rw [Nat.zero_add, List.replicate_succ, List.foldl_cons, hfirst]
  exact foldl_spaces _ n

/-- Arguments that are joined come back, with spaces behind them or not. -/
theorem foldl_joined {args : List String} {joined : List Char} (h : JoinedArgs args joined)
    (n : Nat) (hargs : ∀ arg ∈ args, arg ≠ "" ∧ '"' ∉ arg.toList) :
    ∀ before : List String,
      ((joined ++ List.replicate n ' ').foldl next (between before)).flush =
        between (before ++ args) := by
  induction h with
  | nil =>
      intro before
      rw [List.nil_append, foldl_spaces, flush_between, List.append_nil]
  | one hwritten =>
      intro before
      obtain ⟨harg, hquote⟩ := hargs _ (List.mem_singleton.mpr rfl)
      rw [List.foldl_append, foldl_written hwritten hquote]
      rcases Nat.eq_zero_or_pos n with rfl | hn
      · exact flush_arg harg before
      · rw [foldl_spaces_flush hn harg, flush_between]
  | cons hwritten hgap _ ih =>
      intro before
      obtain ⟨⟨harg, hquote⟩, hrest⟩ := List.forall_mem_cons.mp hargs
      rw [List.append_assoc, List.append_assoc, List.foldl_append, List.foldl_append,
        foldl_written hwritten hquote, foldl_spaces_flush hgap harg, ih hrest]
      simp

end Tokenizer

/-- The tokenizer undoes quoting. -/
theorem tokenize_lineOf {args : List String} {line : String} (h : LineOf args line)
    (hargs : ∀ arg ∈ args, arg ≠ "" ∧ '"' ∉ arg.toList) : tokenize line = args := by
  obtain ⟨m, n, joined, hjoined, hline⟩ := h
  rw [tokenize, hline, List.append_assoc, List.foldl_append]
  show (((joined ++ _).foldl Tokenizer.next
    ((List.replicate m ' ').foldl Tokenizer.next (Tokenizer.between []))).flush).args = args
  rw [Tokenizer.foldl_spaces, Tokenizer.foldl_joined hjoined n hargs]
  rfl

/-! ## Any line -/

/-- What follows this part of a line stands in quotes. -/
def InQuotes (before : List Char) : Prop := Odd (before.count '"')

instance (before : List Char) : Decidable (InQuotes before) :=
  inferInstanceAs (Decidable (Odd _))

/-- The character of a line at `i` is no quote, and no space outside quotes. -/
def IsKept (line : List Char) (c : Char) (i : Nat) : Prop :=
  c ≠ '"' ∧ (c = ' ' → InQuotes (line.take i))

instance (line : List Char) (c : Char) (i : Nat) : Decidable (IsKept line c i) :=
  inferInstanceAs (Decidable (_ ∧ _))

/-- A line without its quotes and the spaces outside them. -/
def kept (line : List Char) : List Char :=
  (line.zipIdx.filter fun (c, i) => IsKept line c i).map Prod.fst

theorem inQuotes_append (line : List Char) (c : Char) :
    InQuotes (line ++ [c]) ↔ (if c = '"' then ¬InQuotes line else InQuotes line) := by
  by_cases hc : c = '"'
  · subst hc
    simp [InQuotes, Nat.odd_add_one]
  · simp [InQuotes, hc]

theorem kept_append (line : List Char) (c : Char) :
    kept (line ++ [c]) = kept line ++ if IsKept line c line.length then [c] else [] := by
  have hbefore : (line.zipIdx.filter fun (d, i) => IsKept (line ++ [c]) d i) =
      line.zipIdx.filter fun (d, i) => IsKept line d i := by
    refine List.filter_congr ?_
    rintro ⟨d, i⟩ hd
    have hi : i < line.length := (List.mem_zipIdx' hd).1
    show decide _ = decide _
    rw [decide_eq_decide, IsKept, IsKept, List.take_append_of_le_length hi.le]
  have hlast : IsKept (line ++ [c]) c line.length ↔ IsKept line c line.length := by
    simp [IsKept]
  rw [kept, List.zipIdx_append, List.filter_append, hbefore, List.map_append]
  congr 1
  by_cases hc : IsKept line c line.length
  · simp [hc, hlast]
  · simp [hc, hlast]

namespace Tokenizer

/-- The variables of the tokenizer behind this part of a line. -/
structure Inv (line : List Char) (t : Tokenizer) : Prop where
  quotes : t.inQuotes = true ↔ InQuotes line
  kept : t.args.flatMap String.toList ++ t.currArg = kept line
  args : ∀ arg ∈ t.args, arg ≠ "" ∧ '"' ∉ arg.toList
  currArg : '"' ∉ t.currArg

theorem inv_init : Inv [] {} where
  quotes := by simp [InQuotes]
  kept := rfl
  args := fun arg harg => by cases harg
  currArg := by simp

theorem Inv.flush {line : List Char} {t : Tokenizer} (h : Inv line t) :
    Inv line t.flush ∧ t.flush.currArg = [] := by
  unfold Tokenizer.flush
  by_cases hempty : t.currArg.isEmpty = true
  · rw [if_pos hempty]
    exact ⟨h, List.isEmpty_iff.mp hempty⟩
  · rw [if_neg hempty]
    refine ⟨⟨h.quotes, ?_, ?_, by simp⟩, rfl⟩
    · simpa using h.kept
    · intro arg harg
      rcases List.mem_append.mp harg with harg | harg
      · exact h.args arg harg
      · obtain rfl := List.mem_singleton.mp harg
        refine ⟨?_, by simpa using h.currArg⟩
        simpa using hempty

/-- One character. -/
theorem Inv.next {line : List Char} {t : Tokenizer} (h : Inv line t) (c : Char) :
    Inv (line ++ [c]) (t.next c) := by
  unfold Tokenizer.next
  by_cases hquote : c = '"'
  · have hkept : ¬IsKept line c line.length := fun hk => hk.1 hquote
    rw [if_pos hquote]
    refine ⟨?_, ?_, h.args, h.currArg⟩
    · rw [inQuotes_append, if_pos hquote, ← h.quotes]
      simp
    · rw [kept_append, if_neg hkept, List.append_nil]
      exact h.kept
  · have hquotes : InQuotes (line ++ [c]) ↔ InQuotes line := by
      rw [inQuotes_append, if_neg hquote]
    rw [if_neg hquote]
    by_cases hspace : (c = ' ' && !t.inQuotes) = true
    · have hkept : ¬IsKept line c line.length := by
        intro hk
        rw [Bool.and_eq_true, decide_eq_true_eq, Bool.not_eq_true'] at hspace
        have := hk.2 hspace.1
        rw [List.take_length, ← h.quotes, hspace.2] at this
        cases this
      obtain ⟨hflush, -⟩ := h.flush
      rw [if_pos hspace]
      refine ⟨?_, ?_, hflush.args, hflush.currArg⟩
      · rw [hquotes]
        exact hflush.quotes
      · rw [kept_append, if_neg hkept, List.append_nil]
        exact hflush.kept
    · have hkept : IsKept line c line.length := by
        refine ⟨hquote, fun hc => ?_⟩
        rw [List.take_length, ← h.quotes]
        simpa [hc] using hspace
      rw [if_neg hspace]
      refine ⟨?_, ?_, h.args, ?_⟩
      · rw [hquotes]
        exact h.quotes
      · rw [kept_append, if_pos hkept, ← h.kept, List.append_assoc]
      · simpa [Ne.symm hquote] using h.currArg

/-- The whole line, by induction on what has been read. -/
theorem inv_foldl (line : List Char) : Inv line (line.foldl Tokenizer.next {}) := by
  induction line using List.reverseRecOn with
  | nil => exact inv_init
  | append_singleton line c ih =>
      rw [List.foldl_append]
      exact ih.next c

end Tokenizer

/-- **The tokenizer undoes quoting.** Arguments that are not empty and have no
quote come back from every line they are written on. Of any line, balanced or
not, no argument is empty or has a quote, and the arguments in a row are the
line without its quotes and the spaces outside them. -/
theorem tokenize_undoes_quoting :
    (∀ args line, (∀ arg ∈ args, arg ≠ "" ∧ '"' ∉ arg.toList) → LineOf args line →
      tokenize line = args)
    ∧ ∀ line, (∀ arg ∈ tokenize line, arg ≠ "" ∧ '"' ∉ arg.toList)
        ∧ (tokenize line).flatMap String.toList = kept line.toList := by
  refine ⟨fun args line hargs hline => tokenize_lineOf hline hargs, ?_⟩
  intro line
  obtain ⟨hinv, hcurr⟩ := (Tokenizer.inv_foldl line.toList).flush
  refine ⟨hinv.args, ?_⟩
  rw [← hinv.kept, hcurr, List.append_nil]
  rfl

/-- Three arguments, one of them with spaces. -/
theorem tokenize_undoes_quoting_sample :
    tokenize "  save \"a  b\"  x " = ["save", "a  b", "x"] := by
  refine tokenize_undoes_quoting.1 _ _ (by decide) ⟨2, 1, "save \"a  b\"  x".toList, ?_, rfl⟩
  have hlast : JoinedArgs ["a  b", "x"] "\"a  b\"  x".toList :=
    .cons (n := 2) .quoted (by decide) (.one (.bare (by decide)))
  exact .cons (n := 1) (.bare (by decide)) (by decide) hlast

end EventHistory
