import ShiftReduce.Proofs.LineGrammar
import Mathlib.Data.List.DropRight

/-!
# Reading line by line

What a line gives depends on the line alone, and its number only counts the line feeds above it.
So a line feed between two texts makes the second one be read as if it stood alone, with its line
numbers moved down.  A carriage return before a line feed, or at the end of the text, is read as a
separator and makes no difference.

    readLine n (text ++ ['\r']) = readLine n text
    readLines n (Text.lines (text ++ '\n' :: rest)) = do
      let rules ← readLine n text
      let more ← readLines (n + 1) (Text.lines rest)
      return rules ++ more                                              '\n' ∉ text
-/

namespace ShiftReduce

/-! ## The characters around a line -/

namespace Text

variable {text : List Char}

/-- The text without the blanks at its ends. -/
def trim (text : List Char) : List Char := (text.dropWhile isBlank).rdropWhile isBlank

/-- What is first behind the blanks stays, as it is no blank. -/
theorem head?_trim : (trim text).head? = (text.dropWhile isBlank).head? := by
  have hfirst := List.head?_dropWhile_not isBlank text
  unfold trim
  cases hdrop : text.dropWhile isBlank with
  | nil => rfl
  | cons c rest =>
    rw [hdrop] at hfirst
    obtain ⟨tail, htail⟩ := List.rdropWhile_prefix isBlank (c :: rest)
    cases htrim : (c :: rest).rdropWhile isBlank with
    | nil =>
      have hblank := List.rdropWhile_eq_nil_iff.1 htrim c List.mem_cons_self
      exact absurd hblank (Bool.eq_false_iff.1 hfirst)
    | cons d kept =>
      rw [htrim] at htail
      exact congrArg some (List.cons.inj htail).1

/-- A line feed ends a line, as does a carriage return right before it. -/
theorem exists_lines_append_newline (rest : List Char) (h : '\n' ∉ text) :
    ∃ line, (text = line ∨ text = line ++ ['\r']) ∧
      lines (text ++ '\n' :: rest) = line :: lines rest := by
  by_cases hlast : text.getLast? = some '\r'
  · obtain ⟨line, rfl⟩ := List.getLast?_eq_some_iff.1 hlast
    have hline : '\n' ∉ line := fun hmem => h (List.mem_append_left _ hmem)
    refine ⟨line, .inr rfl, ?_⟩
    rw [List.append_assoc, List.singleton_append, lines_append_return hline]
  · exact ⟨text, .inl rfl, lines_append_newline h hlast⟩

end Text

namespace RuleText

variable {text rest : List Char} {c : Char} {n k : Nat}

/-- What is left of the line without the blanks at its ends is nothing, or a comment. -/
def IsIgnored (text : List Char) : Prop :=
  Text.trim text = [] ∨ (Text.trim text).head? = some '#'

theorem isSkipped_eq_true_iff : isSkipped text = true ↔ IsIgnored text := by
  rw [IsIgnored, ← List.head?_eq_none_iff, Text.head?_trim, isSkipped]
  cases text.dropWhile Text.isBlank with
  | nil => simp
  | cons c rest => simp

instance : DecidablePred IsIgnored := fun _ => decidable_of_iff _ isSkipped_eq_true_iff

section EndOfLine

variable (hc : isSeparator c = true)
include hc

theorem splitArrow?_append_separator : splitArrow? (text ++ [c]) =
    (splitArrow? text).map fun (before, after) => (before, after ++ [c]) := by
  cases hsplit : splitArrow? text with
  | none =>
    rw [Option.map_none, splitArrow?_eq_none_iff, List.infix_concat_iff]
    rintro (hsuffix | hinfix)
    · have hlast := hsuffix.getLast (List.cons_ne_nil _ _)
      rw [List.getLast_concat] at hlast
      subst hlast
      cases hc
    · exact splitArrow?_eq_none_iff.1 hsplit hinfix
  | some sides =>
    obtain ⟨htext, hbefore⟩ := splitArrow?_eq_some_iff.1 hsplit
    exact splitArrow?_eq_some_iff.2 ⟨by simp [htext], hbefore⟩

theorem readRuleLine_append_separator : readRuleLine n (text ++ [c]) = readRuleLine n text := by
  have hlex : ∀ text : List Char, lex (text ++ [c]) = lex text :=
    fun text => lexFrom_append_separator hc
  rw [readRuleLine, readRuleLine, splitArrow?_append_separator hc, hlex]
  cases splitArrow? text with
  | none => rfl
  | some sides => simp only [Option.map_some, hlex]

theorem isSkipped_append_separator : isSkipped (text ++ [c]) = isSkipped text := by
  rw [isSkipped, isSkipped, List.dropWhile_append]
  cases text.dropWhile Text.isBlank with
  | nil => simp [isBlank_of_isSeparator hc]
  | cons d rest => rfl

theorem readLine_append_separator : readLine n (text ++ [c]) = readLine n text := by
  rw [readLine, readLine, isSkipped_append_separator hc, readRuleLine_append_separator hc]

end EndOfLine

/-! ## Line numbers -/

/-- The error `k` lines further down. -/
def ReadError.below (k : Nat) : ReadError → ReadError
  | missingLeft line => missingLeft (line + k)
  | missingArrow line left => missingArrow (line + k) left
  | unexpectedArrow line column => unexpectedArrow (line + k) column
  | file cause => file cause

theorem leftOf_below {spanned : List Spanned} :
    leftOf (n + k) spanned = (leftOf n spanned).mapError (·.below k) := by
  unfold leftOf
  split <;> rfl

theorem readRuleLine_below :
    readRuleLine (n + k) text = (readRuleLine n text).mapError (·.below k) := by
  unfold readRuleLine
  split
  next => split <;> rfl
  next before after hsplit =>
    rw [leftOf_below]
    cases leftOf n (lex before) with
    | error e => rfl
    | ok left => dsimp only [Except.mapError]; split <;> rfl

theorem readLine_below : readLine (n + k) text = (readLine n text).mapError (·.below k) := by
  unfold readLine
  split
  · rfl
  · exact readRuleLine_below

theorem readLines_cons {texts : List (List Char)} : readLines n (text :: texts) = do
    let rules ← readLine n text
    let more ← readLines (n + 1) texts
    return rules ++ more := by
  rw [readLines]
  cases readLine n text with
  | error e => rfl
  | ok rules => cases readLines (n + 1) texts <;> rfl

theorem readLines_below {texts : List (List Char)} :
    readLines (n + k) texts = (readLines n texts).mapError (·.below k) := by
  induction texts generalizing n with
  | nil => rfl
  | cons text texts ih =>
    rw [readLines_cons, readLines_cons, readLine_below, Nat.add_right_comm, ih]
    cases readLine n text with
    | error e => rfl
    | ok rules => cases readLines (n + 1) texts <;> rfl

/-! ## One line after the other -/

theorem readLines_of_notMem (h : '\n' ∉ text) : readLines n (Text.lines text) = readLine n text := by
  by_cases hnil : text = []
  · subst hnil
    rfl
  · rw [Text.lines_of_notMem h hnil, readLines_cons]
    cases readLine n text with
    | error e => rfl
    | ok rules => exact congrArg Except.ok (List.append_nil rules)

theorem readLines_append_newline (h : '\n' ∉ text) :
    readLines n (Text.lines (text ++ '\n' :: rest)) = do
      let rules ← readLine n text
      let more ← readLines (n + 1) (Text.lines rest)
      return rules ++ more := by
  obtain ⟨line, rfl | rfl, hlines⟩ := Text.exists_lines_append_newline rest h
  · rw [hlines, readLines_cons]
  · rw [hlines, readLines_cons, readLine_append_separator rfl]

/-- Two texts with a line feed between them are read one after the other. -/
theorem readLines_append (a b : List Char) :
    readLines n (Text.lines (a ++ '\n' :: b)) = do
      let rules ← readLines n (Text.lines a)
      let more ← readLines (n + (a.count '\n' + 1)) (Text.lines b)
      return rules ++ more := by
  induction a using parts_induction '\n' generalizing n with
  | last part hpart =>
    rw [readLines_append_newline hpart, readLines_of_notMem hpart,
      List.count_eq_zero_of_not_mem hpart]
  | cons part rest hpart ih =>
    have hcount : (part ++ '\n' :: rest).count '\n' = rest.count '\n' + 1 := by
      rw [List.count_append, List.count_eq_zero_of_not_mem hpart, List.count_cons_self,
        Nat.zero_add]
    have hline : n + (rest.count '\n' + 1 + 1) = n + 1 + (rest.count '\n' + 1) := by omega
    rw [List.append_assoc, List.cons_append, readLines_append_newline hpart, ih,
      readLines_append_newline hpart, hcount, hline]
    simp only [bind_assoc, pure_bind, List.append_assoc]

/-! ## Texts -/

theorem readRules_of_notMem {line : String} (h : '\n' ∉ line.toList) :
    readRules line = readLine 1 line.toList := readLines_of_notMem h

theorem readRules_append (a b : String) : readRules (a ++ "\n" ++ b) = do
    let rules ← readRules a
    let more ← (readRules b).mapError (·.below (a.toList.count '\n' + 1))
    return rules ++ more := by
  have htext : (a ++ "\n" ++ b).toList = a.toList ++ '\n' :: b.toList := by simp
  simp only [readRules, htext, readLines_append, readLines_below]

/-- A line feed between two texts makes them be read one after the other, with the line numbers of
the second moved down; and a single line is skipped if it is blank or a comment, and otherwise is
read exactly if it has the form of a rule line, with one rule for every part between the bars, and
fails with its fault exactly if it has not. -/
theorem readRules_line_by_line :
    (∀ a b : String, readRules (a ++ "\n" ++ b) = do
      let rules ← readRules a
      let more ← (readRules b).mapError (·.below (a.toList.count '\n' + 1))
      return rules ++ more) ∧
    ∀ line : String, '\n' ∉ line.toList →
      (IsIgnored line.toList → readRules line = .ok []) ∧
      (¬ IsIgnored line.toList →
        (∀ rules, readRules line = .ok rules ↔
          ∃ before after left, Splits line.toList before after ∧ tokens before = [.symbol left] ∧
            Token.arrow ∉ tokens after ∧ rules = (after.splitOn '|').map (alternative left) ∧
            rules.length = after.count '|' + 1) ∧
        ∀ e, readRules line = .error e ↔ LineFault 1 line.toList e) := by
  refine ⟨readRules_append, fun line hline => ?_⟩
  rw [readRules_of_notMem hline, ← isSkipped_eq_true_iff]
  constructor
  · intro hskip
    rw [readLine, if_pos hskip]
  · intro hskip
    rw [readLine, if_neg hskip]
    refine ⟨fun rules => ?_, fun e => readRuleLine_eq_error_iff⟩
    rw [readRuleLine_eq_ok_iff_splits]
    constructor
    · rintro ⟨before, after, left, hsplits, hbefore, hafter, rfl⟩
      refine ⟨before, after, left, hsplits, hbefore, hafter, rfl, ?_⟩
      rw [List.length_map, length_splitOn]
    · rintro ⟨before, after, left, hsplits, hbefore, hafter, hrules, -⟩
      exact ⟨before, after, left, hsplits, hbefore, hafter, hrules⟩

/-- A line whose left name starts with a no-break space, which is blank but no separator, and whose
first arrow is followed by a name that starts with another. -/
def touching : String := "\u00a0A->->x||b\r"

theorem readRules_line_by_line_touching :
    IsIgnored "\u2003# A -> b".toList ∧ readRules "\u2003# A -> b" = .ok [] ∧
    '\n' ∉ touching.toList ∧ ¬ IsIgnored touching.toList ∧
    (∃ rules, readRules touching = .ok rules ∧
      rules.map Rule.text = ["\u00a0A -> ->x", "\u00a0A ->", "\u00a0A -> b"] ∧
      ∃ before after left, Splits touching.toList before after ∧ tokens before = [.symbol left] ∧
        Token.arrow ∉ tokens after ∧ rules = (after.splitOn '|').map (alternative left) ∧
        rules.length = after.count '|' + 1) ∧
    LineFault 1 "B c".toList (.missingArrow 1 "B") ∧
    readRules (touching ++ "\n" ++ "B c") = .error (.missingArrow 2 "B") := by
  have hcomment : IsIgnored "\u2003# A -> b".toList := by decide +kernel
  have hline : '\n' ∉ touching.toList := by decide +kernel
  have hkept : ¬ IsIgnored touching.toList := by decide +kernel
  have hread : ∃ rules, readRules touching = .ok rules ∧
      rules.map Rule.text = ["\u00a0A -> ->x", "\u00a0A ->", "\u00a0A -> b"] := by
    refine ⟨_, rfl, ?_⟩
    decide +kernel
  have hfault : readRules "B c" = .error (.missingArrow 1 "B") := by rfl
  obtain ⟨rules, hread, htexts⟩ := hread
  refine ⟨hcomment, ?_, hline, hkept, ⟨rules, hread, htexts, ?_⟩, ?_, ?_⟩
  · exact (readRules_line_by_line.2 _ (by decide +kernel)).1 hcomment
  · exact (((readRules_line_by_line.2 touching hline).2 hkept).1 rules).1 hread
  · have hline : '\n' ∉ "B c".toList := by decide
    have hkept : ¬ IsIgnored "B c".toList := by decide +kernel
    exact (((readRules_line_by_line.2 "B c" hline).2 hkept).2 _).1 hfault
  · rw [readRules_line_by_line.1, hread, hfault]
    rfl

end RuleText

end ShiftReduce
