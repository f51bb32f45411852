import ShiftReduce.Proofs.LoneArrows
import ShiftReduce.Proofs.RuleReading

/-!
# The grammar of one rule line

A line is read exactly if it has an arrow, the part before the first arrow is one symbol, and no
token behind it is an arrow; there is one rule then for every part between the bars, the empty ones
too.  Every other line has a fault, and the fault is the error.

    readRuleLine line text = .ok rules ↔ ∃ before after left, Splits text before after ∧
      tokens before = [.symbol left] ∧ .arrow ∉ tokens after ∧
      rules = (after.splitOn '|').map (alternative left)
    readRuleLine line text = .error e ↔ LineFault line text e
    alternatives (tokens text) = (text.splitOn '|').map names
-/

namespace ShiftReduce

/-- Induction on a list, a part before the next `a` at a time. -/
theorem parts_induction {α : Type} (a : α) {motive : List α → Prop}
    (last : ∀ part, a ∉ part → motive part)
    (cons : ∀ part rest, a ∉ part → motive rest → motive (part ++ a :: rest))
    (l : List α) : motive l := by
  induction hlength : l.length using Nat.strong_induction_on generalizing l with
  | h n ih =>
    by_cases ha : a ∈ l
    · obtain ⟨part, rest, rfl, hpart⟩ := List.eq_append_cons_of_mem ha
      have hlt : rest.length < n := by
        rw [← hlength, List.length_append, List.length_cons]
        omega
      exact cons part rest hpart (ih _ hlt rest rfl)
    · exact last l ha

theorem length_splitOn {α : Type} [BEq α] [LawfulBEq α] (a : α) (l : List α) :
    (l.splitOn a).length = l.count a + 1 := by
  induction l using parts_induction a with
  | last part hpart =>
    rw [List.splitOn_eq_singleton hpart, List.count_eq_zero_of_not_mem hpart, List.length_singleton]
  | cons part rest hpart ih =>
    rw [List.splitOn_append_cons_self_of_not_mem hpart, List.length_cons, ih, List.count_append,
      List.count_eq_zero_of_not_mem hpart, List.count_cons_self, Nat.zero_add]

namespace RuleText

variable {text before after part : List Char} {left : String} {line : Nat}
variable {rules : List Rule} {e : ReadError}

/-! ## The two sides -/

/-- The first arrow of the text stands between two parts of it. -/
structure Splits (text before after : List Char) : Prop where
  text_eq : text = before ++ '-' :: '>' :: after
  before_noArrow : ¬ ['-', '>'] <:+: before

theorem splitArrow?_eq_some_iff :
    splitArrow? text = some (before, after) ↔ Splits text before after := by
  constructor
  · intro h
    obtain ⟨htext, hbefore⟩ := of_splitArrow?_eq_some h
    exact ⟨htext, hbefore⟩
  · rintro ⟨rfl, hbefore⟩
    exact splitArrow?_append hbefore

theorem splitArrow?_eq_none_iff : splitArrow? text = none ↔ ¬ ['-', '>'] <:+: text := by
  fun_induction splitArrow? text with
  | case1 => simp
  | case2 rest => exact iff_of_false (Option.some_ne_none _) fun h => h ⟨[], rest, rfl⟩
  | case3 c rest hnot ih =>
    have hprefix : ¬ ['-', '>'] <+: c :: rest := by
      rintro ⟨tail, htail⟩
      obtain ⟨hc, hrest⟩ := List.cons.inj htail
      exact hnot tail hc.symm hrest.symm
    rw [Option.map_eq_none_iff, ih, List.infix_cons_iff, or_iff_right hprefix]

/-! ## The alternatives -/

/-- The name of a symbol. -/
def Token.name? : Token → Option String
  | .symbol name => some name
  | _ => none

/-- The names of the symbols of a text, in order. -/
def names (text : List Char) : List String := (tokens text).filterMap Token.name?

/-- The rule of one alternative. -/
def alternative (left : String) (part : List Char) : Rule :=
  ⟨classify left, (names part).map classify⟩

section Bars

variable {ts us : List Token}

theorem alternatives_of_bar_notMem (h : Token.bar ∉ ts) :
    alternatives ts = [ts.filterMap Token.name?] := by
  induction ts with
  | nil => rfl
  | cons t ts ih =>
    obtain ⟨hne, hts⟩ := not_or.1 (mt List.mem_cons.2 h)
    cases t with
    | arrow => exact ih hts
    | bar => exact absurd rfl hne
    | symbol name =>
      rw [alternatives, ih hts]
      rfl

theorem alternatives_append_bar (h : Token.bar ∉ ts) :
    alternatives (ts ++ .bar :: us) = ts.filterMap Token.name? :: alternatives us := by
  induction ts with
  | nil => rfl
  | cons t ts ih =>
    obtain ⟨hne, hts⟩ := not_or.1 (mt List.mem_cons.2 h)
    cases t with
    | arrow => exact ih hts
    | bar => exact absurd rfl hne
    | symbol name =>
      rw [List.cons_append, alternatives, ih hts]
      rfl

end Bars

/-- The alternatives are the parts between the bars. -/
theorem alternatives_tokens : alternatives (tokens text) = (text.splitOn '|').map names := by
  induction text using parts_induction '|' with
  | last part hpart =>
    rw [alternatives_of_bar_notMem (bar_notMem_tokens hpart), List.splitOn_eq_singleton hpart]
    rfl
  | cons part rest hpart ih =>
    rw [tokens_append_bar, alternatives_append_bar (bar_notMem_tokens hpart), ih,
      List.splitOn_append_cons_self_of_not_mem hpart]
    rfl

/-- A line is read if one symbol stands before its first arrow and no other arrow behind it, with
one rule for every part between the bars. -/
theorem readRuleLine_eq_ok_iff_splits :
    readRuleLine line text = .ok rules ↔
      ∃ before after left, Splits text before after ∧ tokens before = [.symbol left] ∧
        Token.arrow ∉ tokens after ∧ rules = (after.splitOn '|').map (alternative left) := by
  simp only [readRuleLine_eq_ok_iff, splitArrow?_eq_some_iff, alternatives_tokens, List.map_map]
  rfl

/-! ## The faults -/

/-- What is wrong with a line: where the left side is cut short by the end of the line or by another
token, where there is none, and where another arrow stands behind the first. -/
inductive LineFault (line : Nat) (text : List Char) : ReadError → Prop
  | noArrow {left : String} {ts : List Token} (hnone : ¬ ['-', '>'] <:+: text)
      (htokens : tokens text = .symbol left :: ts) : LineFault line text (.missingArrow line left)
  | noSymbol (hnone : ¬ ['-', '>'] <:+: text)
      (htokens : ∀ left ts, tokens text ≠ .symbol left :: ts) :
      LineFault line text (.missingLeft line)
  | lateArrow {before after : List Char} {left : String} {t : Token} {ts : List Token}
      (hsplits : Splits text before after) (htokens : tokens before = .symbol left :: t :: ts) :
      LineFault line text (.missingArrow line left)
  | noLeft {before after : List Char} (hsplits : Splits text before after)
      (htokens : ∀ left ts, tokens before ≠ .symbol left :: ts) :
      LineFault line text (.missingLeft line)
  | laterArrow {before after : List Char} {left : String} {p : Place}
      (hsplits : Splits text before after) (htokens : tokens before = [.symbol left])
      (harrow : firstArrow? (lex after) = some p) :
      LineFault line text (.unexpectedArrow line (before.length + 2 + p.column + 1))

theorem leftOf_eq_error_iff {spanned : List Spanned} : leftOf line spanned = .error e ↔
    (∃ left t ts, spanned.map Spanned.token = .symbol left :: t :: ts ∧
      e = .missingArrow line left) ∨
    (∀ left ts, spanned.map Spanned.token ≠ .symbol left :: ts) ∧ e = .missingLeft line := by
  unfold leftOf
  split
  next left heq => simp [heq]
  next left ts hne heq =>
    cases ts with
    | nil => exact absurd rfl hne
    | cons t ts => simp [heq, eq_comm]
  next hnone =>
    have hnone : ∀ left ts, spanned.map Spanned.token ≠ .symbol left :: ts := hnone
    simp [hnone, eq_comm]

/-- An error of a line is its fault. -/
theorem lineFault_of_readRuleLine (h : readRuleLine line text = .error e) :
    LineFault line text e := by
  unfold readRuleLine at h
  split at h
  next hnone =>
    have hnone := splitArrow?_eq_none_iff.1 hnone
    split at h
    next left ts htokens =>
      obtain rfl := Except.error.inj h
      exact .noArrow hnone htokens
    next htokens =>
      obtain rfl := Except.error.inj h
      exact .noSymbol hnone htokens
  next before after hsplit =>
    have hsplits := splitArrow?_eq_some_iff.1 hsplit
    split at h
    next fault hleft =>
      obtain rfl := Except.error.inj h
      rcases leftOf_eq_error_iff.1 hleft with ⟨left, t, ts, htokens, rfl⟩ | ⟨htokens, rfl⟩
      · exact .lateArrow hsplits htokens
      · exact .noLeft hsplits htokens
    next left hleft =>
      obtain ⟨name, htokens, rfl⟩ := leftOf_eq_ok_iff.1 hleft
      dsimp only at h
      split at h
      next t hfind =>
        obtain rfl := Except.error.inj h
        exact .laterArrow hsplits htokens (congrArg (Option.map Spanned.start) hfind)
      next => cases h

/-- A line with a fault gives that error. -/
theorem LineFault.readRuleLine_eq (h : LineFault line text e) :
    readRuleLine line text = .error e := by
  cases h with
  | noArrow hnone htokens =>
    have htokens : (lex text).map Spanned.token = _ := htokens
    simp only [readRuleLine, splitArrow?_eq_none_iff.2 hnone, htokens]
  | noSymbol hnone htokens =>
    rw [readRuleLine, splitArrow?_eq_none_iff.2 hnone]
    dsimp only
    split
    next left ts heq => exact absurd heq (htokens left ts)
    next => rfl
  | lateArrow hsplits htokens =>
    have hleft : leftOf line (lex _) = _ := leftOf_eq_error_iff.2 (.inl ⟨_, _, _, htokens, rfl⟩)
    simp only [readRuleLine, splitArrow?_eq_some_iff.2 hsplits, hleft]
  | noLeft hsplits htokens =>
    have hleft : leftOf line (lex _) = _ := leftOf_eq_error_iff.2 (.inr ⟨htokens, rfl⟩)
    simp only [readRuleLine, splitArrow?_eq_some_iff.2 hsplits, hleft]
  | laterArrow hsplits htokens harrow =>
    have hleft : leftOf line (lex _) = _ := leftOf_eq_ok_iff.2 ⟨_, htokens, rfl⟩
    obtain ⟨t, hfind, rfl⟩ := Option.map_eq_some_iff.1 harrow
    simp only [readRuleLine, splitArrow?_eq_some_iff.2 hsplits, hleft, hfind]

theorem readRuleLine_eq_error_iff : readRuleLine line text = .error e ↔ LineFault line text e :=
  ⟨lineFault_of_readRuleLine, LineFault.readRuleLine_eq⟩

end RuleText

end ShiftReduce
