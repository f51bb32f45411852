import Mathlib.Data.Nat.Find
import ShiftReduce.Proofs.RuleTokens

/-!
# The lexer as a scanner by longest match

A scanner has four patterns in a fixed order: separators, which give no token, an arrow, a bar, and
symbol characters.  Where it stands it takes the longest piece of text that one of them matches, and
goes by the first of them that matches as much.  It fails where none matches anything.

The lexer is written as one pass that collects a run of symbol characters.  It finds what the scanner
finds: an arrow is only taken where no longer run of symbol characters begins with it.  As every
character alone is matched by some pattern, the scanner never fails.

    Scans p text result ↔ result = some (lexFrom p none text)                      (scans_iff)
-/

namespace ShiftReduce.RuleText

variable {text word rest : List Char} {p : Place}

/-! ## Patterns -/

/-- The patterns of the scanner. -/
inductive Pattern where
  | separators
  | arrow
  | bar
  | symbol

namespace Pattern

/-- The place of a pattern in the order. -/
def rank : Pattern → Nat
  | separators => 0
  | arrow => 1
  | bar => 2
  | symbol => 3

/-- What a pattern matches. -/
def Matches : Pattern → List Char → Prop
  | separators, word => word ≠ [] ∧ ∀ c ∈ word, isSeparator c = true
  | arrow, word => word = ['-', '>']
  | bar, word => word = ['|']
  | symbol, word => word ≠ [] ∧ ∀ c ∈ word, isSymbolChar c = true

/-- The token for what a pattern has matched. -/
def token? : Pattern → List Char → Option Token
  | separators, _ => none
  | arrow, _ => some .arrow
  | bar, _ => some .bar
  | symbol, word => some (.symbol (String.ofList word))

theorem Matches.ne_nil {pattern : Pattern} (h : pattern.Matches word) : word ≠ [] := by
  cases pattern with
  | separators => exact h.1
  | arrow =>
    obtain rfl : word = ['-', '>'] := h
    exact List.cons_ne_nil _ _
  | bar =>
    obtain rfl : word = ['|'] := h
    exact List.cons_ne_nil _ _
  | symbol => exact h.1

/-- Every character is matched alone. -/
theorem exists_matches (c : Char) : ∃ pattern : Pattern, pattern.Matches [c] := by
  rcases char_cases c with hsep | rfl | hsymbol
  · exact ⟨separators, List.cons_ne_nil _ _, List.forall_mem_singleton.2 hsep⟩
  · exact ⟨bar, rfl⟩
  · exact ⟨symbol, List.cons_ne_nil _ _, List.forall_mem_singleton.2 hsymbol⟩

end Pattern

/-! ## Scanning -/

/-- At the start of the text no pattern matches more than `word`, and `pattern` is the first to match
so much. -/
structure Longest (text : List Char) (pattern : Pattern) (word rest : List Char) : Prop where
  text_eq : text = word ++ rest
  matched : pattern.Matches word
  length_le : ∀ (other : Pattern) (w r : List Char), text = w ++ r → other.Matches w →
    w.length ≤ word.length
  rank_le : ∀ other : Pattern, other.Matches word → pattern.rank ≤ other.rank

/-- What the scanner finds from a place on: all tokens of the text, or nothing where it fails. -/
inductive Scans : Place → List Char → Option (List Spanned) → Prop
  | done (p : Place) : Scans p [] (some [])
  | stuck {p : Place} {text : List Char} (hne : text ≠ [])
      (hnone : ∀ pattern word rest, ¬ Longest text pattern word rest) : Scans p text none
  | skip {p : Place} {text : List Char} {pattern : Pattern} {word rest : List Char}
      {result : Option (List Spanned)} (h : Longest text pattern word rest)
      (htoken : pattern.token? word = none) (hrest : Scans (p.afterAll word) rest result) :
      Scans p text result
  | token {p : Place} {text : List Char} {pattern : Pattern} {word rest : List Char} {t : Token}
      {result : Option (List Spanned)} (h : Longest text pattern word rest)
      (htoken : pattern.token? word = some t) (hrest : Scans (p.afterAll word) rest result) :
      Scans p text (result.map (⟨p, t, p.afterAll word⟩ :: ·))

/-! ## What the longest match is -/

/-- Some pattern matches the first `n` characters. -/
def MatchedUpTo (text : List Char) (n : Nat) : Prop :=
  ∃ (pattern : Pattern) (word rest : List Char),
    text = word ++ rest ∧ pattern.Matches word ∧ word.length = n

/-- Of the patterns that match there is a first one. -/
theorem exists_first_pattern {pattern : Pattern} (h : pattern.Matches word) :
    ∃ first : Pattern, first.Matches word ∧
      ∀ other : Pattern, other.Matches word → first.rank ≤ other.rank := by
  classical
  have hrank : ∃ n, ∃ other : Pattern, other.Matches word ∧ other.rank = n := ⟨_, pattern, h, rfl⟩
  obtain ⟨first, hfirst, heq⟩ := Nat.find_spec hrank
  refine ⟨first, hfirst, fun other hother => ?_⟩
  rw [heq]
  exact Nat.find_min' hrank ⟨other, hother, rfl⟩

/-- A longest match is there as soon as there is some match. -/
theorem exists_longest_of_matched {n : Nat} (h : MatchedUpTo text n) :
    ∃ pattern word rest, Longest text pattern word rest := by
  classical
  have hle : ∀ {k : Nat}, MatchedUpTo text k → k ≤ text.length := by
    rintro k ⟨-, word, rest, rfl, -, rfl⟩
    rw [List.length_append]
    omega
  obtain ⟨other, word, rest, htext, hother, hlength⟩ := Nat.findGreatest_spec (hle h) h
  obtain ⟨pattern, hmatched, hfirst⟩ := exists_first_pattern hother
  refine ⟨pattern, word, rest, htext, hmatched, fun other w r htext' hother => ?_, hfirst⟩
  have hmatch : MatchedUpTo text w.length := ⟨other, w, r, htext', hother, rfl⟩
  rw [hlength]
  exact Nat.le_findGreatest (hle hmatch) hmatch

theorem exists_longest (hne : text ≠ []) : ∃ pattern word rest, Longest text pattern word rest := by
  obtain ⟨c, rest, rfl⟩ := List.exists_cons_of_ne_nil hne
  obtain ⟨pattern, h⟩ := Pattern.exists_matches c
  exact exists_longest_of_matched ⟨pattern, [c], rest, rfl, h, rfl⟩

/-- Symbol characters are taken to the end of the run. -/
theorem Longest.isWord {pattern : Pattern} (h : Longest text pattern word rest)
    (hword : Pattern.symbol.Matches word) : IsWord word rest := by
  refine ⟨hword.1, hword.2, fun c hc => Bool.eq_false_iff.2 fun hsymbol => ?_⟩
  -- with `c` the match would be longer
  obtain ⟨tail, rfl⟩ : ∃ tail, rest = c :: tail := List.head?_eq_some_iff.1 hc
  have hmore : Pattern.symbol.Matches (word ++ [c]) := by
    refine ⟨List.append_ne_nil_of_left_ne_nil hword.1 _, fun d hd => ?_⟩
    rcases List.mem_append.1 hd with hd | hd
    · exact hword.2 d hd
    · rw [List.mem_singleton.1 hd, hsymbol]
  have hle := h.length_le .symbol (word ++ [c]) tail (by simp [h.text_eq]) hmore
  rw [List.length_append, List.length_singleton] at hle
  omega

theorem lexFrom_separators (h : ∀ c ∈ word, isSeparator c = true) :
    lexFrom p none (word ++ rest) = lexFrom (p.afterAll word) none rest := by
  induction word generalizing p with
  | nil => rfl
  | cons c word ih =>
    obtain ⟨hc, hword⟩ := List.forall_mem_cons.1 h
    rw [List.cons_append, lexFrom_separator hc, Place.afterAll_cons, ← ih hword]
    rfl

theorem arrow_matches_symbol : Pattern.symbol.Matches ['-', '>'] :=
  ⟨List.cons_ne_nil _ _, List.forall_mem_cons.2 ⟨rfl, List.forall_mem_singleton.2 rfl⟩⟩

/-- The lexer takes the longest match too, with the same token. -/
theorem Longest.lexFrom_eq {pattern : Pattern} (h : Longest text pattern word rest) :
    lexFrom p none text =
      ((pattern.token? word).map (⟨p, ·, p.afterAll word⟩)).toList ++
        lexFrom (p.afterAll word) none rest := by
  have hmatched := h.matched
  rw [h.text_eq]
  cases pattern with
  | separators => exact lexFrom_separators hmatched.2
  | arrow =>
    obtain rfl : word = ['-', '>'] := hmatched
    rw [(h.isWord arrow_matches_symbol).lexFrom_append]
    rfl
  | bar =>
    obtain rfl : word = ['|'] := hmatched
    exact lexFrom_bar
  | symbol =>
    -- the pattern for arrows comes first and would have matched as much
    have hne : word ≠ ['-', '>'] := fun heq => absurd (h.rank_le .arrow heq) (by decide)
    rw [(h.isWord hmatched).lexFrom_append, Token.ofRun, if_neg hne]
    rfl

/-! ## The scanner and the lexer -/

theorem Scans.eq_lexFrom {result : Option (List Spanned)} (h : Scans p text result) :
    result = some (lexFrom p none text) := by
  induction h with
  | done p => rfl
  | stuck hne hnone =>
    obtain ⟨pattern, word, rest, h⟩ := exists_longest hne
    exact absurd h (hnone pattern word rest)
  | skip h htoken _ ih => rw [ih, h.lexFrom_eq, htoken, Option.map_none, Option.toList_none,
      List.nil_append]
  | token h htoken _ ih => rw [ih, h.lexFrom_eq, htoken, Option.map_some, Option.map_some,
      Option.toList_some, List.singleton_append]

theorem scans_lexFrom (p : Place) (text : List Char) : Scans p text (some (lexFrom p none text)) := by
  induction hlength : text.length using Nat.strong_induction_on generalizing p text with
  | h n ih =>
    by_cases hne : text = []
    · subst hne
      exact .done p
    · obtain ⟨pattern, word, rest, h⟩ := exists_longest hne
      have hlt : rest.length < n := by
        have hpos := List.length_pos_iff.2 h.matched.ne_nil
        rw [← hlength, h.text_eq, List.length_append]
        omega
      have hrest := ih _ hlt (p.afterAll word) rest rfl
      rw [h.lexFrom_eq]
      cases htoken : pattern.token? word with
      | none => exact .skip h htoken hrest
      | some t => exact .token h htoken hrest

/-- The scanner never fails, and what it finds is what the lexer finds. -/
theorem scans_iff {result : Option (List Spanned)} :
    Scans p text result ↔ result = some (lexFrom p none text) := by
  constructor
  · exact Scans.eq_lexFrom
  · rintro rfl
    exact scans_lexFrom p text

end ShiftReduce.RuleText
