import ShiftReduce.Proofs.RuleTokens
import ShiftReduce.RuleText.Reader

/-!
# Rules that can be read

A text is read into readable rules: their names are made of symbol characters, what a name stands
for is seen from its first character, and no name is taken for an arrow or opens a comment.  Every
list of readable rules is read back from its own text, one rule a line, so the readable rules are
all that reading can give, and reading again what was printed changes nothing.

    readRuleLine line text = .ok rules ↔
      ∃ before after left, splitArrow? text = some (before, after) ∧
        tokens before = [.symbol left] ∧ .arrow ∉ tokens after ∧
        rules = the alternatives of tokens after              (readRuleLine_eq_ok_iff)
-/

namespace ShiftReduce

/-! ## Readable rules -/

/-- A name of symbol characters, with a capital first exactly where it names a nonterminal. -/
@[mk_iff]
structure Symbol.Readable (s : Symbol) : Prop where
  ne_empty : s.name ≠ ""
  plain : ∀ c ∈ s.name.toList, c ∉ [' ', '\t', '\r', '\n', '|']
  nonterminal_iff : s.isNonterminal = true ↔ ∃ c ∈ s.name.toList.head?, c.isUpper = true

/-- The symbols are readable, the left name holds no arrow and opens no comment, and no name on
the right is an arrow. -/
@[mk_iff]
structure Rule.Readable (r : Rule) : Prop where
  symbols : ∀ s ∈ r.symbols, s.Readable
  left_noArrow : ¬ ['-', '>'] <:+: r.left.name.toList
  left_noComment : (r.left.name.toList.dropWhile Text.isBlank).head? ≠ some '#'
  right_ne_arrow : ∀ s ∈ r.right, s.name ≠ "->"

-- The characters to look at are those of the name, not all that there are.
instance : DecidablePred Symbol.Readable := fun s =>
  haveI : Decidable (∀ c ∈ s.name.toList, c ∉ [' ', '\t', '\r', '\n', '|']) :=
    List.decidableBAll _ _
  haveI : Decidable (∃ c ∈ s.name.toList.head?, c.isUpper = true) :=
    decidable_of_iff (s.name.toList.head?.any Char.isUpper = true) (Option.any_eq_true ..)
  decidable_of_iff _ (Symbol.readable_iff s).symm

instance : DecidablePred Rule.Readable := fun r =>
  decidable_of_iff _ (Rule.readable_iff r).symm

example : Rule.Readable ⟨.nonterminal "A-", [.terminal "->x", .nonterminal "B#"]⟩ := by
  decide +kernel

example : ¬ Rule.Readable ⟨.nonterminal "A->B", []⟩ := by decide +kernel

/-! ## Lines -/

namespace Text

variable {l rest : List Char}

/-- A carriage return right before the line feed is part of the end of the line. -/
theorem lines_append_return (h : '\n' ∉ l) :
    lines (l ++ '\r' :: '\n' :: rest) = l :: lines rest := by
  induction l with
  | nil => simp [lines]
  | cons c l ih =>
    obtain ⟨hc, hl⟩ := List.ne_and_not_mem_of_not_mem_cons h
    have hnot : ∀ tail, c = '\r' → l ++ '\r' :: '\n' :: rest = '\n' :: tail → False := by
      rintro tail - heq
      cases l with
      | nil => cases heq
      | cons d l => exact hl (List.mem_cons.2 (.inl (List.cons.inj heq).1.symm))
    rw [List.cons_append, lines.eq_4 c _ hc.symm hnot, ih hl]

theorem lines_append_newline (h : '\n' ∉ l) (hlast : l.getLast? ≠ some '\r') :
    lines (l ++ '\n' :: rest) = l :: lines rest := by
  induction l with
  | nil => simp [lines]
  | cons c l ih =>
    obtain ⟨hc, hl⟩ := List.ne_and_not_mem_of_not_mem_cons h
    have hlast' : l.getLast? ≠ some '\r' := fun hcr => hlast (by simp [List.getLast?_cons, hcr])
    have hnot : ∀ tail, c = '\r' → l ++ '\n' :: rest = '\n' :: tail → False := by
      rintro tail rfl heq
      cases l with
      | nil => exact hlast rfl
      | cons d l => exact hl (List.mem_cons.2 (.inl (List.cons.inj heq).1.symm))
    rw [List.cons_append, lines.eq_4 c _ hc.symm hnot, ih hl hlast']

theorem lines_of_notMem (h : '\n' ∉ l) (hne : l ≠ []) : lines l = [l] := by
  induction l with
  | nil => exact absurd rfl hne
  | cons c l ih =>
    obtain ⟨hc, hl⟩ := List.ne_and_not_mem_of_not_mem_cons h
    have hnot : ∀ tail, c = '\r' → l = '\n' :: tail → False :=
      fun tail _ heq => hl (heq ▸ List.mem_cons_self)
    rw [lines.eq_4 c _ hc.symm hnot]
    cases l with
    | nil => rfl
    | cons d l => rw [ih hl (List.cons_ne_nil d l)]

/-- Lines that are set one below another are found again, whether or not the last one is ended. -/
theorem lines_intercalate {ls : List (List Char)} {ending : List Char} (hls : ls ≠ [])
    (hending : ending ∈ [[], ['\n']])
    (h : ∀ l ∈ ls, l ≠ [] ∧ ∀ c ∈ l, c ≠ '\n' ∧ c ≠ '\r') :
    lines (['\n'].intercalate ls ++ ending) = ls := by
  induction ls with
  | nil => exact absurd rfl hls
  | cons l ls ih =>
    obtain ⟨⟨hne, hl⟩, h⟩ := List.forall_mem_cons.1 h
    have hlf : '\n' ∉ l := fun hlf => (hl _ hlf).1 rfl
    have hcr : l.getLast? ≠ some '\r' := fun hcr => (hl _ (List.mem_of_getLast? hcr)).2 rfl
    cases ls with
    | nil =>
      rw [List.intercalate_singleton]
      rcases List.mem_pair.1 hending with rfl | rfl
      · rw [List.append_nil, lines_of_notMem hlf hne]
      · rw [lines_append_newline hlf hcr]
        rfl
    | cons l' ls =>
      rw [List.intercalate_cons_cons, List.append_assoc, List.append_assoc, List.singleton_append,
        lines_append_newline hlf hcr, ih (List.cons_ne_nil l' ls) h]

end Text

namespace RuleText

variable {text before after rest : List Char} {name : String} {line : Nat}
variable {rules : List Rule} {r : Rule} {s : Symbol}

/-! ## Names -/

theorem isSymbolChar_iff {c : Char} :
    isSymbolChar c = true ↔ c ∉ [' ', '\t', '\r', '\n', '|'] := by
  simp [isSymbolChar, isSeparator, and_assoc]

@[simp] theorem name_classify : (classify name).name = name := by
  unfold classify
  split
  · split <;> rfl
  · rfl

theorem isUpper_iff {c : Char} : c.isUpper = true ↔ 'A' ≤ c ∧ c ≤ 'Z' :=
  decide_eq_true_iff

theorem isNonterminal_classify :
    (classify name).isNonterminal = true ↔ ∃ c ∈ name.toList.head?, c.isUpper = true := by
  unfold classify
  cases hname : name.toList with
  | nil => simp [Symbol.isNonterminal]
  | cons c cs =>
    simp only [List.head?_cons, Option.mem_some_iff, exists_eq_left', isUpper_iff]
    split
    next hc => exact iff_of_true rfl hc
    next hc => exact iff_of_false Bool.false_ne_true hc

/-- What a name stands for is seen from the name. -/
theorem classify_name (h : s.Readable) : classify s.name = s := by
  have hkind : (classify s.name).isNonterminal = s.isNonterminal :=
    Bool.eq_iff_iff.2 (isNonterminal_classify.trans h.nonterminal_iff.symm)
  have hname : (classify s.name).name = s.name := name_classify
  generalize classify s.name = t at hkind hname
  cases s <;> cases t <;> simp_all [Symbol.isNonterminal, Symbol.name]

theorem isName_of_readable (h : s.Readable) : IsName s.name :=
  ⟨h.ne_empty, fun c hc => isSymbolChar_iff.2 (h.plain c hc)⟩

theorem readable_classify (h : IsName name) : (classify name).Readable where
  ne_empty := by
    rw [name_classify]
    exact h.ne_empty
  plain c hc := by
    rw [name_classify] at hc
    exact isSymbolChar_iff.1 (h.plain c hc)
  nonterminal_iff := by
    rw [name_classify]
    exact isNonterminal_classify

/-! ## The first arrow -/

theorem splitArrow?_append (h : ¬ ['-', '>'] <:+: before) :
    splitArrow? (before ++ '-' :: '>' :: after) = some (before, after) := by
  induction before with
  | nil => rfl
  | cons c before ih =>
    have hbefore : ¬ ['-', '>'] <:+: before := fun hinfix => h (List.infix_cons hinfix)
    have hhead : ∀ tail, c = '-' → before ++ '-' :: '>' :: after = '>' :: tail → False := by
      rintro tail rfl heq
      cases before with
      | nil => cases heq
      | cons d before =>
        obtain rfl : d = '>' := (List.cons.inj heq).1
        exact h ((List.prefix_append ['-', '>'] before).isInfix)
    rw [List.cons_append, splitArrow?.eq_3 c _ hhead, ih hbefore]
    rfl

theorem of_splitArrow?_eq_some (h : splitArrow? text = some (before, after)) :
    text = before ++ '-' :: '>' :: after ∧ ¬ ['-', '>'] <:+: before := by
  induction text generalizing before with
  | nil => cases h
  | cons c rest ih =>
    by_cases hhead : ∃ tail, c = '-' ∧ rest = '>' :: tail
    · obtain ⟨tail, rfl, rfl⟩ := hhead
      obtain ⟨rfl, rfl⟩ := Prod.mk.inj (Option.some.inj h)
      exact ⟨rfl, by simp⟩
    · have hnot : ∀ tail, c = '-' → rest = '>' :: tail → False :=
        fun tail hc hrest => hhead ⟨tail, hc, hrest⟩
      rw [splitArrow?.eq_3 c rest hnot] at h
      obtain ⟨⟨before, after⟩, hrest, heq⟩ := Option.map_eq_some_iff.1 h
      obtain ⟨rfl, rfl⟩ := Prod.mk.inj heq
      obtain ⟨rfl, hinfix⟩ := ih hrest
      refine ⟨rfl, fun hcons => ?_⟩
      rcases List.infix_cons_iff.1 hcons with hprefix | hcons
      · -- an arrow that starts at `c` would have been found there
        obtain ⟨tail, htail⟩ := hprefix
        obtain ⟨rfl, rfl⟩ := List.cons.inj htail
        exact hnot (tail ++ '-' :: '>' :: after) rfl rfl
      · exact hinfix hcons

/-! ## One line -/

theorem leftOf_eq_ok_iff {spanned : List Spanned} {left : Symbol} :
    leftOf line spanned = .ok left ↔
      ∃ name, spanned.map Spanned.token = [.symbol name] ∧ left = classify name := by
  unfold leftOf
  split
  next name heq => simp [heq, eq_comm]
  next name ts hne heq =>
    refine iff_of_false (by simp) ?_
    rintro ⟨other, hother, -⟩
    rw [heq] at hother
    exact hne (List.cons.inj hother).2
  next hone hmany =>
    refine iff_of_false (by simp) ?_
    rintro ⟨other, hother, -⟩
    exact hone other hother

theorem find?_arrow_eq_none_iff :
    (lex text).find? (·.token = .arrow) = none ↔ Token.arrow ∉ tokens text := by
  simp [tokens, List.find?_eq_none]

/-- A line is read if one symbol stands before its first arrow and no other arrow behind it. -/
theorem readRuleLine_eq_ok_iff :
    readRuleLine line text = .ok rules ↔
      ∃ before after left, splitArrow? text = some (before, after) ∧
        tokens before = [.symbol left] ∧ Token.arrow ∉ tokens after ∧
        rules = (alternatives (tokens after)).map
          fun names => ⟨classify left, names.map classify⟩ := by
  constructor
  · intro h
    unfold readRuleLine at h
    split at h
    next => split at h <;> cases h
    next before after hsplit =>
      split at h
      next => cases h
      next left hleft =>
        obtain ⟨name, hname, rfl⟩ := leftOf_eq_ok_iff.1 hleft
        dsimp only at h
        split at h
        next => cases h
        next hnone =>
          have harrow := find?_arrow_eq_none_iff.1 hnone
          exact ⟨before, after, name, hsplit, hname, harrow, (Except.ok.inj h).symm⟩
  · rintro ⟨before, after, left, hsplit, hleft, harrow, rfl⟩
    have hleft : leftOf line (lex before) = .ok (classify left) :=
      leftOf_eq_ok_iff.2 ⟨left, hleft, rfl⟩
    have harrow := find?_arrow_eq_none_iff.2 harrow
    simp only [readRuleLine, hsplit, hleft, harrow]
    rfl

/-! ## What is read is readable -/

theorem symbol_mem_of_mem_alternatives {ts : List Token} {names : List String}
    (hnames : names ∈ alternatives ts) (h : name ∈ names) : Token.symbol name ∈ ts := by
  induction ts generalizing names with
  | nil =>
    obtain rfl := List.mem_singleton.1 hnames
    cases h
  | cons t ts ih =>
    cases t with
    | arrow => exact List.mem_cons_of_mem _ (ih hnames h)
    | bar =>
      rcases List.mem_cons.1 hnames with rfl | hnames
      · cases h
      · exact List.mem_cons_of_mem _ (ih hnames h)
    | symbol other =>
      unfold alternatives at hnames
      cases halternatives : alternatives ts with
      | nil =>
        rw [halternatives] at hnames
        obtain rfl := List.mem_singleton.1 hnames
        obtain rfl := List.mem_singleton.1 h
        exact List.mem_cons_self
      | cons a as =>
        rw [halternatives] at hnames ih
        rcases List.mem_cons.1 hnames with rfl | hnames
        · rcases List.mem_cons.1 h with rfl | h
          · exact List.mem_cons_self
          · exact List.mem_cons_of_mem _ (ih List.mem_cons_self h)
        · exact List.mem_cons_of_mem _ (ih (List.mem_cons_of_mem _ hnames) h)

theorem isBlank_of_isSeparator {c : Char} (h : isSeparator c = true) : Text.isBlank c = true := by
  simp only [isSeparator, Bool.or_eq_true, decide_eq_true_eq] at h
  rcases h with ((rfl | rfl) | rfl) | rfl <;> decide

/-- A text that starts with the name of a comment, after separators, is a comment. -/
theorem isSkipped_of_comment {front : List Char} (hfront : ∀ c ∈ front, isSeparator c = true)
    (h : (text.dropWhile Text.isBlank).head? = some '#') :
    isSkipped (front ++ text ++ rest) = true := by
  have hblank : ∀ c ∈ front, Text.isBlank c = true :=
    fun c hc => isBlank_of_isSeparator (hfront c hc)
  obtain ⟨tail, htail⟩ := List.head?_eq_some_iff.1 h
  rw [isSkipped, List.append_assoc, List.dropWhile_append_of_pos hblank, List.dropWhile_append,
    htail]
  rfl

theorem readable_of_readRuleLine (h : readRuleLine line text = .ok rules)
    (hskip : isSkipped text = false) : ∀ r ∈ rules, r.Readable := by
  obtain ⟨before, after, left, hsplit, hleft, -, rfl⟩ := readRuleLine_eq_ok_iff.1 h
  obtain ⟨rfl, hnoArrow⟩ := of_splitArrow?_eq_some hsplit
  have hmem : Token.symbol left ∈ tokens before := by
    rw [hleft]
    exact List.mem_singleton_self _
  obtain ⟨hname, -, hinfix⟩ := of_symbol_mem_tokens hmem
  intro r hr
  obtain ⟨names, hnames, rfl⟩ := List.mem_map.1 hr
  have hright : ∀ s ∈ names.map classify, s.Readable ∧ s.name ≠ "->" := by
    intro s hs
    obtain ⟨name, hname, rfl⟩ := List.mem_map.1 hs
    obtain ⟨hname, hne, -⟩ := of_symbol_mem_tokens (symbol_mem_of_mem_alternatives hnames hname)
    exact ⟨readable_classify hname, by rwa [name_classify]⟩
  constructor
  case symbols =>
    exact List.forall_mem_cons.2 ⟨readable_classify hname, fun s hs => (hright s hs).1⟩
  case left_noArrow =>
    rw [name_classify]
    exact fun harrow => hnoArrow (harrow.trans hinfix)
  case left_noComment =>
    rw [name_classify]
    intro hcomment
    obtain ⟨front, back, rfl, hfront⟩ := exists_separators_of_tokens_eq_cons hleft
    rw [List.append_assoc, isSkipped_of_comment hfront hcomment] at hskip
    cases hskip
  case right_ne_arrow => exact fun s hs => (hright s hs).2

theorem readable_of_readLine (h : readLine line text = .ok rules) : ∀ r ∈ rules, r.Readable := by
  unfold readLine at h
  split at h
  next =>
    obtain rfl := Except.ok.inj h
    exact fun r hr => absurd hr List.not_mem_nil
  next hskip => exact readable_of_readRuleLine h (Bool.eq_false_iff.2 hskip)

theorem readable_of_readLines {texts : List (List Char)} (h : readLines line texts = .ok rules) :
    ∀ r ∈ rules, r.Readable := by
  induction texts generalizing line rules with
  | nil =>
    obtain rfl := Except.ok.inj h
    exact fun r hr => absurd hr List.not_mem_nil
  | cons text texts ih =>
    unfold readLines at h
    split at h
    next => cases h
    next first hfirst =>
      cases hlater : readLines (line + 1) texts with
      | error e =>
        rw [hlater] at h
        cases h
      | ok later =>
        rw [hlater] at h
        obtain rfl := Except.ok.inj h
        exact List.forall_mem_append.2 ⟨readable_of_readLine hfirst, ih hlater⟩

/-! ## What is readable is read back -/

theorem toList_text : r.text.toList =
    r.left.name.toList ++ [' '] ++ '-' :: '>' :: r.right.flatMap fun s => ' ' :: s.name.toList := by
  simp [Rule.text, String.toList_join, List.flatMap_map]

/-- A name ends where a space follows it. -/
theorem tokens_name (h : s.Readable) (hne : s.name ≠ "->") (hrest : ∀ c ∈ rest.head?, c = ' ') :
    tokens (s.name.toList ++ rest) = .symbol s.name :: tokens rest := by
  have hends : ∀ c ∈ rest.head?, isSymbolChar c = false := by
    intro c hc
    rw [hrest c hc]
    rfl
  rw [((isName_of_readable h).isWord hends).tokens_append, ofRun_toList hne]

theorem tokens_right {right : List Symbol} (h : ∀ s ∈ right, s.Readable)
    (hne : ∀ s ∈ right, s.name ≠ "->") :
    tokens (right.flatMap fun s => ' ' :: s.name.toList) =
      (right.map Symbol.name).map Token.symbol := by
  induction right with
  | nil => rfl
  | cons s right ih =>
    obtain ⟨hs, h⟩ := List.forall_mem_cons.1 h
    obtain ⟨hsne, hne⟩ := List.forall_mem_cons.1 hne
    have hspace : ∀ c ∈ (right.flatMap fun s => ' ' :: s.name.toList).head?, c = ' ' := by
      cases right with
      | nil => simp
      | cons t right => exact fun c hc => (Option.some.inj hc).symm
    rw [List.flatMap_cons, List.cons_append, tokens_separator rfl, tokens_name hs hsne hspace,
      ih h hne]
    rfl

theorem map_classify_name {right : List Symbol} (h : ∀ s ∈ right, s.Readable) :
    (right.map Symbol.name).map classify = right := by
  rw [List.map_map]
  exact (List.map_congr_left fun s hs => classify_name (h s hs)).trans (List.map_id _)

theorem alternatives_map_symbol {names : List String} :
    alternatives (names.map Token.symbol) = [names] := by
  induction names with
  | nil => rfl
  | cons name names ih => simp only [List.map_cons, alternatives, ih]

section Readable

variable (h : r.Readable)
include h

theorem splitArrow?_text : splitArrow? r.text.toList =
    some (r.left.name.toList ++ [' '], r.right.flatMap fun s => ' ' :: s.name.toList) := by
  rw [toList_text]
  apply splitArrow?_append
  intro harrow
  rcases List.infix_concat_iff.1 harrow with hsuffix | hinfix
  · have hlast := hsuffix.getLast (List.cons_ne_nil _ _)
    simp at hlast
  · exact h.left_noArrow hinfix

theorem left_ne_arrow : r.left.name ≠ "->" := by
  intro heq
  apply h.left_noArrow
  rw [heq]
  exact List.infix_rfl

/-- The text of a rule is read back as that rule. -/
theorem readRuleLine_text : readRuleLine line r.text.toList = .ok [r] := by
  obtain ⟨hleft, hright⟩ := List.forall_mem_cons.1 h.symbols
  have hbefore : tokens (r.left.name.toList ++ [' ']) = [.symbol r.left.name] :=
    tokens_name hleft (left_ne_arrow h) fun c hc => (Option.some.inj hc).symm
  have hafter := tokens_right hright h.right_ne_arrow
  refine readRuleLine_eq_ok_iff.2 ⟨_, _, r.left.name, splitArrow?_text h, hbefore, ?_, ?_⟩
  · rw [hafter]
    simp
  · rw [hafter, alternatives_map_symbol, List.map_singleton, classify_name hleft,
      map_classify_name hright]

/-- The text of a rule is neither blank nor a comment. -/
theorem isSkipped_text : isSkipped r.text.toList = false := by
  have hcomment := h.left_noComment
  rw [isSkipped, toList_text, List.append_assoc, List.dropWhile_append]
  cases hname : r.left.name.toList.dropWhile Text.isBlank with
  | nil => rfl
  | cons c rest =>
    rw [hname] at hcomment
    have hc : c ≠ '#' := fun hc => hcomment (congrArg some hc)
    simpa using hc

theorem readLine_text : readLine line r.text.toList = .ok [r] := by
  rw [readLine, isSkipped_text h]
  exact readRuleLine_text h

/-- The text of a rule is one line. -/
theorem text_isLine : r.text.toList ≠ [] ∧ ∀ c ∈ r.text.toList, c ≠ '\n' ∧ c ≠ '\r' := by
  rw [toList_text]
  refine ⟨by simp, fun c hc => ?_⟩
  have hplain : ∀ s ∈ r.symbols, c ∈ s.name.toList → c ≠ '\n' ∧ c ≠ '\r' := by
    intro s hs hc
    have hc := (h.symbols s hs).plain c hc
    constructor <;> (rintro rfl; exact hc (by decide))
  simp only [List.mem_append, List.mem_cons, List.mem_flatMap, List.not_mem_nil, or_false] at hc
  rcases hc with (hc | rfl) | rfl | rfl | ⟨s, hs, rfl | hc⟩
  · exact hplain r.left List.mem_cons_self hc
  · decide
  · decide
  · decide
  · decide
  · exact hplain s (List.mem_cons_of_mem _ hs) hc

end Readable

theorem readLines_text (h : ∀ r ∈ rules, r.Readable) :
    readLines line (rules.map fun r => r.text.toList) = .ok rules := by
  induction rules generalizing line with
  | nil => rfl
  | cons r rules ih =>
    obtain ⟨hr, h⟩ := List.forall_mem_cons.1 h
    simp only [List.map_cons, readLines, readLine_text hr, ih h]
    rfl

/-- The texts of rules, one rule a line. -/
def printed (rules : List Rule) : String := String.intercalate "\n" (rules.map Rule.text)

theorem readRules_printed {ending : String} (hending : ending ∈ ["", "\n"])
    (h : ∀ r ∈ rules, r.Readable) : readRules (printed rules ++ ending) = .ok rules := by
  unfold readRules
  cases rules with
  | nil => rcases List.mem_pair.1 hending with rfl | rfl <;> decide +kernel
  | cons r rules =>
    have hlines : Text.lines (printed (r :: rules) ++ ending).toList =
        (r :: rules).map fun r => r.text.toList := by
      have hending : ending.toList ∈ [[], ['\n']] := by
        rcases List.mem_pair.1 hending with rfl | rfl <;> decide
      rw [String.toList_append, printed, String.toList_intercalate, List.map_map]
      refine Text.lines_intercalate (List.cons_ne_nil _ _) hending fun l hl => ?_
      obtain ⟨r, hr, rfl⟩ := List.mem_map.1 hl
      exact text_isLine (h r hr)
    rw [hlines]
    exact readLines_text h

/-! ## Reading and printing -/

/-- Reading gives readable rules, and every list of readable rules is read back from its texts, one
a line, with or without an end of the last line; so printing what was read and reading it again
changes nothing. -/
theorem readRules_readable_and_printed :
    (∀ source rules, readRules source = .ok rules → ∀ r ∈ rules, r.Readable) ∧
    (∀ rules : List Rule, (∀ r ∈ rules, r.Readable) → ∀ ending ∈ ["", "\n"],
      readRules (printed rules ++ ending) = .ok rules) ∧
    (∀ source rules, readRules source = .ok rules → ∀ ending ∈ ["", "\n"],
      readRules (printed rules ++ ending) = .ok rules) := by
  have hreadable : ∀ source rules, readRules source = .ok rules → ∀ r ∈ rules, r.Readable :=
    fun source rules h => readable_of_readLines h
  refine ⟨hreadable, fun rules h ending hending => readRules_printed hending h, ?_⟩
  intro source rules h ending hending
  exact readRules_printed hending (hreadable source rules h)

/-- Names that hold arrows, dashes and a no-break space, after a comment and an indented left side. -/
def oddNames : String := "# odd\r\n\tA-\u00a0->->x a->b|-\u00a0|\r\n\n\u00a0 #\n a#->B"

theorem readRules_readable_and_printed_oddNames :
    ∃ rules, readRules oddNames = .ok rules ∧ rules.map Rule.text =
        ["A-\u00a0 -> ->x a->b", "A-\u00a0 -> -\u00a0", "A-\u00a0 ->", "a# -> B"] ∧
      (∀ r ∈ rules, r.Readable) ∧ readRules (printed rules ++ "\n") = .ok rules := by
  have hread : ∃ rules, readRules oddNames = .ok rules ∧ rules.map Rule.text =
      ["A-\u00a0 -> ->x a->b", "A-\u00a0 -> -\u00a0", "A-\u00a0 ->", "a# -> B"] := by
    refine ⟨_, rfl, ?_⟩
    decide +kernel
  obtain ⟨rules, hread, htexts⟩ := hread
  have hending : "\n" ∈ ["", "\n"] := by simp
  exact ⟨rules, hread, htexts, readRules_readable_and_printed.1 oddNames rules hread,
    readRules_readable_and_printed.2.2 oddNames rules hread "\n" hending⟩

end RuleText

end ShiftReduce
