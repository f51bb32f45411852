import ShiftReduce.RuleText.Token
import Mathlib.Data.List.Infix
import Mathlib.Tactic.Common

/-!
# The tokens of a text without their places

Where a text starts does not change its tokens, only their places.  A separator gives no token, a
bar is a token, and so is a word: a run of other characters that the text does not continue.  A text
can be cut where no two symbol characters meet, and each part be read alone.

    tokens (c :: rest) = tokens rest                                c a separator
    tokens ('|' :: rest) = .bar :: tokens rest
    tokens (word ++ rest) = Token.ofRun word :: tokens rest         IsWord word rest
    tokens (text ++ rest) = tokens text ++ tokens rest              CanCut text rest
    lexFrom p none (word ++ rest) = ⟨p, .ofRun word, p.afterAll word⟩ :: …
                                                                    IsWord word rest
-/

namespace ShiftReduce.RuleText

variable {text word rest : List Char} {c : Char} {name : String} {ts : List Token}

/-- The tokens of a text, in order. -/
def tokens (text : List Char) : List Token := (lex text).map Spanned.token

/-- The characters of symbols: all but the separators and the bar. -/
def isSymbolChar (c : Char) : Bool := !(isSeparator c || c = '|')

theorem isSymbolChar_eq_true_iff : isSymbolChar c = true ↔ isSeparator c = false ∧ c ≠ '|' := by
  simp [isSymbolChar]

theorem isSymbolChar_of_isSeparator (h : isSeparator c = true) : isSymbolChar c = false := by
  rw [isSymbolChar, h]
  rfl

/-- A character is a separator, a bar or a symbol character. -/
theorem char_cases (c : Char) : isSeparator c = true ∨ c = '|' ∨ isSymbolChar c = true := by
  by_cases hsep : isSeparator c = true
  · exact .inl hsep
  by_cases hbar : c = '|'
  · exact .inr (.inl hbar)
  exact .inr (.inr (isSymbolChar_eq_true_iff.2 ⟨Bool.eq_false_iff.2 hsep, hbar⟩))

/-! ## One character -/

section OneCharacter

variable {p : Place} {run : Option Run}

theorem lexFrom_separator (h : isSeparator c = true) :
    lexFrom p run (c :: rest) = Run.finish run p ++ lexFrom (p.after c) none rest := by
  simp only [lexFrom, h, if_true]

theorem lexFrom_bar :
    lexFrom p run ('|' :: rest) =
      Run.finish run p ++ ⟨p, .bar, p.after '|'⟩ :: lexFrom (p.after '|') none rest := by
  have hsep : isSeparator '|' = false := rfl
  simp only [lexFrom, hsep, Bool.false_eq_true, if_false, if_true]

theorem lexFrom_symbolChar_none (h : isSymbolChar c = true) :
    lexFrom p none (c :: rest) = lexFrom (p.after c) (some ⟨p, [c]⟩) rest := by
  obtain ⟨hsep, hbar⟩ := isSymbolChar_eq_true_iff.1 h
  simp only [lexFrom, hsep, hbar, Bool.false_eq_true, if_false]

theorem lexFrom_symbolChar_some {r : Run} (h : isSymbolChar c = true) :
    lexFrom p (some r) (c :: rest) =
      lexFrom (p.after c) (some ⟨r.start, c :: r.reversed⟩) rest := by
  obtain ⟨hsep, hbar⟩ := isSymbolChar_eq_true_iff.1 h
  simp only [lexFrom, hsep, hbar, Bool.false_eq_true, if_false]

end OneCharacter

/-! ## Places -/

/-- The place after several characters. -/
def Place.afterAll (p : Place) (text : List Char) : Place := text.foldl Place.after p

@[simp] theorem Place.afterAll_nil (p : Place) : p.afterAll [] = p := rfl

@[simp] theorem Place.afterAll_cons (p : Place) (c : Char) (text : List Char) :
    p.afterAll (c :: text) = (p.after c).afterAll text := rfl

theorem Place.afterAll_append (p : Place) (front text : List Char) :
    p.afterAll (front ++ text) = (p.afterAll front).afterAll text := List.foldl_append

theorem map_token_finish_congr {run run' : Option Run} (p q : Place)
    (h : run.map Run.reversed = run'.map Run.reversed) :
    (Run.finish run p).map Spanned.token = (Run.finish run' q).map Spanned.token := by
  cases run with
  | none =>
    cases run' with
    | none => rfl
    | some r' => cases h
  | some r =>
    cases run' with
    | none => cases h
    | some r' =>
      have hreversed : r.reversed = r'.reversed := Option.some.inj h
      simp only [Run.finish, List.map_cons, List.map_nil, hreversed]

/-- The tokens depend on the text and on the characters of the run right before it. -/
theorem map_token_lexFrom_congr {p q : Place} {run run' : Option Run}
    (h : run.map Run.reversed = run'.map Run.reversed) :
    (lexFrom p run text).map Spanned.token = (lexFrom q run' text).map Spanned.token := by
  induction text generalizing p q run run' with
  | nil => exact map_token_finish_congr p q h
  | cons c rest ih =>
    have hfinish := map_token_finish_congr p q h
    have hrest : (lexFrom (p.after c) none rest).map Spanned.token =
        (lexFrom (q.after c) none rest).map Spanned.token := ih rfl
    rcases char_cases c with hsep | rfl | hsymbol
    · rw [lexFrom_separator hsep, lexFrom_separator hsep, List.map_append, List.map_append,
        hfinish, hrest]
    · simp only [lexFrom_bar, List.map_append, List.map_cons, hfinish, hrest]
    · cases run with
      | none =>
        cases run' with
        | none =>
          rw [lexFrom_symbolChar_none hsymbol, lexFrom_symbolChar_none hsymbol]
          exact ih rfl
        | some r' => cases h
      | some r =>
        cases run' with
        | none => cases h
        | some r' =>
          have hreversed : r.reversed = r'.reversed := Option.some.inj h
          rw [lexFrom_symbolChar_some hsymbol, lexFrom_symbolChar_some hsymbol]
          exact ih (by simp only [Option.map_some, hreversed])

theorem map_token_lexFrom_none (p : Place) :
    (lexFrom p none text).map Spanned.token = tokens text :=
  map_token_lexFrom_congr rfl

/-! ## Separators, bars and words -/

theorem tokens_separator (h : isSeparator c = true) : tokens (c :: rest) = tokens rest := by
  unfold tokens lex
  rw [lexFrom_separator h]
  exact map_token_lexFrom_none _

theorem tokens_bar : tokens ('|' :: rest) = .bar :: tokens rest := by
  unfold tokens lex
  rw [lexFrom_bar]
  exact congrArg (Token.bar :: ·) (map_token_lexFrom_none _)

/-- A word at the start of a text: a run of symbol characters that the rest does not continue. -/
structure IsWord (word rest : List Char) : Prop where
  ne_nil : word ≠ []
  plain : ∀ c ∈ word, isSymbolChar c = true
  ends : ∀ c ∈ rest.head?, isSymbolChar c = false

theorem IsWord.takeWhile_append (h : IsWord word rest) :
    (word ++ rest).takeWhile isSymbolChar = word := by
  rw [List.takeWhile_append_of_pos h.plain]
  cases rest with
  | nil => rw [List.takeWhile_nil, List.append_nil]
  | cons c rest =>
    have hc : ¬ isSymbolChar c = true := Bool.eq_false_iff.1 (h.ends c rfl)
    rw [List.takeWhile_cons_of_neg hc, List.append_nil]

/-- A text starts with one word at most. -/
theorem IsWord.unique {word' rest' : List Char} (h : IsWord word rest) (h' : IsWord word' rest')
    (heq : word ++ rest = word' ++ rest') : word = word' ∧ rest = rest' := by
  obtain rfl : word = word' := by rw [← h.takeWhile_append, heq, h'.takeWhile_append]
  exact ⟨rfl, List.append_cancel_left heq⟩

/-- A run is finished where the symbol characters end. -/
theorem lexFrom_some_append {p q : Place} {reversed : List Char}
    (hplain : ∀ c ∈ word, isSymbolChar c = true)
    (hends : ∀ c ∈ rest.head?, isSymbolChar c = false) :
    lexFrom p (some ⟨q, reversed⟩) (word ++ rest) =
      ⟨q, .ofRun (reversed.reverse ++ word), p.afterAll word⟩ ::
        lexFrom (p.afterAll word) none rest := by
  induction word generalizing p reversed with
  | nil =>
    rw [List.nil_append, List.append_nil]
    cases rest with
    | nil => rfl
    | cons c rest =>
      have hc : isSymbolChar c = false := hends c rfl
      rcases char_cases c with hsep | rfl | hsymbol
      · rw [lexFrom_separator hsep, Place.afterAll_nil, lexFrom_separator hsep]
        rfl
      · rw [lexFrom_bar, Place.afterAll_nil, lexFrom_bar]
        rfl
      · exact absurd hsymbol (Bool.eq_false_iff.1 hc)
  | cons c word ih =>
    obtain ⟨hc, hplain⟩ := List.forall_mem_cons.1 hplain
    rw [List.cons_append, lexFrom_symbolChar_some hc, ih hplain, List.reverse_cons,
      List.append_assoc, List.singleton_append, Place.afterAll_cons]

/-- A word is one token, from the place before it to the place behind it. -/
theorem IsWord.lexFrom_append (h : IsWord word rest) (p : Place) :
    lexFrom p none (word ++ rest) =
      ⟨p, .ofRun word, p.afterAll word⟩ :: lexFrom (p.afterAll word) none rest := by
  obtain ⟨hne, hplain, hends⟩ := h
  obtain ⟨c, word, rfl⟩ := List.exists_cons_of_ne_nil hne
  obtain ⟨hc, hplain⟩ := List.forall_mem_cons.1 hplain
  rw [List.cons_append, lexFrom_symbolChar_none hc, lexFrom_some_append hplain hends,
    Place.afterAll_cons]
  rfl

theorem IsWord.tokens_append (h : IsWord word rest) :
    tokens (word ++ rest) = Token.ofRun word :: tokens rest := by
  unfold tokens lex
  rw [h.lexFrom_append, List.map_cons, map_token_lexFrom_none]
  rfl

/-- A text starts with a word as soon as it starts with a symbol character. -/
theorem exists_isWord (rest : List Char) (hc : isSymbolChar c = true) :
    ∃ word after, c :: rest = word ++ after ∧ IsWord word after := by
  refine ⟨c :: rest.takeWhile isSymbolChar, rest.dropWhile isSymbolChar, ?_, ?_, ?_, ?_⟩
  · rw [List.cons_append, List.takeWhile_append_dropWhile]
  · exact List.cons_ne_nil _ _
  · refine List.forall_mem_cons.2 ⟨hc, fun d hd => ?_⟩
    exact List.all_eq_true.1 List.all_takeWhile d hd
  · intro d hd
    have hhead := List.head?_dropWhile_not isSymbolChar rest
    rw [Option.mem_def.1 hd] at hhead
    exact hhead

/-- Induction on a text, a separator, a bar or a word at a time. -/
theorem text_induction {motive : List Char → Prop} (nil : motive [])
    (separator : ∀ c rest, isSeparator c = true → motive rest → motive (c :: rest))
    (bar : ∀ rest, motive rest → motive ('|' :: rest))
    (word : ∀ word rest, IsWord word rest → motive rest → motive (word ++ rest))
    (text : List Char) : motive text := by
  induction hlength : text.length using Nat.strong_induction_on generalizing text with
  | h n ih =>
    cases text with
    | nil => exact nil
    | cons c rest =>
      subst hlength
      have hrest : rest.length < (c :: rest).length := Nat.lt_succ_self _
      rcases char_cases c with hsep | rfl | hsymbol
      · exact separator c rest hsep (ih _ hrest rest rfl)
      · exact bar rest (ih _ hrest rest rfl)
      · obtain ⟨w, after, heq, hword⟩ := exists_isWord rest hsymbol
        have hpos : 0 < w.length := List.length_pos_iff.2 hword.ne_nil
        have hlt : after.length < (c :: rest).length := by
          rw [heq, List.length_append]
          omega
        rw [heq]
        exact word w after hword (ih _ hlt after rfl)

/-! ## Cutting a text -/

/-- A symbol character ends the front or starts the rest, but not both. -/
def CanCut (front rest : List Char) : Prop :=
  ∀ c ∈ front.getLast?, ∀ d ∈ rest.head?, isSymbolChar c = true → isSymbolChar d = false

theorem CanCut.of_append (h : CanCut (word ++ text) rest) : CanCut text rest := by
  intro d hd
  refine h d ?_
  rw [List.getLast?_append, Option.mem_def.1 hd]
  rfl

theorem CanCut.of_cons (h : CanCut (c :: text) rest) : CanCut text rest :=
  CanCut.of_append (show CanCut ([c] ++ text) rest from h)

theorem canCut_singleton (hc : isSymbolChar c = false) : CanCut [c] rest := by
  intro d hd e he hsymbol
  obtain rfl : c = d := Option.some.inj hd
  rw [hc] at hsymbol
  cases hsymbol

theorem canCut_cons (hc : isSymbolChar c = false) : CanCut text (c :: rest) := by
  intro d hd e he hsymbol
  obtain rfl : c = e := Option.some.inj he
  exact hc

/-- A word stays one with what follows it behind a cut. -/
theorem IsWord.append (hword : IsWord word text) (h : CanCut (word ++ text) rest) :
    IsWord word (text ++ rest) := by
  refine ⟨hword.ne_nil, hword.plain, fun c hc => ?_⟩
  cases text with
  | nil =>
    rw [List.append_nil] at h
    have hlast := List.getLast?_eq_some_getLast hword.ne_nil
    exact h _ hlast c hc (hword.plain _ (List.getLast_mem hword.ne_nil))
  | cons d text => exact hword.ends c hc

/-- Where a text can be cut, its parts are read one after the other. -/
theorem lexFrom_append {p : Place} (h : CanCut text rest) :
    lexFrom p none (text ++ rest) = lexFrom p none text ++ lexFrom (p.afterAll text) none rest := by
  induction text using text_induction generalizing p with
  | nil => rfl
  | separator c text hsep ih =>
    rw [List.cons_append, lexFrom_separator hsep, lexFrom_separator hsep, ih h.of_cons]
    rfl
  | bar text ih =>
    rw [List.cons_append, lexFrom_bar, lexFrom_bar, ih h.of_cons]
    rfl
  | word word text hword ih =>
    rw [List.append_assoc, (hword.append h).lexFrom_append, hword.lexFrom_append, ih h.of_append,
      Place.afterAll_append, List.cons_append]

/-- A separator at the end of a text changes nothing. -/
theorem lexFrom_append_separator {p : Place} (h : isSeparator c = true) :
    lexFrom p none (text ++ [c]) = lexFrom p none text := by
  rw [lexFrom_append (canCut_cons (isSymbolChar_of_isSeparator h)), lexFrom_separator h]
  exact List.append_nil _

theorem tokens_append (h : CanCut text rest) : tokens (text ++ rest) = tokens text ++ tokens rest := by
  unfold tokens lex
  rw [lexFrom_append h, List.map_append, map_token_lexFrom_none (Place.afterAll _ text)]
  rfl

/-- A bar ends what stands before it. -/
theorem tokens_append_bar : tokens (text ++ '|' :: rest) = tokens text ++ .bar :: tokens rest := by
  rw [tokens_append (canCut_cons rfl), tokens_bar]

theorem bar_notMem_tokens (h : '|' ∉ text) : Token.bar ∉ tokens text := by
  induction text using text_induction with
  | nil => exact List.not_mem_nil
  | separator c rest hsep ih =>
    rw [tokens_separator hsep]
    exact ih fun hrest => h (List.mem_cons_of_mem _ hrest)
  | bar rest ih => exact absurd List.mem_cons_self h
  | word word rest hword ih =>
    have hne : Token.bar ≠ Token.ofRun word := by
      unfold Token.ofRun
      split <;> exact Token.noConfusion
    rw [hword.tokens_append]
    exact List.not_mem_cons_of_ne_of_not_mem hne
      (ih fun hrest => h (List.mem_append_right _ hrest))

/-! ## Symbols -/

/-- A name that can be read: not empty, and of symbol characters. -/
structure IsName (name : String) : Prop where
  ne_empty : name ≠ ""
  plain : ∀ c ∈ name.toList, isSymbolChar c = true

theorem IsName.isWord (h : IsName name) (hends : ∀ c ∈ rest.head?, isSymbolChar c = false) :
    IsWord name.toList rest :=
  ⟨fun hnil => h.ne_empty (String.toList_eq_nil_iff.1 hnil), h.plain, hends⟩

theorem IsWord.isName (h : IsWord word rest) : IsName (String.ofList word) where
  ne_empty hempty := h.ne_nil (by simpa using congrArg String.toList hempty)
  plain c hc := h.plain c (by simpa using hc)

theorem ofRun_toList (h : name ≠ "->") : Token.ofRun name.toList = .symbol name := by
  have hne : name.toList ≠ ['-', '>'] := fun heq => h (String.toList_inj.1 heq)
  rw [Token.ofRun, if_neg hne, String.ofList_toList]

theorem ofRun_eq_symbol_iff :
    Token.ofRun word = .symbol name ↔ word = name.toList ∧ name ≠ "->" := by
  constructor
  · intro h
    unfold Token.ofRun at h
    split at h
    next => cases h
    next hne =>
      obtain rfl := Token.symbol.inj h
      refine ⟨String.toList_ofList.symm, fun heq => hne ?_⟩
      simpa using congrArg String.toList heq
  · rintro ⟨rfl, hne⟩
    exact ofRun_toList hne

/-- A symbol of a text is a readable name that stands in the text, and never an arrow. -/
theorem of_symbol_mem_tokens (h : Token.symbol name ∈ tokens text) :
    IsName name ∧ name ≠ "->" ∧ name.toList <:+: text := by
  induction text using text_induction with
  | nil => cases h
  | separator c rest hsep ih =>
    rw [tokens_separator hsep] at h
    obtain ⟨hname, hne, hinfix⟩ := ih h
    exact ⟨hname, hne, List.infix_cons hinfix⟩
  | bar rest ih =>
    rw [tokens_bar] at h
    obtain ⟨hname, hne, hinfix⟩ := ih ((List.mem_cons.1 h).resolve_left Token.noConfusion)
    exact ⟨hname, hne, List.infix_cons hinfix⟩
  | word word rest hword ih =>
    rw [hword.tokens_append] at h
    rcases List.mem_cons.1 h with h | h
    · obtain ⟨rfl, hne⟩ := ofRun_eq_symbol_iff.1 h.symm
      have hname : IsName name := by simpa using hword.isName
      exact ⟨hname, hne, (List.prefix_append _ _).isInfix⟩
    · obtain ⟨hname, hne, hinfix⟩ := ih h
      exact ⟨hname, hne, hinfix.trans (List.suffix_append _ _).isInfix⟩

/-- Only separators stand before the first symbol. -/
theorem exists_separators_of_tokens_eq_cons (h : tokens text = .symbol name :: ts) :
    ∃ front back, text = front ++ name.toList ++ back ∧ ∀ c ∈ front, isSeparator c = true := by
  induction text using text_induction with
  | nil => cases h
  | separator c rest hsep ih =>
    rw [tokens_separator hsep] at h
    obtain ⟨front, back, rfl, hfront⟩ := ih h
    exact ⟨c :: front, back, rfl, List.forall_mem_cons.2 ⟨hsep, hfront⟩⟩
  | bar rest ih =>
    rw [tokens_bar] at h
    cases h
  | word word rest hword ih =>
    rw [hword.tokens_append] at h
    obtain ⟨rfl, -⟩ := ofRun_eq_symbol_iff.1 (List.cons.inj h).1
    exact ⟨[], rest, rfl, fun c hc => absurd hc List.not_mem_nil⟩

end ShiftReduce.RuleText
