import ShiftReduce.Proofs.RuleTokens

/-!
# Arrows that stand alone

An arrow is a token only where it stands alone: where neither the character before it nor the one
behind it belongs to a symbol.  `LoneArrow` says so of the characters, without the lexer.  The first
token that is an arrow is the first arrow that stands alone, and it starts at the place behind all
characters before it.

    LoneArrow (word ++ rest) mid back ↔ ∃ mid', mid = word ++ mid' ∧ LoneArrow rest mid' back
                                              IsWord word rest, word ≠ ->  (loneArrow_word_iff)
    firstArrow? (lexFrom p none text) = some q ↔
      ∃ mid back, FirstLoneArrow text mid back ∧ q = p.afterAll mid   (firstArrow?_eq_some_iff)
-/

namespace ShiftReduce.RuleText

variable {text word rest mid back : List Char} {c : Char}

/-- In the text, an arrow stands alone behind `mid`. -/
structure LoneArrow (text mid back : List Char) : Prop where
  text_eq : text = mid ++ '-' :: '>' :: back
  before : ∀ c ∈ mid.getLast?, isSymbolChar c = false
  behind : ∀ c ∈ back.head?, isSymbolChar c = false

/-- The first arrow of the text that stands alone is the one behind `mid`. -/
structure FirstLoneArrow (text mid back : List Char) : Prop extends LoneArrow text mid back where
  length_le : ∀ {mid' back' : List Char}, LoneArrow text mid' back' → mid.length ≤ mid'.length

/-! ## Behind a character or a word -/

theorem not_loneArrow_nil : ¬ LoneArrow [] mid back := fun h => by
  have htext := h.text_eq
  simp at htext

/-- A character before which a symbol ends has no part in an arrow. -/
theorem loneArrow_cons_iff (hc : isSymbolChar c = false) :
    LoneArrow ([c] ++ rest) mid back ↔ ∃ mid', mid = [c] ++ mid' ∧ LoneArrow rest mid' back := by
  constructor
  · rintro ⟨htext, hbefore, hbehind⟩
    cases mid with
    | nil =>
      obtain ⟨rfl, -⟩ := List.cons.inj htext
      cases hc
    | cons d mid =>
      obtain ⟨rfl, hrest⟩ := List.cons.inj htext
      refine ⟨mid, rfl, hrest, fun d hd => hbefore d ?_, hbehind⟩
      rw [List.getLast?_cons, Option.mem_def.1 hd]
      rfl
  · rintro ⟨mid, rfl, hrest, hbefore, hbehind⟩
    refine ⟨congrArg (c :: ·) hrest, fun d hd => ?_, hbehind⟩
    cases mid with
    | nil =>
      obtain rfl := Option.some.inj hd
      exact hc
    | cons e mid => exact hbefore d (by rwa [List.singleton_append, List.getLast?_cons_cons] at hd)

section Word

variable (hword : IsWord word rest)
include hword

/-- What follows a word does not start with an arrow. -/
theorem IsWord.rest_ne (tail : List Char) : rest ≠ '-' :: '>' :: tail := by
  rintro rfl
  have hdash : isSymbolChar '-' = false := hword.ends '-' rfl
  cases hdash

/-- An arrow that stands alone at the start of a word is the whole word. -/
theorem IsWord.eq_arrow (h : word ++ rest = '-' :: '>' :: back)
    (hbehind : ∀ c ∈ back.head?, isSymbolChar c = false) : word = ['-', '>'] ∧ rest = back := by
  have hplain : ∀ c ∈ ['-', '>'], isSymbolChar c = true :=
    List.forall_mem_cons.2 ⟨rfl, List.forall_mem_singleton.2 rfl⟩
  have harrow : IsWord ['-', '>'] back := ⟨List.cons_ne_nil _ _, hplain, hbehind⟩
  exact hword.unique harrow h

/-- A word that is no arrow has no part in one. -/
theorem loneArrow_word_iff (hne : word ≠ ['-', '>']) :
    LoneArrow (word ++ rest) mid back ↔ ∃ mid', mid = word ++ mid' ∧ LoneArrow rest mid' back := by
  constructor
  · rintro ⟨htext, hbefore, hbehind⟩
    rcases List.append_eq_append_iff.1 htext with ⟨tail, rfl, hrest⟩ | ⟨tail, rfl, htail⟩
    · refine ⟨tail, rfl, hrest, fun c hc => hbefore c ?_, hbehind⟩
      rw [List.getLast?_append, Option.mem_def.1 hc]
      rfl
    · -- the arrow would start within the word, so it would be at its start
      rcases List.eq_nil_or_concat mid with rfl | ⟨init, c, rfl⟩
      · exact absurd (hword.eq_arrow htext hbehind).1 hne
      · have hc := hbefore c (by simp)
        rw [hword.plain c (by simp)] at hc
        cases hc
  · rintro ⟨mid, rfl, hrest, hbefore, hbehind⟩
    refine ⟨by rw [hrest, List.append_assoc], fun c hc => ?_, hbehind⟩
    cases mid with
    | nil => exact absurd hrest (hword.rest_ne back)
    | cons d mid => exact hbefore c (by rwa [List.getLast?_append_cons] at hc)

theorem IsWord.firstLoneArrow_iff (heq : word = ['-', '>']) :
    FirstLoneArrow (word ++ rest) mid back ↔ mid = [] ∧ back = rest := by
  have hlone : LoneArrow (word ++ rest) [] rest :=
    ⟨by rw [heq]; rfl, fun c hc => (by cases hc), hword.ends⟩
  constructor
  · intro h
    obtain rfl := List.eq_nil_of_length_eq_zero (Nat.le_zero.1 (h.length_le hlone))
    exact ⟨rfl, (hword.eq_arrow h.text_eq h.behind).2.symm⟩
  · rintro ⟨rfl, rfl⟩
    exact ⟨hlone, fun _ => Nat.zero_le _⟩

end Word

/-- Where all arrows stand behind a first part, so does the first of them. -/
theorem firstLoneArrow_append_iff {front : List Char}
    (h : ∀ mid back : List Char,
      LoneArrow (front ++ rest) mid back ↔ ∃ mid', mid = front ++ mid' ∧ LoneArrow rest mid' back) :
    FirstLoneArrow (front ++ rest) mid back ↔
      ∃ mid', mid = front ++ mid' ∧ FirstLoneArrow rest mid' back := by
  constructor
  · intro hfirst
    obtain ⟨mid, rfl, hlone⟩ := (h _ _).1 hfirst.toLoneArrow
    refine ⟨mid, rfl, { hlone with length_le := fun {mid' back'} hother => ?_ }⟩
    have hle := hfirst.length_le ((h _ _).2 ⟨mid', rfl, hother⟩)
    rw [List.length_append, List.length_append] at hle
    omega
  · rintro ⟨mid, rfl, hfirst⟩
    have hlone := (h _ _).2 ⟨mid, rfl, hfirst.toLoneArrow⟩
    refine { hlone with length_le := fun {mid' back'} hother => ?_ }
    obtain ⟨mid', rfl, hrest⟩ := (h _ _).1 hother
    have hle := hfirst.length_le hrest
    rw [List.length_append, List.length_append]
    omega

theorem exists_firstLoneArrow_append_iff {front : List Char} {p q : Place}
    (h : ∀ mid back : List Char,
      LoneArrow (front ++ rest) mid back ↔ ∃ mid', mid = front ++ mid' ∧ LoneArrow rest mid' back) :
    (∃ mid back, FirstLoneArrow (front ++ rest) mid back ∧ q = p.afterAll mid) ↔
      ∃ mid back, FirstLoneArrow rest mid back ∧ q = (p.afterAll front).afterAll mid := by
  constructor
  · rintro ⟨mid, back, hfirst, rfl⟩
    obtain ⟨mid', rfl, hrest⟩ := (firstLoneArrow_append_iff h).1 hfirst
    exact ⟨mid', back, hrest, p.afterAll_append front mid'⟩
  · rintro ⟨mid, back, hfirst, rfl⟩
    exact ⟨front ++ mid, back, (firstLoneArrow_append_iff h).2 ⟨mid, rfl, hfirst⟩,
      (p.afterAll_append front mid).symm⟩

theorem exists_firstLoneArrow_cons_iff {p q : Place} (hc : isSymbolChar c = false) :
    (∃ mid back, FirstLoneArrow (c :: rest) mid back ∧ q = p.afterAll mid) ↔
      ∃ mid back, FirstLoneArrow rest mid back ∧ q = (p.after c).afterAll mid :=
  exists_firstLoneArrow_append_iff fun _ _ => loneArrow_cons_iff hc

/-! ## The first arrow among the tokens -/

/-- Where the first token starts that is an arrow. -/
def firstArrow? (spanned : List Spanned) : Option Place :=
  (spanned.find? (·.token = .arrow)).map Spanned.start

theorem firstArrow?_cons_of_ne {t : Spanned} {ts : List Spanned} (h : t.token ≠ .arrow) :
    firstArrow? (t :: ts) = firstArrow? ts := by
  rw [firstArrow?, List.find?_cons_of_neg (by simpa using h), firstArrow?]

theorem ofRun_eq_arrow_iff : Token.ofRun word = .arrow ↔ word = ['-', '>'] := by
  unfold Token.ofRun
  split
  next heq => exact iff_of_true rfl heq
  next hne => exact iff_of_false Token.noConfusion hne

/-- The first token that is an arrow is the first arrow that stands alone, and starts behind all
that is before it. -/
theorem firstArrow?_eq_some_iff {p q : Place} : firstArrow? (lexFrom p none text) = some q ↔
    ∃ mid back, FirstLoneArrow text mid back ∧ q = p.afterAll mid := by
  induction text using text_induction generalizing p with
  | nil =>
    refine iff_of_false (fun h => by cases h) ?_
    rintro ⟨mid, back, h, -⟩
    exact not_loneArrow_nil h.toLoneArrow
  | separator c rest hsep ih =>
    rw [lexFrom_separator hsep, exists_firstLoneArrow_cons_iff (isSymbolChar_of_isSeparator hsep)]
    exact ih
  | bar rest ih =>
    have hbar : (⟨p, .bar, p.after '|'⟩ : Spanned).token ≠ .arrow := Token.noConfusion
    rw [lexFrom_bar, exists_firstLoneArrow_cons_iff rfl]
    show firstArrow? (_ :: _) = some q ↔ _
    rw [firstArrow?_cons_of_ne hbar]
    exact ih
  | word word rest hword ih =>
    rw [hword.lexFrom_append]
    by_cases heq : word = ['-', '>']
    · have hstart : firstArrow? (⟨p, .ofRun word, p.afterAll word⟩ ::
          lexFrom (p.afterAll word) none rest) = some p := by
        rw [ofRun_eq_arrow_iff.2 heq]
        rfl
      rw [hstart]
      constructor
      · intro hq
        obtain rfl := Option.some.inj hq
        exact ⟨[], rest, (hword.firstLoneArrow_iff heq).2 ⟨rfl, rfl⟩, rfl⟩
      · rintro ⟨mid, back, hfirst, rfl⟩
        obtain ⟨rfl, -⟩ := (hword.firstLoneArrow_iff heq).1 hfirst
        rfl
    · rw [firstArrow?_cons_of_ne (mt ofRun_eq_arrow_iff.1 heq), ih]
      exact (exists_firstLoneArrow_append_iff fun _ _ => loneArrow_word_iff hword heq).symm

end ShiftReduce.RuleText
