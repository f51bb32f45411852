import Mathlib.Data.List.Induction
import ShiftReduce.Proofs.LongestMatch
import ShiftReduce.Saturation

/-!
# The tokens tile the text

A text can be cut around every bar, and around every run of symbol characters that is continued on
neither side.  From this comes which tokens there are, and between which bytes of the text they stand.

    t ∈ lexFrom p none text ↔ ∃ front word back, text = front ++ word ++ back ∧
      Piece front word back t.token ∧ t.start = p.afterAll front ∧ …          (mem_lexFrom_iff)
    (∀ result, Scans ⟨0, 0, 0⟩ text result ↔ result = some (lex text)) ∧
      Tiling text (lex text)                                                         (lex_tiles)
-/

namespace ShiftReduce.RuleText

variable {text front word back rest : List Char} {c : Char} {p : Place} {t : Spanned}

/-! ## Pieces -/

/-- A run of symbol characters that is continued on neither side. -/
structure IsRun (front word back : List Char) : Prop extends IsWord word back where
  before : ∀ c ∈ front.getLast?, isSymbolChar c = false

/-- What is one token: a bar, or a run, which is an arrow if it is exactly that. -/
inductive Piece (front back : List Char) : List Char → Token → Prop
  | bar : Piece front back ['|'] .bar
  | arrow (h : IsRun front ['-', '>'] back) : Piece front back ['-', '>'] .arrow
  | symbol {word : List Char} (h : IsRun front word back) (hne : word ≠ ['-', '>']) :
      Piece front back word (.symbol (String.ofList word))

theorem IsRun.piece (h : IsRun front word back) : Piece front back word (.ofRun word) := by
  unfold Token.ofRun
  split
  next heq =>
    subst heq
    exact .arrow h
  next hne => exact .symbol h hne

/-- A piece is a bar or a run. -/
theorem Piece.bar_or_run {token : Token} (h : Piece front back word token) :
    (word = ['|'] ∧ token = .bar) ∨ (IsRun front word back ∧ token = .ofRun word) := by
  cases h with
  | bar => exact .inl ⟨rfl, rfl⟩
  | arrow h => exact .inr ⟨h, rfl⟩
  | symbol h hne => exact .inr ⟨h, (if_neg hne).symm⟩

theorem Piece.ne_nil {token : Token} (h : Piece front back word token) : word ≠ [] := by
  rcases h.bar_or_run with ⟨rfl, -⟩ | ⟨hrun, -⟩
  · exact List.cons_ne_nil _ _
  · exact hrun.ne_nil

theorem Piece.isSeparator_eq_false {token : Token} (h : Piece front back word token) (hc : c ∈ word) :
    isSeparator c = false := by
  rcases h.bar_or_run with ⟨rfl, -⟩ | ⟨hrun, -⟩
  · rw [List.mem_singleton.1 hc]
    rfl
  · exact (isSymbolChar_eq_true_iff.1 (hrun.plain c hc)).1

theorem Piece.canCut {token : Token} (h : Piece front back word token) :
    CanCut front (word ++ back) := by
  intro c hc d hd hsymbol
  rcases h.bar_or_run with ⟨rfl, -⟩ | ⟨hrun, -⟩
  · obtain rfl := Option.some.inj hd
    rfl
  · rw [hrun.before c hc] at hsymbol
    cases hsymbol

/-- Behind a part that can be cut off, the pieces are those of the rest. -/
theorem Piece.append {lead : List Char} {token : Token} (h : Piece front back word token)
    (hcut : CanCut lead (front ++ word ++ back)) : Piece (lead ++ front) back word token := by
  rcases h.bar_or_run with ⟨rfl, rfl⟩ | ⟨hrun, rfl⟩
  · exact .bar
  · refine IsRun.piece ⟨hrun.toIsWord, fun c hc => Bool.eq_false_iff.2 fun hsymbol => ?_⟩
    cases front with
    | nil =>
      obtain ⟨d, tail, rfl⟩ := List.exists_cons_of_ne_nil hrun.ne_nil
      rw [List.append_nil] at hc
      have hd : isSymbolChar d = false := hcut c hc d rfl hsymbol
      rw [hrun.plain d List.mem_cons_self] at hd
      cases hd
    | cons d front =>
      rw [List.getLast?_append_cons] at hc
      rw [hrun.before c hc] at hsymbol
      cases hsymbol

/-! ## Which tokens there are -/

/-- What stands in the text, which begins at `p`, is a piece with the token and the places of `t`. -/
def Stands (text : List Char) (p : Place) (t : Spanned) : Prop :=
  ∃ front word back, text = front ++ word ++ back ∧ Piece front back word t.token ∧
    t.start = p.afterAll front ∧ t.stop = p.afterAll (front ++ word)

theorem Stands.append {lead : List Char} (hcut : CanCut lead rest)
    (h : Stands rest (p.afterAll lead) t) : Stands (lead ++ rest) p t := by
  obtain ⟨front, word, back, rfl, hpiece, hstart, hstop⟩ := h
  refine ⟨lead ++ front, word, back, by simp only [List.append_assoc], hpiece.append hcut, ?_, ?_⟩
  · rw [hstart, Place.afterAll_append]
  · rw [hstop, List.append_assoc, Place.afterAll_append p]

theorem stands_of_mem_lexFrom (h : t ∈ lexFrom p none text) : Stands text p t := by
  induction text using text_induction generalizing p with
  | nil => cases h
  | separator c rest hsep ih =>
    have hcut : CanCut [c] rest := canCut_singleton (isSymbolChar_of_isSeparator hsep)
    rw [lexFrom_separator hsep] at h
    exact (ih h).append hcut
  | bar rest ih =>
    rw [lexFrom_bar] at h
    rcases List.mem_cons.1 h with rfl | h
    · exact ⟨[], ['|'], rest, rfl, .bar, rfl, rfl⟩
    · exact (ih h).append (canCut_singleton rfl)
  | word word rest hword ih =>
    rw [hword.lexFrom_append] at h
    rcases List.mem_cons.1 h with rfl | h
    · exact ⟨[], word, rest, rfl, IsRun.piece ⟨hword, fun c hc => by cases hc⟩, rfl, rfl⟩
    · exact (ih h).append fun c _ d hd _ => hword.ends d hd

theorem Stands.mem_lexFrom (h : Stands text p t) : t ∈ lexFrom p none text := by
  obtain ⟨start, token, stop⟩ := t
  obtain ⟨front, word, back, rfl, hpiece, rfl, rfl⟩ := h
  rw [List.append_assoc, lexFrom_append hpiece.canCut, Place.afterAll_append]
  refine List.mem_append_right _ ?_
  rcases hpiece.bar_or_run with ⟨rfl, rfl⟩ | ⟨hrun, rfl⟩
  · rw [List.singleton_append, lexFrom_bar]
    exact List.mem_cons_self
  · rw [hrun.lexFrom_append]
    exact List.mem_cons_self

/-- The tokens are the pieces of the text. -/
theorem mem_lexFrom_iff : t ∈ lexFrom p none text ↔ Stands text p t :=
  ⟨stands_of_mem_lexFrom, Stands.mem_lexFrom⟩

/-! ## Bytes -/

/-- How many bytes a text takes. -/
def byteLength (text : List Char) : Nat := total Char.utf8Size text

theorem byteLength_append (front back : List Char) :
    byteLength (front ++ back) = byteLength front + byteLength back := by
  induction front with
  | nil => exact (Nat.zero_add _).symm
  | cons c front ih =>
    show c.utf8Size + byteLength (front ++ back) = c.utf8Size + byteLength front + byteLength back
    rw [ih, Nat.add_assoc]

theorem size_utf8Encode (text : List Char) : text.utf8Encode.size = byteLength text := by
  induction text with
  | nil => rfl
  | cons c text ih =>
    rw [List.utf8Encode_cons, ByteArray.size_append, ih]
    simp [List.utf8Encode_singleton, byteLength, total]

theorem byteLength_pos (h : text ≠ []) : 0 < byteLength text := by
  obtain ⟨c, rest, rfl⟩ := List.exists_cons_of_ne_nil h
  have hc := c.utf8Size_pos
  show 0 < c.utf8Size + byteLength rest
  omega

theorem Place.byte_after (p : Place) (c : Char) : (p.after c).byte = p.byte + c.utf8Size := by
  unfold Place.after
  split
  · rfl
  · split <;> rfl

theorem Place.byte_afterAll (p : Place) (text : List Char) :
    (p.afterAll text).byte = p.byte + byteLength text := by
  induction text generalizing p with
  | nil => rfl
  | cons c rest ih =>
    rw [afterAll_cons, ih, byte_after, Nat.add_assoc]
    rfl

theorem Stands.byte_le (h : Stands text p t) : p.byte ≤ t.start.byte := by
  obtain ⟨front, word, back, -, -, hstart, -⟩ := h
  rw [hstart, Place.byte_afterAll]
  omega

theorem lexFrom_pairwise (p : Place) (text : List Char) :
    (lexFrom p none text).Pairwise fun s t => s.stop.byte ≤ t.start.byte := by
  induction text using text_induction generalizing p with
  | nil => exact List.Pairwise.nil
  | separator c rest hsep ih =>
    rw [lexFrom_separator hsep]
    exact ih _
  | bar rest ih =>
    rw [lexFrom_bar]
    exact List.pairwise_cons.2 ⟨fun t ht => (stands_of_mem_lexFrom ht).byte_le, ih _⟩
  | word word rest hword ih =>
    rw [hword.lexFrom_append]
    exact List.pairwise_cons.2 ⟨fun t ht => (stands_of_mem_lexFrom ht).byte_le, ih _⟩

/-! ## The piece around a character -/

/-- The symbol characters at the end of a text. -/
theorem exists_symbolChars_at_end (front : List Char) : ∃ left right, front = left ++ right ∧
    (∀ c ∈ right, isSymbolChar c = true) ∧ ∀ c ∈ left.getLast?, isSymbolChar c = false := by
  induction front using List.reverseRecOn with
  | nil => exact ⟨[], [], rfl, List.forall_mem_nil _, fun c hc => (by cases hc)⟩
  | append_singleton front c ih =>
    by_cases hc : isSymbolChar c = true
    · obtain ⟨left, right, rfl, hright, hleft⟩ := ih
      refine ⟨left, right ++ [c], List.append_assoc _ _ _, fun d hd => ?_, hleft⟩
      rcases List.mem_append.1 hd with hd | hd
      · exact hright d hd
      · rw [List.mem_singleton.1 hd, hc]
    · refine ⟨front ++ [c], [], (List.append_nil _).symm, List.forall_mem_nil _, fun d hd => ?_⟩
      rw [List.getLast?_concat] at hd
      obtain rfl := Option.some.inj hd
      exact Bool.eq_false_iff.2 hc

theorem IsWord.prepend {before : List Char} (hword : IsWord word rest)
    (hbefore : ∀ c ∈ before, isSymbolChar c = true) : IsWord (before ++ word) rest := by
  refine ⟨List.append_ne_nil_of_right_ne_nil before hword.ne_nil, fun c hc => ?_, hword.ends⟩
  rcases List.mem_append.1 hc with hc | hc
  · exact hbefore c hc
  · exact hword.plain c hc

/-- A character that is no separator belongs to a piece: a bar is one, and around another there is a
run. -/
theorem exists_piece_around (front back : List Char) (hc : isSeparator c = false) :
    ∃ left before after right token, front = left ++ before ∧ back = after ++ right ∧
      Piece left right (before ++ c :: after) token := by
  rcases char_cases c with hsep | rfl | hsymbol
  · rw [hc] at hsep
    cases hsep
  · exact ⟨front, [], [], back, .bar, (List.append_nil _).symm, rfl, .bar⟩
  · obtain ⟨left, before, rfl, hbefore, hleft⟩ := exists_symbolChars_at_end front
    obtain ⟨word, right, heq, hword⟩ := exists_isWord back hsymbol
    obtain ⟨d, after, rfl⟩ := List.exists_cons_of_ne_nil hword.ne_nil
    obtain ⟨rfl, rfl⟩ := List.cons.inj heq
    exact ⟨left, before, after, right, _, rfl, rfl, IsRun.piece ⟨hword.prepend hbefore, hleft⟩⟩

/-- A byte of a character and of a word that stand in the same text: the character is in the word. -/
theorem mem_of_byte {left right : List Char} {b : Nat}
    (htext : left ++ (word ++ right) = front ++ c :: back)
    (hleft : byteLength left ≤ b) (hright : b < byteLength (left ++ word))
    (hfront : byteLength front ≤ b) (hback : b < byteLength (front ++ [c])) : c ∈ word := by
  rcases List.append_eq_append_iff.1 htext with ⟨x, rfl, hrest⟩ | ⟨x, rfl, hrest⟩
  · -- the character is behind the start of the word, and not behind its end
    rcases List.append_eq_append_iff.1 hrest with ⟨y, rfl, -⟩ | ⟨y, rfl, htail⟩
    · simp only [byteLength_append] at hright hfront
      omega
    · cases y with
      | nil =>
        rw [List.append_nil] at hright
        omega
      | cons d y =>
        obtain rfl := (List.cons.inj htail).1
        exact List.mem_append_right _ List.mem_cons_self
  · -- a character before the start of the word has its bytes before it
    cases x with
    | nil =>
      cases word with
      | nil =>
        rw [List.append_nil] at hright
        omega
      | cons d word =>
        obtain rfl := (List.cons.inj hrest).1
        exact List.mem_cons_self
    | cons d x =>
      obtain rfl := (List.cons.inj hrest).1
      rw [← List.singleton_append, ← List.append_assoc, byteLength_append] at hleft
      omega

/-! ## The tiling -/

/-- How a token is written. -/
def Token.spelling : Token → String
  | .arrow => "->"
  | .bar => "|"
  | .symbol text => text

theorem Piece.spelling {token : Token} (h : Piece front back word token) :
    token.spelling = String.ofList word := by
  cases h with
  | bar => rfl
  | arrow => rfl
  | symbol => rfl

/-- The tokens stand in the text one behind the other.  A byte is in a token exactly if it is of a
character that is no separator.  There is one token for every bar and for every run, at its bytes, and
each token is spelled by its bytes. -/
structure Tiling (text : List Char) (ts : List Spanned) : Prop where
  start_lt : ∀ t ∈ ts, t.start.byte < t.stop.byte
  increasing : ts.Pairwise fun s t => s.stop.byte ≤ t.start.byte
  stop_le : ∀ t ∈ ts, t.stop.byte ≤ byteLength text
  inside_iff : ∀ front c back, text = front ++ c :: back →
    ∀ b, byteLength front ≤ b → b < byteLength (front ++ [c]) →
      ((∃ t ∈ ts, t.start.byte ≤ b ∧ b < t.stop.byte) ↔ isSeparator c = false)
  exists_iff : ∀ start token stop,
    (∃ t ∈ ts, t.start.byte = start ∧ t.token = token ∧ t.stop.byte = stop) ↔
      ∃ front word back, text = front ++ word ++ back ∧ Piece front back word token ∧
        start = byteLength front ∧ stop = byteLength (front ++ word)
  spelled : ∀ t ∈ ts, text.utf8Encode.extract t.start.byte t.stop.byte = t.token.spelling.toByteArray

/-- The tokens of a text and the bytes of their pieces. -/
theorem exists_piece_of_mem_lex (h : t ∈ lex text) : ∃ front word back, text = front ++ word ++ back ∧
    Piece front back word t.token ∧ t.start.byte = byteLength front ∧
    t.stop.byte = byteLength (front ++ word) := by
  obtain ⟨front, word, back, htext, hpiece, hstart, hstop⟩ := mem_lexFrom_iff.1 h
  refine ⟨front, word, back, htext, hpiece, ?_, ?_⟩
  · rw [hstart, Place.byte_afterAll, Nat.zero_add]
  · rw [hstop, Place.byte_afterAll, Nat.zero_add]

theorem Piece.exists_mem_lex {token : Token} (h : Piece front back word token) :
    ∃ t ∈ lex (front ++ word ++ back), t.start.byte = byteLength front ∧ t.token = token ∧
      t.stop.byte = byteLength (front ++ word) := by
  refine ⟨⟨Place.afterAll ⟨0, 0, 0⟩ front, token, Place.afterAll ⟨0, 0, 0⟩ (front ++ word)⟩,
    mem_lexFrom_iff.2 ⟨front, word, back, rfl, h, rfl, rfl⟩, ?_, rfl, ?_⟩
  · rw [Place.byte_afterAll, Nat.zero_add]
  · rw [Place.byte_afterAll, Nat.zero_add]

theorem tiling_lex (text : List Char) : Tiling text (lex text) where
  start_lt t ht := by
    obtain ⟨front, word, back, -, hpiece, hstart, hstop⟩ := exists_piece_of_mem_lex ht
    have hpos := byteLength_pos hpiece.ne_nil
    rw [hstart, hstop, byteLength_append]
    omega
  increasing := lexFrom_pairwise _ text
  stop_le t ht := by
    obtain ⟨front, word, back, htext, -, -, hstop⟩ := exists_piece_of_mem_lex ht
    rw [hstop, htext, byteLength_append (front ++ word)]
    omega
  inside_iff front c back htext b hfront hback := by
    constructor
    · rintro ⟨t, ht, hleft, hright⟩
      obtain ⟨left, word, right, htext', hpiece, hstart, hstop⟩ := exists_piece_of_mem_lex ht
      rw [hstart] at hleft
      rw [hstop] at hright
      rw [htext', List.append_assoc] at htext
      exact hpiece.isSeparator_eq_false (mem_of_byte htext hleft hright hfront hback)
    · intro hc
      obtain ⟨left, before, after, right, token, rfl, rfl, hpiece⟩ :=
        exists_piece_around front back hc
      obtain ⟨t, ht, hstart, -, hstop⟩ := hpiece.exists_mem_lex
      obtain rfl : text = left ++ (before ++ c :: after) ++ right := by
        rw [htext]
        simp
      refine ⟨t, ht, ?_, ?_⟩
      · rw [hstart]
        rw [byteLength_append] at hfront
        omega
      · rw [hstop, show left ++ (before ++ c :: after) = left ++ before ++ [c] ++ after by simp,
          byteLength_append (left ++ before ++ [c])]
        omega
  exists_iff start token stop := by
    constructor
    · rintro ⟨t, ht, rfl, rfl, rfl⟩
      exact exists_piece_of_mem_lex ht
    · rintro ⟨front, word, back, rfl, hpiece, rfl, rfl⟩
      exact hpiece.exists_mem_lex
  spelled t ht := by
    obtain ⟨front, word, back, rfl, hpiece, hstart, hstop⟩ := exists_piece_of_mem_lex ht
    have hword : (front.utf8Encode ++ word.utf8Encode).extract (byteLength front)
        (byteLength (front ++ word)) = word.utf8Encode :=
      ByteArray.extract_append_eq_right (size_utf8Encode front).symm
        (by rw [size_utf8Encode, size_utf8Encode, byteLength_append])
    have hsize : (front.utf8Encode ++ word.utf8Encode).size = byteLength (front ++ word) := by
      rw [← List.utf8Encode_append, size_utf8Encode]
    rw [hstart, hstop, hpiece.spelling, String.toByteArray_ofList, List.utf8Encode_append,
      List.utf8Encode_append, ByteArray.extract_append, hword, hsize, byteLength_append,
      Nat.sub_self, Nat.sub_eq_zero_of_le (Nat.le_add_right _ _), ByteArray.extract_same,
      ByteArray.append_empty]

/-- Lexing by longest match never fails, and the tokens tile the text. -/
theorem lex_tiles (text : List Char) :
    (∀ result, Scans ⟨0, 0, 0⟩ text result ↔ result = some (lex text)) ∧
      Tiling text (lex text) :=
  ⟨fun _ => scans_iff, tiling_lex text⟩

end ShiftReduce.RuleText
