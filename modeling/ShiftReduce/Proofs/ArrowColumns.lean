import ShiftReduce.Proofs.LineByLine
import ShiftReduce.Saturation

/-!
# The column of an arrow that stands where none may

The column of such an error adds up two lengths of different units: the part of the line up to its
first arrow counts in characters, and what stands between the two arrows in columns of a terminal,
where a tab takes four and a character one to three or none.  So it is the column of the arrow, in
characters, exactly where what stands between takes as many columns as it has characters.

    column = before.length + 2 + total columns mid + 1            (unexpectedArrow_column)
    (p.afterAll text).column = p.column + total columns text      '\n' ∉ text
-/

namespace ShiftReduce

/-! ## The line of an error -/

namespace Text

variable {text line : List Char}

theorem notMem_of_mem_lines (h : line ∈ lines text) : '\n' ∉ line := by
  induction text using parts_induction '\n' with
  | last part hpart =>
    by_cases hnil : part = []
    · subst hnil
      cases h
    · rw [lines_of_notMem hpart hnil] at h
      obtain rfl := List.mem_singleton.1 h
      exact hpart
  | cons part rest hpart ih =>
    obtain ⟨first, hfirst, hlines⟩ := exists_lines_append_newline rest hpart
    rw [hlines] at h
    rcases List.mem_cons.1 h with rfl | h
    · rcases hfirst with rfl | rfl
      · exact hpart
      · exact fun hmem => hpart (List.mem_append_left _ hmem)
    · exact ih h

end Text

namespace RuleText

variable {text before after mid back : List Char} {n line column : Nat} {e : ReadError}

theorem lineFault_of_readLine (h : readLine n text = .error e) : LineFault n text e := by
  unfold readLine at h
  split at h
  next => cases h
  next => exact lineFault_of_readRuleLine h

/-- An error is the fault of a line. -/
theorem exists_lineFault_of_readLines {texts : List (List Char)}
    (h : readLines n texts = .error e) :
    ∃ k text, texts[k]? = some text ∧ LineFault (n + k) text e := by
  induction texts generalizing n with
  | nil => cases h
  | cons text texts ih =>
    rw [readLines_cons] at h
    cases hfirst : readLine n text with
    | error fault =>
      rw [hfirst] at h
      obtain rfl := Except.error.inj h
      exact ⟨0, text, rfl, lineFault_of_readLine hfirst⟩
    | ok rules =>
      rw [hfirst] at h
      cases hlater : readLines (n + 1) texts with
      | ok more =>
        rw [hlater] at h
        cases h
      | error fault =>
        rw [hlater] at h
        obtain rfl := Except.error.inj h
        obtain ⟨k, later, hk, hfault⟩ := ih hlater
        refine ⟨k + 1, later, hk, ?_⟩
        rwa [Nat.add_right_comm] at hfault

/-! ## Columns -/

/-- The columns that a character takes on its line. -/
def columns (c : Char) : Nat := if c = '\t' then 4 else Text.width c

theorem Place.column_after (p : Place) {c : Char} (hc : '\n' ≠ c) :
    (p.after c).column = p.column + columns c := by
  unfold after columns
  rw [if_neg hc.symm]
  split <;> rfl

theorem Place.column_afterAll (p : Place) (h : '\n' ∉ text) :
    (p.afterAll text).column = p.column + total columns text := by
  induction text generalizing p with
  | nil => rfl
  | cons c text ih =>
    obtain ⟨hc, htext⟩ := List.ne_and_not_mem_of_not_mem_cons h
    rw [afterAll_cons, ih _ htext, p.column_after hc, total, Nat.add_assoc]

/-! ## The column of the error -/

/-- The error is at the first arrow that stands alone behind the first arrow of its line, and its
column counts the characters up to the first arrow and the columns from there on; so it is the
column of the arrow in characters exactly if what stands between the two takes as many columns as it
has characters. -/
theorem unexpectedArrow_column {source : String}
    (h : readRules source = .error (.unexpectedArrow line column)) :
    1 ≤ line ∧ ∃ text before after mid back,
      (Text.lines source.toList)[line - 1]? = some text ∧ Splits text before after ∧
      FirstLoneArrow after mid back ∧
      column = before.length + 2 + total columns mid + 1 ∧
      (column = (before ++ '-' :: '>' :: mid).length + 1 ↔ total columns mid = mid.length) := by
  obtain ⟨k, text, htext, hfault⟩ := exists_lineFault_of_readLines h
  cases hfault with
  | @laterArrow before after left p hsplits htokens harrow =>
    obtain ⟨mid, back, hfirst, rfl⟩ := firstArrow?_eq_some_iff.1 harrow
    have hmid : '\n' ∉ mid := by
      have hline := Text.notMem_of_mem_lines (List.mem_of_getElem? htext)
      rw [hsplits.text_eq, hfirst.text_eq] at hline
      exact fun hmem => hline (by simp [hmem])
    have hcolumn : (Place.afterAll ⟨0, 0, 0⟩ mid).column = total columns mid :=
      (Place.column_afterAll _ hmid).trans (Nat.zero_add _)
    have hlength : (before ++ '-' :: '>' :: mid).length = before.length + 2 + mid.length := by
      rw [List.length_append, List.length_cons, List.length_cons]
      omega
    refine ⟨Nat.le_add_right 1 k, text, before, after, mid, back, ?_, hsplits, hfirst, ?_, ?_⟩
    · rwa [Nat.add_sub_cancel_left]
    · rw [hcolumn]
    · omega

/-- A tab stands between the two arrows: the second is in column 7, and the error says column 10. -/
def tabbed : String := "S -> \t->"

theorem readRules_tabbed : readRules tabbed = .error (.unexpectedArrow 1 10) := by rfl

theorem unexpectedArrow_column_tabbed : readRules tabbed = .error (.unexpectedArrow 1 10) ∧
    ∃ text before after mid back,
      (Text.lines tabbed.toList)[0]? = some text ∧ Splits text before after ∧
      FirstLoneArrow after mid back ∧
      10 = before.length + 2 + total columns mid + 1 ∧
      (10 = (before ++ '-' :: '>' :: mid).length + 1 ↔ total columns mid = mid.length) :=
  ⟨readRules_tabbed, (unexpectedArrow_column readRules_tabbed).2⟩

/-- The column is not always that of the arrow. -/
theorem unexpectedArrow_column_misplaced :
    ¬ ∀ (source : String) (line column : Nat),
      readRules source = .error (.unexpectedArrow line column) →
      ∀ text before after mid back : List Char,
        (Text.lines source.toList)[line - 1]? = some text → Splits text before after →
        FirstLoneArrow after mid back → column = (before ++ '-' :: '>' :: mid).length + 1 := by
  intro h
  have hsplits : Splits tabbed.toList ['S', ' '] [' ', '\t', '-', '>'] :=
    splitArrow?_eq_some_iff.1 (by decide +kernel)
  have hlone : LoneArrow [' ', '\t', '-', '>'] [' ', '\t'] [] := by
    refine ⟨rfl, fun c hc => ?_, fun c hc => by cases hc⟩
    obtain rfl := Option.some.inj hc
    rfl
  have hfirst : FirstLoneArrow [' ', '\t', '-', '>'] [' ', '\t'] [] := by
    refine { hlone with length_le := fun {mid' back'} hother => ?_ }
    have htext := hother.text_eq
    match mid' with
    | [] => cases htext
    | [c] => cases htext
    | c :: d :: mid' => exact Nat.le_add_left 2 mid'.length
  have hlines : (Text.lines tabbed.toList)[0]? = some tabbed.toList := by decide +kernel
  have hcolumn := h tabbed 1 10 readRules_tabbed _ _ _ _ _ hlines hsplits hfirst
  cases hcolumn

end RuleText

end ShiftReduce
