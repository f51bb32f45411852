import ShiftReduce.Text.CharSet

/-!
# Blank characters: the property `White_Space`

Words of an input line are separated by blanks, and a line of blanks counts as empty.  There are
more blanks than the four characters that separate the symbols of a rule.
-/

namespace ShiftReduce.Text

def blanks : CharSet := [
  0x9, 0xE, 0x20, 0x21, 0x85, 0x86, 0xA0, 0xA1, 0x1680, 0x1681, 0x2000, 0x200B, 0x2028, 0x202A,
  0x202F, 0x2030, 0x205F, 0x2060, 0x3000, 0x3001]

def isBlank (c : Char) : Bool := blanks.contains c.toNat

theorem isBlank_of_isWhitespace {c : Char} (h : c.isWhitespace = true) : isBlank c = true := by
  simp only [Char.isWhitespace, Bool.or_eq_true, decide_eq_true_eq] at h
  rcases h with ((rfl | rfl) | rfl) | rfl <;> decide

/-- The maximal runs of characters that are not blank. -/
def words : List Char → List (List Char)
  | [] => []
  | c :: rest =>
    if isBlank c then words rest
    else
      match rest with
      | [] => [[c]]
      | d :: _ =>
        if isBlank d then [c] :: words rest
        else
          match words rest with
          | [] => [[c]]
          | w :: ws => (c :: w) :: ws

end ShiftReduce.Text
