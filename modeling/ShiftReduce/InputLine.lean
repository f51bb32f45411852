import ShiftReduce.Text.Blank
import ShiftReduce.Tree

/-! # Input lines: the words of a line as terminals that carry their text -/

namespace ShiftReduce

def Token.ofWord (word : String) : Token String := ⟨.terminal word, some word⟩

def Token.ofLine (line : String) : List (Token String) :=
  (Text.words line.toList).map fun word => .ofWord (String.ofList word)

end ShiftReduce
