/-! # Numbers padded to two places, as reports line them up -/

namespace ShiftReduce.Text

/-- The decimal digits of a number, with `pad` in front of a single digit. -/
def padded (pad : Char) (n : Nat) : String :=
  if n < 10 then String.singleton pad ++ toString n else toString n

end ShiftReduce.Text
