/-!
# Sets of characters by their boundaries

A set of code points is written as the ascending list of the places where membership changes:
`[a, b, c]` holds the code points from `a` on and below `b`, and those from `c` on.
-/

namespace ShiftReduce.Text

abbrev CharSet := List Nat

namespace CharSet

/-- Membership of a code point: an odd number of boundaries is not above it. -/
def contains (s : CharSet) (c : Nat) : Bool :=
  s.foldl (fun inside bound => if bound ≤ c then !inside else inside) false

end CharSet

end ShiftReduce.Text
