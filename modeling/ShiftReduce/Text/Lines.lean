/-!
# Lines of a text

A line ends at a line feed, or at a carriage return with a line feed; a carriage return alone is
a character of its line.  Nothing follows the last line feed unless it is not empty.
-/

namespace ShiftReduce.Text

def lines : List Char → List (List Char)
  | [] => []
  | '\n' :: rest => [] :: lines rest
  | '\r' :: '\n' :: rest => [] :: lines rest
  | c :: rest =>
    match lines rest with
    | [] => [[c]]
    | l :: ls => (c :: l) :: ls

end ShiftReduce.Text
