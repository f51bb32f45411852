import ShiftReduce.Tree

/-!
# Three renderings of a tree

* flat: `S(A(a) b)`, where every nonterminal has parentheses;
* simple: the terminals only, `((a a) b)`, where a nonterminal with more than one non-empty part
  has parentheses;
* layered: a node a line, with guides to the nodes above it:

      S
       |- A => null
       `- B
           `- b

A layered rendering starts at any place of a tree.  The guides of a line are found by climbing
from its place towards the place at which the rendering starts.
-/

namespace ShiftReduce

variable {π : Type}

namespace Tree

/-! ## Flat and simple -/

mutual

def flat : Tree π → String
  | leaf t => t.symbol.name
  | node name children => name ++ "(" ++ String.intercalate " " (flatAll children) ++ ")"

def flatAll : List (Tree π) → List String
  | [] => []
  | t :: rest => t.flat :: flatAll rest

end

/-- Puts the non-empty parts of a node together. -/
def bracket (parts : List String) : String :=
  match parts.filter (· ≠ "") with
  | [] => ""
  | [part] => part
  | parts => "(" ++ String.intercalate " " parts ++ ")"

mutual

def simple : Tree π → String
  | leaf t => t.symbol.name
  | node _ children => bracket (simpleAll children)

def simpleAll : List (Tree π) → List String
  | [] => []
  | t :: rest => t.simple :: simpleAll rest

end

end Tree

/-! ## Layered -/

namespace Location

/-- The guides of `count` places from `l` upwards, the lowest first. -/
def guidesUpward : Nat → Option (Location π) → List String
  | 0, _ => []
  | _, none => []
  | count + 1, some l => (if l.isLastChild then "    " else " |  ") :: guidesUpward count l.parent?

/-- The line of a place that is `depth` below the place at which the rendering starts. -/
def line (depth : Nat) (l : Location π) : String :=
  if depth = 0 then l.focus.symbol.name
  else
    String.join (guidesUpward (depth - 1) l.parent?).reverse ++
    (if l.isLastChild then " `- " else " |- ") ++ l.focus.symbol.name ++
    (if l.focus.isNulled then " => null" else "")

def layered (l : Location π) : String :=
  String.intercalate "\n" (l.preorder.map fun m => m.line (m.depth - l.depth))

end Location

def Tree.layered (t : Tree π) : String := (Location.root t).layered

end ShiftReduce
