import ShiftReduce.Symbol

/-!
# Tokens and concrete parse trees

A token is a symbol of the input with an optional payload.  A tree has tokens as leaves and
nonterminals, by name, as nodes; a node without children stands for an empty derivation.

A `Location` is a tree at its place in a larger one: the tree at hand with the frames above it,
from which its parent, its path and its place among its siblings are read.
-/

namespace ShiftReduce

structure Token (π : Type) where
  symbol : Symbol
  payload : Option π

inductive Tree (π : Type) where
  | leaf (token : Token π)
  | node (name : String) (children : List (Tree π))

variable {π : Type}

namespace Tree

def symbol : Tree π → Symbol
  | leaf t => t.symbol
  | node name _ => .nonterminal name

def payload? : Tree π → Option π
  | leaf t => t.payload
  | node _ _ => none

def children : Tree π → List (Tree π)
  | leaf _ => []
  | node _ children => children

/-- Whether the tree is a single terminal. -/
def isLeaf (t : Tree π) : Bool := t.symbol.isTerminal

/-- Whether the tree is a nonterminal derived to the empty string. -/
def isNulled (t : Tree π) : Bool := t.symbol.isNonterminal && t.children.isEmpty

/-! ## The tokens of a tree -/

mutual

/-- The leaves from left to right. -/
def leaves : Tree π → List (Token π)
  | leaf t => [t]
  | node _ children => leavesOfAll children

def leavesOfAll : List (Tree π) → List (Token π)
  | [] => []
  | t :: rest => t.leaves ++ leavesOfAll rest

end

end Tree

/-! ## Places in a tree -/

/-- The node above a place, with the siblings of the place; those on the left nearest first. -/
structure Frame (π : Type) where
  name : String
  left : List (Tree π)
  right : List (Tree π)

/-- A tree and the frames above it, the nearest first. -/
structure Location (π : Type) where
  focus : Tree π
  above : List (Frame π)

namespace Location

def root (t : Tree π) : Location π := ⟨t, []⟩

/-- The place of the node above, of which the tree at hand is a child again. -/
def parent? (l : Location π) : Option (Location π) :=
  match l.above with
  | [] => none
  | f :: above => some ⟨.node f.name (f.left.reverse ++ l.focus :: f.right), above⟩

/-- Whether no sibling follows; the whole tree counts as a last child. -/
def isLastChild (l : Location π) : Bool :=
  match l.above with
  | [] => true
  | f :: _ => f.right.isEmpty

def depth (l : Location π) : Nat := l.above.length

/-- The places among siblings on the way down from the whole tree. -/
def path (l : Location π) : List Nat := (l.above.map fun f => f.left.length).reverse

mutual

/-- The places of a tree and of all trees below it, in preorder, with `above` above all of them. -/
def placesFrom (above : List (Frame π)) : Tree π → List (Location π)
  | .leaf t => [⟨.leaf t, above⟩]
  | .node name children =>
    ⟨.node name children, above⟩ :: placesOfChildren above name [] children

/-- The places of the children of a node that follow the children `left`. -/
def placesOfChildren (above : List (Frame π)) (name : String) (left : List (Tree π)) :
    List (Tree π) → List (Location π)
  | [] => []
  | t :: right =>
    placesFrom (⟨name, left, right⟩ :: above) t ++ placesOfChildren above name (t :: left) right

end

/-- The places at and below a place, in preorder. -/
def preorder (l : Location π) : List (Location π) := placesFrom l.above l.focus

end Location

end ShiftReduce
