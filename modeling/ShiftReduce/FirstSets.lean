import ShiftReduce.Grammar
import ShiftReduce.Saturation

/-!
# Nullable nonterminals and First sets

A nonterminal is nullable when it derives the empty string, and its First set holds the
terminals that begin a string derived from it.  Both are least sets closed under the rules, and
both are reached by passes over the rules in order in which every rule sees what the rules before
it have added; members are listed in the order in which they were added.
-/

namespace ShiftReduce

/-- The nullable nonterminals, and for each nonterminal by its number its First set. -/
structure FirstSets where
  nulls : NonterminalSet
  sets : Array TerminalSet

/-! ## Nullable nonterminals -/

/-- A right side is nullable when it holds nullable nonterminals only. -/
def nullableRight (nulls : NonterminalSet) (right : List SymbolId) : Bool :=
  right.all fun
    | .terminal _ => false
    | .nonterminal n => n ∈ nulls

/-- One pass over the rules: the left side of a rule whose right side is nullable is added. -/
def nullPass (g : Grammar) (nulls : NonterminalSet) : NonterminalSet :=
  g.productions.foldl (fun s p => if nullableRight s p.right then s.insert p.left else s) nulls

/-- Grows a set of nullable nonterminals to all of them, and tells whether it grew.  A pass that
is not the last adds the left side of some rule, so one pass more than there are rules is enough. -/
def expandNulls (g : Grammar) (nulls : NonterminalSet) :
    NonterminalSet × Bool :=
  let all := saturate (nullPass g) OrderedSet.size (g.productions.size + 1) nulls
  (all, nulls.size < all.size)

/-! ## First sets -/

/-- Adds the terminals that begin a string derived from `seq` to `s`, and tells whether all of
`seq` is nullable. -/
def addFirst (nulls : NonterminalSet) (sets : Array TerminalSet) :
    List SymbolId → TerminalSet → TerminalSet × Bool
  | [], s => (s, true)
  | .terminal t :: _, s => (s.insert t, false)
  | .nonterminal n :: rest, s =>
    let s := s.union (sets.getD n .empty)
    if n ∈ nulls then addFirst nulls sets rest s else (s, false)

/-- One pass over the rules: what begins the right side of a rule is added to its left side. -/
def firstPass (g : Grammar) (nulls : NonterminalSet)
    (sets : Array TerminalSet) : Array TerminalSet :=
  g.productions.foldl (fun sets p =>
    let added := (addFirst nulls sets p.right .empty).1
    sets.modify p.left (·.union added)) sets

/-- The number of members of all sets together. -/
def totalSize (sets : Array TerminalSet) : Nat := total OrderedSet.size sets.toList

namespace FirstSets

/-- The sets of a grammar.  No First set holds more than all terminals, which bounds the passes. -/
def ofGrammar (g : Grammar) : FirstSets :=
  let nulls := (expandNulls g .empty).1
  let none := Array.replicate g.nonterminals.size OrderedSet.empty
  let sets := saturate (firstPass g nulls) totalSize
    (g.nonterminals.size * g.terminals.size + 1) none
  { nulls, sets }

variable (f : FirstSets)

def isNullable : SymbolId → Bool
  | .terminal _ => false
  | .nonterminal n => n ∈ f.nulls

/-- The First set of a nonterminal. -/
def first (n : NonterminalId) : TerminalSet := f.sets.getD n .empty

/-- The terminals that begin a string derived from a sequence of symbols. -/
def firstOf (seq : List SymbolId) : TerminalSet :=
  (addFirst f.nulls f.sets seq .empty).1

/-- The terminals that begin a string derived from `seq` followed by one of the lookaheads: the
lookaheads themselves count when `seq` is nullable. -/
def firstBefore (seq : List SymbolId) (lookaheads : TerminalSet) : TerminalSet :=
  match addFirst f.nulls f.sets seq .empty with
  | (s, true) => s.union lookaheads
  | (s, false) => s

/-! ## As text -/

def text (g : Grammar) : String :=
  "## nulls:\n" ++ String.intercalate ", " (f.nulls.toList.map fun n => (g.nonterminal n).name) ++
  "\n\n## first sets:\n" ++
  String.join (f.sets.toList.zipIdx.map fun (s, n) =>
    (g.nonterminal n).name ++ " : " ++
      String.intercalate ", " (s.toList.map fun t => (g.terminal t).name) ++ "\n")

end FirstSets

end ShiftReduce
