import ShiftReduce.Grammar
import ShiftReduce.OrderedMap
import ShiftReduce.Saturation

/-!
# LR(1) items

An item is a rule with a marker in its right side and a set of lookahead terminals.  Items are
gathered in item sets, which hold each core, that is each rule with marker, once.  Two item sets
are the same when they hold the same cores with the same lookaheads; order plays no part.
-/

namespace ShiftReduce

/-- A rule with a marker: the number of its right-hand symbols recognized so far. -/
structure Core where
  rule : RuleId
  marker : Nat
deriving DecidableEq

namespace Core

variable (g : Grammar) (c : Core)

/-- The symbol right after the marker. -/
def next? : Option SymbolId := (g.right c.rule)[c.marker]?

/-- What follows the symbol after the marker. -/
def rest : List SymbolId := (g.right c.rule).drop (c.marker + 1)

def isComplete : Bool := (g.right c.rule).length ≤ c.marker

def advance : Core := ⟨c.rule, c.marker + 1⟩

/-- The item that starts a rule. -/
def start (r : RuleId) : Core := ⟨r, 0⟩

/-- Written as `(L -> X . Y)`. -/
def text : String :=
  let names := (g.right c.rule).map fun x => " " ++ (g.symbol x).name
  "(" ++ (g.nonterminal (g.left c.rule)).name ++ " ->" ++
    String.join (names.take c.marker ++ " ." :: names.drop c.marker) ++ ")"

instance : Ord Core := ⟨compareLex (compareOn rule) (compareOn marker)⟩

instance : Std.TransOrd Core :=
  inferInstanceAs (Std.TransCmp (compareLex (compareOn rule) (compareOn marker)))

instance : Std.LawfulEqOrd Core where
  eq_of_compare {a b} h := by
    have h : compareLex (compareOn rule) (compareOn marker) a b = .eq := h
    rw [compareLex_eq_eq] at h
    have hrule : a.rule = b.rule := Std.LawfulEqOrd.eq_of_compare h.1
    have hmarker : a.marker = b.marker := Std.LawfulEqOrd.eq_of_compare h.2
    cases a; cases b; simp_all

end Core

/-- Items by their cores, each with its lookaheads. -/
abbrev ItemSet := OrderedMap Core TerminalSet

namespace ItemSet

/-- Every item of `part` is in `items`, with the same lookaheads. -/
def contains (items part : ItemSet) : Bool :=
  part.entries.all fun (c, lookaheads) =>
    match items.find? c with
    | some found => found.sameMembers lookaheads
    | none => false

/-- The same items with the same lookaheads. -/
def same (a b : ItemSet) : Bool := a.contains b && b.contains a

/-- The cores of an item set in ascending order, one list for each set of cores. -/
def sortedCores (items : ItemSet) : List Core := (Std.TreeSet.ofList items.keys).toList

/-- The number of cores and lookaheads, which measures the growth of an item set. -/
def weight (items : ItemSet) : Nat := total (fun e => e.2.size + 1) items.entries

end ItemSet

end ShiftReduce
