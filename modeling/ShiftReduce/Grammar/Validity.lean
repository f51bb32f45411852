import ShiftReduce.Symbol

/-!
# Which rule lists are refused, and why

A rule list with a start symbol is refused for the first of these causes that holds:

* a reserved symbol is used, as the start or in a rule;
* no rule has the start symbol on its left side;
* some left side is a terminal;
* some rule repeats an earlier one;
* some nonterminal is on no right side, or only on right sides of its own rules; the augmenting
  rule counts as a rule that has the start symbol on its right side.

Where a cause can hold at several places, the first place in reading order is reported.  Sizes
are checked later, once the symbols are numbered.
-/

namespace ShiftReduce

inductive GrammarError where
  | missingStartRule (symbol : Symbol)
  | terminalOnLeft (rule : Rule)
  | duplicateRule (rule : Rule)
  | unproduced (symbol : Symbol)
  | selfProducedOnly (symbol : Symbol)
  | reservedSymbol (symbol : Symbol)
  | tooLarge
deriving DecidableEq

def GrammarError.message : GrammarError → String
  | missingStartRule s => "no rule has the start symbol `" ++ s.name ++ "' on its left side"
  | terminalOnLeft r => "the left side of the rule `" ++ r.text ++ "' is a terminal symbol"
  | duplicateRule r => "duplicate production rule `" ++ r.text ++ "'"
  | unproduced s => "the nonterminal `" ++ s.name ++ "' is not produced by any rule"
  | selfProducedOnly s => "the nonterminal `" ++ s.name ++ "' is only produced by its own rules"
  | reservedSymbol s => "the symbol `" ++ s.name ++ "' is reserved"
  | tooLarge => "too many symbols or rules in the grammar"

namespace Rule

/-- The rule `S' -> start` that a grammar is augmented with. -/
def augmenting (start : Symbol) : Rule := ⟨.augmentedStart, [start]⟩

/-! ## The single causes -/

def reserved? (rules : List Rule) (start : Symbol) : Option Symbol :=
  (start :: rules.flatMap symbols).find? Symbol.isReserved

/-- The first rule that equals a rule before it or in `seen`. -/
def repetitionAfter? (seen : Std.TreeSet Rule) : List Rule → Option Rule
  | [] => none
  | r :: rest => if seen.contains r then some r else repetitionAfter? (seen.insert r) rest

def repetition? (rules : List Rule) : Option Rule := repetitionAfter? ∅ rules

/-- The first nonterminal of the rules that no rule, or none but its own rules, has on the right. -/
def unsupported? (rules : List Rule) (start : Symbol) : Option GrammarError :=
  let all := augmenting start :: rules
  let produced : Std.TreeSet Symbol := .ofList (all.flatMap right)
  let byOthers : Std.TreeSet Symbol := .ofList (all.flatMap fun r => r.right.filter (· ≠ r.left))
  (rules.flatMap symbols).findSome? fun s =>
    if s.isTerminal then none
    else if !produced.contains s then some (.unproduced s)
    else if !byOthers.contains s then some (.selfProducedOnly s)
    else none

/-! ## All causes in order -/

/-- The first cause, sizes apart, for which the rules are refused. -/
def defect? (rules : List Rule) (start : Symbol) : Option GrammarError :=
  ((reserved? rules start).map .reservedSymbol)
  <|> (if rules.any (·.left = start) then none else some (.missingStartRule start))
  <|> ((rules.find? (·.left.isTerminal)).map .terminalOnLeft)
  <|> ((repetition? rules).map .duplicateRule)
  <|> unsupported? rules start

end Rule

end ShiftReduce
