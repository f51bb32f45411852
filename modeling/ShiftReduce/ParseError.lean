import ShiftReduce.ParseTable

/-!
# Why a run of a parse table fails

The input may hold a symbol that is no terminal of the grammar, or a terminal that nothing
accepts at its place; the table may offer several actions.  Positions count the symbols of the
input from 1.  All else would be a fault of the table.
-/

namespace ShiftReduce

/-- Faults of a table that is not the table of the grammar, or that merges states too freely. -/
inductive Fault where
  | noState
  | queueExhausted
  | shiftedNonToken
  | stackTooShort
  | gotoWithoutReduced
  | leftovers
  | endless
deriving DecidableEq

inductive ParseError where
  | undefinedSymbol (position : Nat) (symbol : Symbol)
  | unexpected (position : Nat) (found : Symbol) (expected : List Symbol)
  | conflict (position : Nat) (state : StateId) (symbol : Symbol) (actions : List Action)
  | internal (fault : Fault)
deriving DecidableEq

def Fault.message : Fault → String
  | noState => "the state stack is empty"
  | queueExhausted => "the input queue is exhausted"
  | shiftedNonToken => "shifted a non-token input"
  | stackTooShort => "the stack is shorter than the reduced rule"
  | gotoWithoutReduced => "goto without a reduced nonterminal"
  | leftovers => "accepted with unconsumed input or stacked symbols"
  | endless => "the run does not end"

def ParseError.message : ParseError → String
  | undefinedSymbol p s =>
    "symbol #" ++ toString p ++ " `" ++ s.name ++ "' is not defined in the grammar"
  | unexpected p found expected =>
    "syntax error at symbol #" ++ toString p ++ " `" ++ found.name ++ "': " ++
    if expected.isEmpty then "no terminal is acceptable here"
    else "expected " ++ String.intercalate ", " (expected.map Symbol.name)
  | conflict p q s actions =>
    "conflicting actions " ++ actionsText actions ++ " in state " ++ toString q ++
    " at symbol #" ++ toString p ++ " `" ++ s.name ++ "'"
  | internal fault => "internal error: " ++ fault.message

end ShiftReduce
