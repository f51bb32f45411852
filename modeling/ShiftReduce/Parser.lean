import ShiftReduce.Configuration

/-!
# Parsers

A parser is a grammar with its First sets, its automaton and its parse table.  `Parser.build`
makes one from rules, `Parser.parse` runs it over tokens.
-/

namespace ShiftReduce

structure Parser where
  grammar : Grammar
  firstSets : FirstSets
  automaton : Automaton
  table : ParseTable

namespace Parser

/-- The parser of a grammar. -/
def ofGrammar (g : Grammar) (mode : MergeMode) : Parser :=
  let firstSets := FirstSets.ofGrammar g
  let automaton := Automaton.ofGrammar g firstSets mode
  { grammar := g, firstSets, automaton, table := .ofAutomaton g automaton }

def build (rules : List Rule) (start : Symbol) (mode : MergeMode) : Except GrammarError Parser :=
  (Grammar.ofRules rules start).map (ofGrammar · mode)

variable {π : Type} (p : Parser)

/-- Parses a list of tokens; the end of input is added here. -/
def parse (tokens : List (Token π)) : Except ParseError (Tree π) :=
  ((Configuration.initial tokens).run p.grammar p.table).getD (.error (.internal .endless))

/-- The moves by which a list of tokens is parsed. -/
def moves (tokens : List (Token π)) : List Configuration.Move :=
  ((Configuration.initial tokens).moves p.grammar p.table).getD []

end Parser

end ShiftReduce
