import ShiftReduce.Parser
import ShiftReduce.ParseTable.Report

/-!
# What building and running a parser logs

The events of a build tell the size of the grammar, the number of nullable nonterminals, the
passes of the automaton, its states, and every conflict of the table; those of a run tell its
moves.
-/

namespace ShiftReduce

inductive Severity where
  | trace
  | debug
  | warn

def Severity.text : Severity → String
  | trace => "TRACE"
  | debug => "DEBUG"
  | warn => "WARN"

structure Event where
  severity : Severity
  message : String

def Event.text (e : Event) : String := e.severity.text ++ " " ++ e.message

/-- Logged when a rule text was read. -/
def Event.rulesRead (rules : List Rule) : Event :=
  ⟨.trace, "read " ++ toString rules.length ++ " rule(s)"⟩

namespace Parser

def grammarEvent (g : Grammar) : Event :=
  ⟨.debug, "grammar: " ++ toString g.rules.size ++ " rules, " ++ toString g.terminals.size ++
    " terminals, " ++ toString g.nonterminals.size ++ " nonterminals"⟩

def automatonEvents (a : Automaton) : List Event :=
  (a.passes.zipIdx 1).map (fun (pending, pass) =>
    ⟨.trace, "pass " ++ toString pass ++ ": " ++ toString pending ++ " pending state(s)"⟩) ++
  [⟨.debug, toString a.size ++ " state(s)"⟩]

def tableEvents (g : Grammar) (t : ParseTable) : List Event :=
  let conflicts := t.conflicts
  conflicts.map (fun c => ⟨.warn, "conflict in " ++ c.text g⟩) ++
  if conflicts.isEmpty then []
  else [⟨.warn, "the parse table has " ++ toString conflicts.length ++ " conflicting cell(s)"⟩]

/-- The events of building a parser, in order. -/
def buildEvents (p : Parser) : List Event :=
  grammarEvent p.grammar ::
  ⟨.debug, toString p.firstSets.nulls.size ++ " nullable nonterminal(s)"⟩ ::
  (automatonEvents p.automaton ++ tableEvents p.grammar p.table)

/-- The event of one move of a run. -/
def moveEvent (m : Configuration.Move) : Event :=
  ⟨.trace, "state " ++ toString m.state ++ ", lookahead `" ++ m.found.name ++ "': " ++
    m.action.text⟩

end Parser

end ShiftReduce
