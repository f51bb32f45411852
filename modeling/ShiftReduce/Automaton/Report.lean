import ShiftReduce.Automaton
import ShiftReduce.Text.Padded

/-! # The states of an automaton as text -/

namespace ShiftReduce

variable (g : Grammar)

/-- An item with its lookaheads, as a line of a report. -/
def itemLine (item : Core × TerminalSet) : String :=
  "- " ++ item.1.text g ++ "  [" ++
    String.intercalate " " (item.2.toList.map fun t => (g.terminal t).name) ++ "]\n"

def Node.text (node : Node) : String :=
  "#### State " ++ Text.padded '0' node.id ++ "\n## item_sets\n" ++
  String.join (node.items.entries.map (itemLine g)) ++
  "## edges\n" ++
  String.join (node.edges.entries.map fun (x, target) =>
    "- " ++ (g.symbol x).name ++ " => " ++ Text.padded '0' target ++ "\n")

def Automaton.text (a : Automaton) : String :=
  String.intercalate "\n" (a.nodes.toList.map (Node.text g))

end ShiftReduce
