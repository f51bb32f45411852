import ShiftReduce.Grammar
import ShiftReduce.Text.Padded

/-! # The rules and symbols of a grammar as text -/

namespace ShiftReduce.Grammar

variable (g : Grammar)

def productionText (p : Production) : String :=
  (g.nonterminal p.left).name ++ " ->" ++
    String.join (p.right.map fun x => " " ++ (g.symbol x).name)

def rulesText : String :=
  "## rules:\n" ++ String.join
    (g.rules.toList.zipIdx.map fun (r, i) => Text.padded ' ' i ++ ": " ++ r.text ++ "\n")

def symbolsText : String :=
  "## terminals:\n" ++
  String.join ((List.range g.terminals.size).map fun t => (g.terminal t).name ++ "\n") ++
  "\n## nonterminals:\n" ++
  String.join ((List.range g.nonterminals.size).map fun n =>
    (g.nonterminal n).name ++ (if n = g.start then " (start)" else "") ++ "\n")

end ShiftReduce.Grammar
