import ShiftReduce.ParseTable

/-! # A parse table as comma-separated text, followed by its conflicts -/

namespace ShiftReduce

variable (g : Grammar)

/-- A conflict in words, as reports and messages put it. -/
def Conflict.text (c : Conflict) : String :=
  "state " ++ toString c.state ++ " on `" ++ (g.symbol c.symbol).name ++ "': " ++
    actionsText c.actions

namespace ParseTable

/-- The line of one state: its number, then a field for each symbol of the grammar. -/
def rowLine (symbols : List SymbolId) (row : Row) (q : StateId) : String :=
  toString q ++
    String.join (symbols.map fun x => "," ++ actionsText ((row.find? x).getD [])) ++ "\n"

def text (t : ParseTable) : String :=
  let symbols := g.symbolIds
  let conflicts := t.conflicts
  "state" ++ String.join (symbols.map fun x => "," ++ (g.symbol x).name) ++ "\n" ++
  String.join (t.rows.toList.zipIdx.map fun (row, q) => rowLine symbols row q) ++
  if conflicts.isEmpty then ""
  else "\n## conflicts:\n" ++ String.join (conflicts.map fun c => "- " ++ c.text g ++ "\n")

end ParseTable

end ShiftReduce
