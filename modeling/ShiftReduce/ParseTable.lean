import ShiftReduce.Automaton

/-!
# The parse table

A row for each state, with a cell for each symbol of the grammar; a cell lists the actions that
the state offers on the symbol.  First come the edges of the state, a shift on a terminal and a
goto on a nonterminal, then for each completed item, in order, its reduction on each of its
lookaheads.  A cell with more than one action is a conflict.
-/

namespace ShiftReduce

inductive Action where
  /-- Moves the next token to the stack and enters a state. -/
  | shift (state : StateId)
  /-- Gathers the right side of a rule into its left side. -/
  | reduce (rule : RuleId)
  /-- Enters a state over a nonterminal that was just gathered. -/
  | goto (state : StateId)
  | accept
deriving DecidableEq

def Action.text : Action → String
  | shift q => "s" ++ toString q
  | reduce r => "r" ++ toString r
  | goto q => "g" ++ toString q
  | accept => "acc"

/-- The actions of one state, by symbol. -/
abbrev Row := OrderedMap SymbolId (List Action)

/-- A cell that offers more than one action. -/
structure Conflict where
  state : StateId
  symbol : SymbolId
  actions : List Action
deriving DecidableEq

structure ParseTable where
  rows : Array Row

/-- Actions that compete for a cell, as reports list them. -/
def actionsText (actions : List Action) : String :=
  String.intercalate "/" (actions.map Action.text)

/-! ## Construction -/

namespace Row

/-- A row with an empty cell for each symbol of the grammar. -/
def blank (g : Grammar) : Row := g.symbolIds.foldl (·.insert · []) .empty

/-- Adds an action at the end of a cell. -/
def push (row : Row) (x : SymbolId) (action : Action) : Row :=
  row.upsert x fun old => old.getD [] ++ [action]

def pushEdge (row : Row) (edge : SymbolId × StateId) : Row :=
  row.push edge.1 <| match edge.1 with
    | .terminal _ => .shift edge.2
    | .nonterminal _ => .goto edge.2

/-- A completed item offers its reduction on each of its lookaheads; the augmenting rule accepts. -/
def pushItem (g : Grammar) (row : Row) (item : Core × TerminalSet) : Row :=
  if item.1.isComplete g then
    let action := if item.1.rule = acceptId then .accept else .reduce item.1.rule
    item.2.toList.foldl (fun row t => row.push (.terminal t) action) row
  else row

def ofNode (g : Grammar) (blank : Row) (node : Node) : Row :=
  node.items.entries.foldl (pushItem g) (node.edges.entries.foldl pushEdge blank)

/-- The cells with more than one action, in the order of the row. -/
def conflicts (row : Row) (state : StateId) : List Conflict :=
  row.entries.filterMap fun (x, actions) =>
    if actions.length > 1 then some ⟨state, x, actions⟩ else none

/-- The terminals on which there is an action, in the order of the row. -/
def expected (row : Row) : List TerminalId :=
  row.entries.filterMap fun
    | (.terminal t, _ :: _) => some t
    | _ => none

end Row

namespace ParseTable

def ofAutomaton (g : Grammar) (a : Automaton) : ParseTable :=
  let blank := Row.blank g
  ⟨a.nodes.map (Row.ofNode g blank)⟩

variable (t : ParseTable)

/-! ## Reading -/

/-- The actions of a cell; no cell, no actions. -/
def actions (q : StateId) (x : SymbolId) : List Action :=
  ((t.rows[q]?).bind (·.find? x)).getD []

def conflicts : List Conflict := t.rows.toList.zipIdx.flatMap fun (row, q) => row.conflicts q

def hasConflicts : Bool := !t.conflicts.isEmpty

/-- The terminals on which a state has an action. -/
def expectedTerminals (q : StateId) : List TerminalId := ((t.rows[q]?).map Row.expected).getD []

end ParseTable

end ShiftReduce
