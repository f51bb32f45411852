import ShiftReduce.Parser
import ShiftReduce.ParseTable.Report

/-!
# Questions about a parser, in terms of symbols

Symbols are given and answered by name.  A question about a symbol that the grammar does not
have, or about a state that there is not, has no answer.
-/

namespace ShiftReduce

/-! ## Views of items and conflicts -/

structure ItemView where
  rule : RuleId
  marker : Nat
  text : String
  lookaheads : List Symbol

/-- The items of a set in order, with their lookaheads as symbols. -/
def ItemSet.views (g : Grammar) (items : ItemSet) : List ItemView :=
  items.entries.map fun (c, lookaheads) =>
    ⟨c.rule, c.marker, c.text g, lookaheads.toList.map g.terminal⟩

structure ConflictView where
  state : StateId
  symbol : Symbol
  actions : List Action

def Conflict.view (g : Grammar) (c : Conflict) : ConflictView := ⟨c.state, g.symbol c.symbol, c.actions⟩

/-! ## First sets -/

namespace FirstSets

variable (f : FirstSets) (g : Grammar)

def askFirst (s : Symbol) : Option (List Symbol) :=
  match g.number? s with
  | some (.nonterminal n) => some ((f.first n).toList.map g.terminal)
  | _ => none

def askFirstOf (seq : List Symbol) : Option (List Symbol) :=
  (seq.mapM g.number?).map fun seq => (f.firstOf seq).toList.map g.terminal

/-- Nonterminals among the lookaheads are left out. -/
def askFirstBefore (seq lookaheads : List Symbol) : Option (List Symbol) :=
  match seq.mapM g.number?, lookaheads.mapM g.number? with
  | some seq, some lookaheads =>
    let terminals := lookaheads.filterMap fun
      | .terminal t => some t
      | .nonterminal _ => none
    some ((f.firstBefore seq (.ofList terminals)).toList.map g.terminal)
  | _, _ => none

end FirstSets

/-! ## States -/

namespace Parser

variable (p : Parser)

def hasState (q : StateId) : Bool := q < p.automaton.size

def askActions (q : StateId) (s : Symbol) : Option (List Action) :=
  match p.grammar.number? s with
  | some x => if p.hasState q then some (p.table.actions q x) else none
  | none => none

def askEdge (q : StateId) (s : Symbol) : Option StateId :=
  (p.grammar.number? s).bind (p.automaton.edge? q)

def askExpected (q : StateId) : Option (List Symbol) :=
  if p.hasState q then some ((p.table.expectedTerminals q).map p.grammar.terminal) else none

def askKernel (q : StateId) : Option (List ItemView) :=
  (p.automaton.nodes[q]?).map (·.kernel.views p.grammar)

def conflicts : List ConflictView := p.table.conflicts.map (·.view p.grammar)

end Parser

end ShiftReduce
