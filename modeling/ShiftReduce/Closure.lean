import ShiftReduce.FirstSets
import ShiftReduce.Item

/-!
# Closure and transitions of item sets

An item with a nonterminal `Y` after its marker asks for the rules of `Y`, each with the
terminals that may follow `Y` there; the closure of an item set holds all that is asked for.
Advancing the marker of every item over a symbol gives the kernel to which that symbol leads.
-/

namespace ShiftReduce

variable (g : Grammar) (f : FirstSets)

/-- What an item asks for.  A rule is asked for also when no terminal can follow it. -/
def demands (c : Core) (lookaheads : TerminalSet) :
    List (Core × TerminalSet) :=
  match c.next? g with
  | some (.nonterminal y) =>
    let follow := f.firstBefore (c.rest g) lookaheads
    (g.productionsOf y).map fun p => (Core.start p.id, follow)
  | _ => []

/-- Adds lookaheads to a core, and the core where it is new. -/
def addItem (items : ItemSet) (item : Core × TerminalSet) : ItemSet :=
  match items.find? item.1 with
  | none => items.insert item.1 item.2
  | some old => if item.2.subset old then items else items.insert item.1 (old.union item.2)

/-- One pass: adds what the items ask for as they stand before the pass. -/
def closurePass (items : ItemSet) : ItemSet :=
  (items.entries.flatMap fun (c, lookaheads) => demands g f c lookaheads).foldl addItem items

/-- The closure of an item set.  Only the starts of rules are added as cores, and as lookaheads only
terminals of the grammar and lookaheads that are there, which bounds the passes. -/
def closure (items : ItemSet) : ItemSet :=
  let cores := items.size + g.productions.size
  let lookaheads := g.terminals.size + items.weight
  saturate (closurePass g f) ItemSet.weight (cores * (lookaheads + 1) + 1) items

/-- Puts an item under the symbol after its marker, advanced over that symbol. -/
def addTransition (transitions : OrderedMap SymbolId ItemSet)
    (item : Core × TerminalSet) : OrderedMap SymbolId ItemSet :=
  match item.1.next? g with
  | none => transitions
  | some x => transitions.upsert x fun old => (old.getD .empty).insert item.1.advance item.2

/-- The kernels to which an item set leads, by symbol in order of first appearance. -/
def transitions (items : ItemSet) : OrderedMap SymbolId ItemSet :=
  items.entries.foldl (addTransition g) .empty

end ShiftReduce
