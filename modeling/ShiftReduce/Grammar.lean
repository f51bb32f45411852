import Std.Data.TreeMap
import ShiftReduce.Numbering
import ShiftReduce.OrderedSet
import ShiftReduce.Grammar.Validity

/-!
# Augmented, numbered grammars

`Grammar.ofRules` refuses a rule list or turns it into a `Grammar`: the rules with the rule
`S' -> start` in front, and the same rules over numbers.  Terminals, nonterminals and rules are
numbered apart, each from 0 in order of first appearance, so terminal 0 is `$`, nonterminal 0 is
`S'` and rule 0 is the augmenting rule.
-/

namespace ShiftReduce

abbrev TerminalId := Nat

abbrev NonterminalId := Nat

abbrev RuleId := Nat

abbrev TerminalSet := OrderedSet

abbrev NonterminalSet := OrderedSet

/-- A symbol by its number among the symbols of its kind. -/
inductive SymbolId where
  | terminal (id : TerminalId)
  | nonterminal (id : NonterminalId)
deriving DecidableEq

/-- The number of the end of input. -/
def endOfInputId : TerminalId := 0

/-- The number of the augmenting rule. -/
def acceptId : RuleId := 0

/-- A rule over numbers; its own number is its place in the grammar. -/
structure Production where
  id : RuleId
  left : NonterminalId
  right : List SymbolId
deriving DecidableEq

/-- Rules by their left sides, each list in order. -/
def groupByLeft (productions : List Production) : Std.TreeMap NonterminalId (List Production) :=
  productions.foldr (fun p groups => groups.insert p.left (p :: groups.getD p.left [])) ∅

theorem getD_groupByLeft (productions : List Production) (n : NonterminalId) :
    (groupByLeft productions).getD n [] = productions.filter (·.left = n) := by
  induction productions with
  | nil => simp [groupByLeft]
  | cons p rest ih =>
    have hcons : groupByLeft (p :: rest) =
        (groupByLeft rest).insert p.left (p :: (groupByLeft rest).getD p.left []) := rfl
    rw [hcons, Std.TreeMap.getD_insert, List.filter_cons]
    by_cases h : p.left = n
    · subst h
      simp [ih]
    · have hcompare : compare p.left n ≠ .eq := fun e => h (Std.LawfulEqOrd.eq_of_compare e)
      simp [ih, h, hcompare]

structure Grammar where
  terminals : Numbering
  nonterminals : Numbering
  rules : Array Rule
  productions : Array Production
  start : NonterminalId
  byLeft : Std.TreeMap NonterminalId (List Production) := groupByLeft productions.toList
  byLeft_eq : byLeft = groupByLeft productions.toList := by rfl

namespace Grammar

/-- There are at most this many symbols of one kind, so that 16 bits number them. -/
def symbolLimit : Nat := 65535

/-- There are at most this many rules, so that 16 bits number them. -/
def ruleLimit : Nat := 65536

/-! ## Construction -/

/-- The number of a symbol in two numberings, one for each kind. -/
def numberIn? (terminals nonterminals : Numbering) : Symbol → Option SymbolId
  | .terminal name => (terminals.number? name).map .terminal
  | .nonterminal name => (nonterminals.number? name).map .nonterminal

/-- The rule over numbers.  Every symbol of a rule of the grammar is numbered, so nothing is
dropped from a right side and the left side keeps its number. -/
def resolve (terminals nonterminals : Numbering) (id : RuleId) (r : Rule) : Production where
  id := id
  left := (nonterminals.number? r.left.name).getD 0
  right := r.right.filterMap (numberIn? terminals nonterminals)

def ofRules (rules : List Rule) (start : Symbol) : Except GrammarError Grammar :=
  match Rule.defect? rules start with
  | some cause => .error cause
  | none =>
    let all := Rule.augmenting start :: rules
    let symbols := all.flatMap Rule.symbols
    let terminals := Numbering.ofList (Symbol.endOfInput.name :: symbols.filterMap Symbol.terminalName?)
    let nonterminals := Numbering.ofList (symbols.filterMap Symbol.nonterminalName?)
    if terminals.size > symbolLimit || nonterminals.size > symbolLimit || all.length > ruleLimit then
      .error .tooLarge
    else
      .ok {
        terminals
        nonterminals
        rules := all.toArray
        productions := all.toArray.mapIdx (resolve terminals nonterminals)
        start := (nonterminals.number? start.name).getD 0 }

/-! ## Symbols and numbers -/

variable (g : Grammar)

/-- Every symbol by its number, terminals first. -/
def symbolIds : List SymbolId :=
  (List.range g.terminals.size).map .terminal ++ (List.range g.nonterminals.size).map .nonterminal

def symbol? : SymbolId → Option Symbol
  | .terminal t => (g.terminals.name? t).map .terminal
  | .nonterminal n => (g.nonterminals.name? n).map .nonterminal

/-- The number of a symbol that occurs in the grammar. -/
def number? : Symbol → Option SymbolId := numberIn? g.terminals g.nonterminals

def terminal (t : TerminalId) : Symbol := .terminal ((g.terminals.name? t).getD "")

def nonterminal (n : NonterminalId) : Symbol := .nonterminal ((g.nonterminals.name? n).getD "")

def symbol : SymbolId → Symbol
  | .terminal t => g.terminal t
  | .nonterminal n => g.nonterminal n

/-! ## Rules -/

/-- The right side of a rule by its number; no rule, no symbols. -/
def right (r : RuleId) : List SymbolId := ((g.productions[r]?).map (·.right)).getD []

/-- The left side of a rule by its number. -/
def left (r : RuleId) : NonterminalId := ((g.productions[r]?).map (·.left)).getD 0

/-- The rules of a nonterminal, in order. -/
def productionsOf (n : NonterminalId) : List Production := g.byLeft.getD n []

theorem productionsOf_eq_filter (n : NonterminalId) :
    g.productionsOf n = g.productions.toList.filter (·.left = n) := by
  rw [productionsOf, g.byLeft_eq, getD_groupByLeft]

/-- The nonterminals that stand on some right side and have no rule. -/
def withoutRules : List NonterminalId :=
  (List.range g.nonterminals.size).filter fun n => (g.productionsOf n).isEmpty

end Grammar

end ShiftReduce
