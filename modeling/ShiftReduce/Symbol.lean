import Std.Data.TreeSet

/-!
# Symbols and production rules

A symbol is a terminal or a nonterminal with a name; the same name may stand for one of each.
Two symbols belong to the generator itself: the terminal `$` that ends every input and the
nonterminal `S'` of the rule that every grammar is augmented with.  Symbols and rules are
ordered so that large rule lists can be searched for repetitions.
-/

namespace ShiftReduce

/-! ## Symbols -/

inductive Symbol where
  | terminal (name : String)
  | nonterminal (name : String)
deriving DecidableEq

namespace Symbol

def name : Symbol → String
  | terminal name => name
  | nonterminal name => name

def isTerminal : Symbol → Bool
  | terminal _ => true
  | nonterminal _ => false

def isNonterminal : Symbol → Bool
  | terminal _ => false
  | nonterminal _ => true

/-- Ends every input; terminal number 0 of every grammar. -/
def endOfInput : Symbol := terminal "$"

/-- The left side of the augmenting rule; nonterminal number 0 of every grammar. -/
def augmentedStart : Symbol := nonterminal "S'"

def isReserved (s : Symbol) : Bool := s = endOfInput || s = augmentedStart

/-- The name, if the symbol is a terminal. -/
def terminalName? : Symbol → Option String
  | terminal name => some name
  | nonterminal _ => none

/-- The name, if the symbol is a nonterminal. -/
def nonterminalName? : Symbol → Option String
  | terminal _ => none
  | nonterminal name => some name

/-- Terminals come before nonterminals, each kind by name. -/
instance : Ord Symbol := ⟨compareLex (compareOn isNonterminal) (compareOn name)⟩

instance : Std.TransOrd Symbol :=
  inferInstanceAs (Std.TransCmp (compareLex (compareOn isNonterminal) (compareOn name)))

instance : Std.LawfulEqOrd Symbol where
  eq_of_compare {a b} h := by
    have h : compareLex (compareOn isNonterminal) (compareOn name) a b = .eq := h
    rw [compareLex_eq_eq] at h
    have hkind : a.isNonterminal = b.isNonterminal := Std.LawfulEqOrd.eq_of_compare h.1
    have hname : a.name = b.name := Std.LawfulEqOrd.eq_of_compare h.2
    cases a <;> cases b <;> simp_all [isNonterminal, name]

end Symbol

/-! ## Rules -/

/-- A production rule: the left side derives the right side. -/
structure Rule where
  left : Symbol
  right : List Symbol
deriving DecidableEq

namespace Rule

/-- The left side, then the right side from left to right. -/
def symbols (r : Rule) : List Symbol := r.left :: r.right

/-- Written as `L -> X Y`, each right-hand symbol after a space. -/
def text (r : Rule) : String :=
  r.left.name ++ " ->" ++ String.join (r.right.map fun s => " " ++ s.name)

/-- The start symbol where none is given: the first left side, or else the nonterminal `S`. -/
def defaultStart : List Rule → Symbol
  | [] => .nonterminal "S"
  | r :: _ => r.left

instance : Ord Rule := ⟨compareLex (compareOn left) (compareOn right)⟩

instance : Std.TransOrd Rule :=
  inferInstanceAs (Std.TransCmp (compareLex (compareOn left) (compareOn right)))

instance : Std.LawfulEqOrd Rule where
  eq_of_compare {a b} h := by
    have h : compareLex (compareOn left) (compareOn right) a b = .eq := h
    rw [compareLex_eq_eq] at h
    have hleft : a.left = b.left := Std.LawfulEqOrd.eq_of_compare h.1
    have hright : a.right = b.right := Std.LawfulEqOrd.eq_of_compare h.2
    cases a; cases b; simp_all

end Rule

end ShiftReduce
