import ShiftReduce.Text.Width

/-!
# Tokens of a rule line

A bar is a token of its own, and every maximal run of characters that are neither bars nor one of
the four separators is a token: an arrow if it is exactly `->`, and a symbol otherwise.  Each
token is given with the places at which it starts and ends.
-/

namespace ShiftReduce.RuleText

/-! ## Places -/

/-- A place in a text: line and column from 0, and the number of bytes before it. -/
structure Place where
  line : Nat
  column : Nat
  byte : Nat
deriving DecidableEq

/-- The place after a character: a tab takes four columns. -/
def Place.after (p : Place) (c : Char) : Place :=
  let byte := p.byte + c.utf8Size
  if c = '\n' then ⟨p.line + 1, 0, byte⟩
  else if c = '\t' then ⟨p.line, p.column + 4, byte⟩
  else ⟨p.line, p.column + Text.width c, byte⟩

/-! ## Tokens -/

inductive Token where
  | arrow
  | bar
  | symbol (text : String)
deriving DecidableEq

/-- The token of a run of symbol characters. -/
def Token.ofRun (run : List Char) : Token :=
  if run = ['-', '>'] then .arrow else .symbol (String.ofList run)

/-- A token between two places. -/
structure Spanned where
  start : Place
  token : Token
  stop : Place
deriving DecidableEq

def isSeparator (c : Char) : Bool := c = ' ' || c = '\t' || c = '\r' || c = '\n'

/-- A run of symbol characters in the making: where it starts, and its characters, last first. -/
structure Run where
  start : Place
  reversed : List Char

/-- The token of a run that ends at a place, if there is a run. -/
def Run.finish (run : Option Run) (stop : Place) : List Spanned :=
  match run with
  | none => []
  | some r => [⟨r.start, .ofRun r.reversed.reverse, stop⟩]

/-- The tokens of a text that starts at `p`, where `run` has been read right before it. -/
def lexFrom (p : Place) (run : Option Run) : List Char → List Spanned
  | [] => Run.finish run p
  | c :: rest =>
    let next := p.after c
    if isSeparator c then Run.finish run p ++ lexFrom next none rest
    else if c = '|' then Run.finish run p ++ ⟨p, .bar, next⟩ :: lexFrom next none rest
    else
      match run with
      | none => lexFrom next (some ⟨p, [c]⟩) rest
      | some r => lexFrom next (some ⟨r.start, c :: r.reversed⟩) rest

def lex (text : List Char) : List Spanned := lexFrom ⟨0, 0, 0⟩ none text

end ShiftReduce.RuleText
