import ShiftReduce.RuleText.Token
import ShiftReduce.Symbol
import ShiftReduce.Text.Blank
import ShiftReduce.Text.Lines

/-!
# Reading rules

Each line holds the alternatives of one nonterminal, `L -> X Y | Z |`; blank lines and lines that
begin with `#` are skipped.  The first `->` of a line ends its left side, so it may touch the
symbols around it.  A symbol is a nonterminal if its name starts with an ASCII capital.
-/

namespace ShiftReduce.RuleText

/-! ## Errors -/

/-- Why a file gives no text. -/
inductive FileError where
  | notFound
  | permissionDenied
  | isDirectory
  | notDirectory
  | nameTooLong
  | notUtf8
  | other (message : String)
deriving DecidableEq

inductive ReadError where
  | missingLeft (line : Nat)
  | missingArrow (line : Nat) (left : String)
  | unexpectedArrow (line column : Nat)
  | file (cause : FileError)
deriving DecidableEq

def FileError.message : FileError → String
  | notFound => "No such file or directory (os error 2)"
  | permissionDenied => "Permission denied (os error 13)"
  | isDirectory => "Is a directory (os error 21)"
  | notDirectory => "Not a directory (os error 20)"
  | nameTooLong => "File name too long (os error 36)"
  | notUtf8 => "stream did not contain valid UTF-8"
  | other message => message

def ReadError.message : ReadError → String
  | missingLeft line => "line " ++ toString line ++ ": missing the left-hand side symbol"
  | missingArrow line left =>
    "line " ++ toString line ++ ": expected `->' after `" ++ left ++ "'"
  | unexpectedArrow line column =>
    "line " ++ toString line ++ ", column " ++ toString column ++ ": unexpected `->'"
  | file cause => "IO error: " ++ cause.message

/-! ## One line -/

/-- The symbol of a name. -/
def classify (name : String) : Symbol :=
  match name.toList with
  | c :: _ => if 'A' ≤ c ∧ c ≤ 'Z' then .nonterminal name else .terminal name
  | [] => .terminal name

/-- What stands before and after the first `->`. -/
def splitArrow? : List Char → Option (List Char × List Char)
  | [] => none
  | '-' :: '>' :: rest => some ([], rest)
  | c :: rest => (splitArrow? rest).map fun (before, after) => (c :: before, after)

/-- The left-hand symbol: the one token before the arrow. -/
def leftOf (line : Nat) (tokens : List Spanned) : Except ReadError Symbol :=
  match tokens.map Spanned.token with
  | [.symbol name] => .ok (classify name)
  | .symbol name :: _ => .error (.missingArrow line name)
  | _ => .error (.missingLeft line)

/-- The names between the bars, in order. -/
def alternatives : List Token → List (List String)
  | [] => [[]]
  | .bar :: rest => [] :: alternatives rest
  | .arrow :: rest => alternatives rest
  | .symbol name :: rest =>
    match alternatives rest with
    | [] => [[name]]
    | a :: as => (name :: a) :: as

/-- The rules of a line that is neither blank nor a comment. -/
def readRuleLine (line : Nat) (text : List Char) : Except ReadError (List Rule) :=
  match splitArrow? text with
  | none =>
    match (lex text).map Spanned.token with
    | .symbol name :: _ => .error (.missingArrow line name)
    | _ => .error (.missingLeft line)
  | some (before, after) =>
    match leftOf line (lex before) with
    | .error e => .error e
    | .ok left =>
      let tokens := lex after
      match tokens.find? (·.token = .arrow) with
      | some t => .error (.unexpectedArrow line (before.length + 2 + t.start.column + 1))
      | none =>
        .ok ((alternatives (tokens.map Spanned.token)).map fun names => ⟨left, names.map classify⟩)

/-- Whether a line is blank or a comment. -/
def isSkipped (text : List Char) : Bool :=
  match text.dropWhile Text.isBlank with
  | [] => true
  | c :: _ => c = '#'

def readLine (line : Nat) (text : List Char) : Except ReadError (List Rule) :=
  if isSkipped text then .ok [] else readRuleLine line text

/-! ## A text -/

/-- The rules of the lines from line number `line` on, or the first error. -/
def readLines (line : Nat) : List (List Char) → Except ReadError (List Rule)
  | [] => .ok []
  | text :: rest =>
    match readLine line text with
    | .error e => .error e
    | .ok rules => (readLines (line + 1) rest).map (rules ++ ·)

def readRules (source : String) : Except ReadError (List Rule) :=
  readLines 1 (Text.lines source.toList)

/-- The rules of a file, given by its bytes or by the reason why there are none. -/
def rulesOfFile (file : Except FileError ByteArray) : Except ReadError (List Rule) :=
  match file with
  | .error cause => .error (.file cause)
  | .ok bytes =>
    match String.fromUTF8? bytes with
    | none => .error (.file .notUtf8)
    | some source => readRules source

end ShiftReduce.RuleText
