import ShiftReduce.Automaton.Report
import ShiftReduce.CommandLine.Arguments
import ShiftReduce.CommandLine.Failure
import ShiftReduce.Grammar.Report
import ShiftReduce.InputLine
import ShiftReduce.Parser.Query
import ShiftReduce.Text.Quoted
import ShiftReduce.Tree.Rendering

/-!
# The command line

The program reads a grammar file, builds its parser, prints reports, and then parses the lines of
its standard input until one is empty.  All of it is here as functions: what is printed before the
first line, the reply to a line, and the whole conversation.
-/

namespace ShiftReduce.CommandLine

/-! ## Fixed texts -/

def versionText : String := "lr1-cli 0.0.0-dev\n"

def usageText : String :=
  "Usage: lr1 [OPTIONS] <INPUT>\n\n" ++
  "Options:\n" ++
  "  -s, --start <START>            The start symbol of the grammar\n" ++
  "      --merge-mode <MERGE_MODE>  canonical or superset\n" ++
  "  -q, --quiet                    Do not print the reports\n" ++
  "  -h, --help                     Print help\n" ++
  "  -V, --version                  Print version\n"

/-! ## Work -/

/-- Builds the parser that an invocation asks for from the bytes of its file. -/
def Invocation.parser (i : Invocation) (bytes : Except RuleText.FileError ByteArray) :
    Except Failure Parser :=
  match RuleText.rulesOfFile bytes with
  | .error e => .error (.reading i.file e)
  | .ok rules =>
    match i.start?.map Symbol.nonterminal <|> rules.head?.map Rule.left with
    | none => .error .noRules
    | some start =>
      match Parser.build rules start i.mode with
      | .error e => .error (.building e)
      | .ok p => .ok p

/-- The reports of a parser, each with an empty line after it. -/
def reports (p : Parser) : String :=
  String.join ([p.grammar.rulesText, p.grammar.symbolsText, p.firstSets.text p.grammar,
    p.automaton.text p.grammar, p.table.text p.grammar].map (· ++ "\n"))

/-- What is printed before the first line is read. -/
def opening (quiet : Bool) (p : Parser) : String :=
  let without := p.grammar.withoutRules.map fun n => (p.grammar.nonterminal n).name
  let conflicts := p.table.conflicts.length
  (if without.isEmpty then ""
    else "[warning] The following nonterminals have no associated production rule: " ++
      Text.quotedList without ++ "\n") ++
  (if quiet then "" else reports p) ++
  if conflicts = 0 then ""
  else "[warning] The parse table has " ++ toString conflicts ++ " conflicting cell" ++
    (if conflicts = 1 then "" else "s") ++ ".\n"

def prompt : String := "> "

/-- The reply to a line: the tree in its three renderings, or the error. -/
def reply (p : Parser) (tokens : List (Token String)) : String :=
  match p.parse tokens with
  | .ok tree => tree.flat ++ "\n" ++ tree.simple ++ "\n" ++ tree.layered ++ "\n"
  | .error e => "[error] " ++ e.message ++ "\n"

/-- What follows from a line of input. -/
inductive Reaction where
  | reply (text : String)
  | stop
  | fail (failure : Failure)

/-- An empty line, and the end of input, ends the conversation. -/
def react (p : Parser) (line : ByteArray) : Reaction :=
  match String.fromUTF8? line with
  | none => .fail .input
  | some line =>
    match Token.ofLine line with
    | [] => .stop
    | tokens => .reply (reply p tokens)

/-! ## The whole program -/

structure Exit where
  code : Nat
  stdout : String
  stderr : String

/-- The conversation over lines of input, after what has been printed already. -/
def converse (p : Parser) (printed : String) : List ByteArray → Exit
  | [] => ⟨0, printed ++ prompt, ""⟩
  | line :: rest =>
    match react p line with
    | .reply text => converse p (printed ++ prompt ++ text) rest
    | .stop => ⟨0, printed ++ prompt, ""⟩
    | .fail failure => ⟨1, printed ++ prompt, failure.text⟩

/-- The lines of a list of bytes, each with the line feed at its end. -/
def byteLines : List UInt8 → List (List UInt8)
  | [] => []
  | b :: rest =>
    if b = 10 then [b] :: byteLines rest
    else
      match byteLines rest with
      | [] => [[b]]
      | l :: ls => (b :: l) :: ls

def Invocation.run (i : Invocation) (bytes : Except RuleText.FileError ByteArray)
    (stdin : List UInt8) : Exit :=
  match i.parser bytes with
  | .error failure => ⟨1, "", failure.text⟩
  | .ok p =>
    converse p (opening i.quiet p) ((byteLines stdin).map fun line => ⟨line.toArray⟩)

/-- The program on its arguments, the files it can read and its standard input; none if the
arguments are refused. -/
def run (args : List String) (fileBytes : String → Except RuleText.FileError ByteArray)
    (stdin : List UInt8) : Option Exit :=
  (request? args).map fun
    | .version => ⟨0, versionText, ""⟩
    | .help => ⟨0, usageText, ""⟩
    | .run i => i.run (fileBytes i.file) stdin

end ShiftReduce.CommandLine
