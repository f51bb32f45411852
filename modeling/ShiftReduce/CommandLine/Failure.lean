import ShiftReduce.Grammar.Validity
import ShiftReduce.RuleText.Reader

/-!
# Failures of the program, as they are reported

A report names what the program was about to do and, below it, the causes from the nearest to the
farthest, numbered if there are several.
-/

namespace ShiftReduce.CommandLine

/-- What went wrong, and the causes behind it. -/
structure Failure where
  context : String
  causes : List String

namespace Failure

def reading (path : String) (e : RuleText.ReadError) : Failure where
  context := "failed to read the grammar from " ++ path
  causes := e.message :: match e with
    | .file cause => [cause.message]
    | _ => []

def noRules : Failure := ⟨"the grammar file contains no rules", []⟩

def building (e : GrammarError) : Failure := ⟨"failed to build the parser", [e.message]⟩

def input : Failure := ⟨"failed to read stdin", [RuleText.FileError.notUtf8.message]⟩

/-- Puts `indent` at the beginning of every line but the first. -/
def indented (indent : String) (s : String) : String :=
  String.join (s.toList.map fun c => if c = '\n' then "\n" ++ indent else String.singleton c)

/-- Two causes or more are numbered. -/
def causeLines : List String → List String
  | [cause] => ["    " ++ indented "    " cause]
  | causes => causes.zipIdx.map fun (cause, i) =>
    let number := toString i
    String.ofList (List.replicate (5 - number.length) ' ') ++ number ++ ": " ++
      indented "       " cause

def text (f : Failure) : String :=
  "Error: " ++ f.context ++
  (if f.causes.isEmpty then "" else "\n\nCaused by:") ++
  String.join ((causeLines f.causes).map ("\n" ++ ·)) ++ "\n"

end Failure

end ShiftReduce.CommandLine
