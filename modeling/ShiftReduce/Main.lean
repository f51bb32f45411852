import ShiftReduce.CommandLine

/-! # The program: its arguments, files, standard input and output -/

namespace ShiftReduce.Main

open CommandLine

/-- The system's number for an error, which some calls report negated. -/
def errorNumber (code : UInt32) : UInt32 := if code < 0 - code then code else 0 - code

/-- The bytes of a file, or why there are none. -/
def fileBytes (path : String) : IO (Except RuleText.FileError ByteArray) := do
  try
    return .ok (← IO.FS.readBinFile path)
  catch
    | .noFileOrDirectory .. => return .error .notFound
    | .permissionDenied .. => return .error .permissionDenied
    | .inappropriateType _ code _ =>
      return .error (if errorNumber code = 20 then .notDirectory else .isDirectory)
    | e@(.invalidArgument _ code _) =>
      return .error (if errorNumber code = 36 then .nameTooLong else .other (toString e))
    | e => return .error (.other (toString e))

/-- The bytes up to the next line feed or the end of input. -/
partial def readLine (input : IO.FS.Stream) (line : ByteArray) : IO ByteArray := do
  let next ← input.read 1
  if next.isEmpty then return line
  let line := line ++ next
  if next.get! 0 = 10 then return line else readLine input line

partial def converse (p : Parser) (input output : IO.FS.Stream) : IO UInt32 := do
  output.putStr prompt
  output.flush
  let line ← readLine input .empty
  if line.isEmpty then return 0
  match react p line with
  | .stop => return 0
  | .reply text =>
    output.putStr text
    converse p input output
  | .fail failure =>
    IO.eprint failure.text
    return 1

def execute (i : Invocation) : IO UInt32 := do
  match i.parser (← fileBytes i.file) with
  | .error failure =>
    IO.eprint failure.text
    return 1
  | .ok p =>
    let output ← IO.getStdout
    output.putStr (opening i.quiet p)
    converse p (← IO.getStdin) output

end ShiftReduce.Main

def main (args : List String) : IO UInt32 := do
  match ShiftReduce.CommandLine.request? args with
  | none =>
    IO.eprint ShiftReduce.CommandLine.usageText
    return 2
  | some .version =>
    IO.print ShiftReduce.CommandLine.versionText
    return 0
  | some .help =>
    IO.print ShiftReduce.CommandLine.usageText
    return 0
  | some (.run i) => ShiftReduce.Main.execute i
