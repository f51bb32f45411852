import ShiftReduce.Automaton

/-!
# The arguments of the program

The arguments are read in order: a path of the grammar file, and options before or after it.  An
option is long, `--start X` or `--start=X`, or stands in a group of short ones, `-q`, `-qs X` or
`-qsX`; nothing is an option after `--`.  Unknown or repeated options, missing or unknown values
and a second path are refused.
-/

namespace ShiftReduce.CommandLine

structure Invocation where
  file : String
  start? : Option String
  mode : MergeMode
  quiet : Bool

inductive Request where
  | version
  | help
  | run (invocation : Invocation)

/-- The options and the file met so far; an option counts as met when it has a value. -/
structure Options where
  file? : Option String := none
  start? : Option String := none
  mode? : Option MergeMode := none
  quiet : Bool := false

namespace Options

variable (o : Options)

/-- At most one file can be given, and not by an empty path. -/
def setFile (path : String) : Option Options :=
  if o.file?.isSome || path.isEmpty then none else some { o with file? := some path }

/-- No option can be given twice. -/
def setStart (name : String) : Option Options :=
  if o.start?.isSome then none else some { o with start? := some name }

def setMode (name : String) : Option Options :=
  if o.mode?.isSome then none
  else if name = "canonical" then some { o with mode? := some .canonical }
  else if name = "superset" then some { o with mode? := some .superset }
  else none

def setQuiet : Option Options := if o.quiet then none else some { o with quiet := true }

def invocation? : Option Invocation :=
  o.file?.map fun file => ⟨file, o.start?, o.mode?.getD .canonical, o.quiet⟩

end Options

/-- What an argument is by its form. -/
inductive Form where
  | plain
  | endOfOptions
  | long (name : List Char) (value? : Option (List Char))
  | short (flags : List Char)

/-- A name and the value attached to it by an equals sign. -/
def splitValue : List Char → List Char × Option (List Char)
  | [] => ([], none)
  | '=' :: value => ([], some value)
  | c :: rest =>
    let (name, value?) := splitValue rest
    (c :: name, value?)

def Form.of (arg : String) : Form :=
  match arg.toList with
  | ['-', '-'] => .endOfOptions
  | '-' :: '-' :: rest => .long (splitValue rest).1 (splitValue rest).2
  | '-' :: c :: rest => .short (c :: rest)
  | _ => .plain

/-- What comes of a group of short options. -/
inductive Group where
  | refused
  | done (request : Request)
  | read (options : Options)
  /-- The start symbol is the next argument. -/
  | startFollows (options : Options)

def Group.ofOption : Option Options → Group
  | none => refused
  | some o => read o

/-- Reads a group of short options; what follows `s` in it is the start symbol. -/
def readGroup (o : Options) : List Char → Group
  | [] => .read o
  | 'q' :: rest =>
    match o.setQuiet with
    | none => .refused
    | some o => readGroup o rest
  | 'V' :: _ => .done .version
  | 'h' :: _ => .done .help
  | ['s'] => .startFollows o
  | 's' :: '=' :: name => .ofOption (o.setStart (String.ofList name))
  | 's' :: name => .ofOption (o.setStart (String.ofList name))
  | _ => .refused

/-- Reads arguments after the end of options. -/
def fileBytess (o : Options) : List String → Option Request
  | [] => o.invocation?.map .run
  | path :: rest =>
    match o.setFile path with
    | none => none
    | some o => fileBytess o rest

/-- A value may begin with a dash only if it is nothing else or is attached to its option. -/
def isValue (arg : String) : Bool :=
  match Form.of arg with
  | .plain => true
  | _ => false

/-- Reads the arguments in order; none if they are refused.  The version and the help are given as
soon as they are asked for. -/
def readArguments (o : Options) : List String → Option Request
  | [] => o.invocation?.map .run
  | arg :: rest =>
    match Form.of arg with
    | .plain =>
      match o.setFile arg with
      | none => none
      | some o => readArguments o rest
    | .endOfOptions => fileBytess o rest
    | .short flags =>
      match readGroup o flags with
      | .refused => none
      | .done request => some request
      | .read o => readArguments o rest
      | .startFollows o =>
        match rest with
        | [] => none
        | value :: rest =>
          match o.setStart value with
          | none => none
          | some o => if isValue value then readArguments o rest else none
    | .long name value? =>
      match String.ofList name, value? with
      | "quiet", none =>
        match o.setQuiet with
        | none => none
        | some o => readArguments o rest
      | "version", none => some .version
      | "help", none => some .help
      | "start", some value =>
        match o.setStart (String.ofList value) with
        | none => none
        | some o => readArguments o rest
      | "merge-mode", some value =>
        match o.setMode (String.ofList value) with
        | none => none
        | some o => readArguments o rest
      | "start", none =>
        match rest with
        | [] => none
        | value :: rest =>
          match o.setStart value with
          | none => none
          | some o => if isValue value then readArguments o rest else none
      | "merge-mode", none =>
        match rest with
        | [] => none
        | value :: rest =>
          match o.setMode value with
          | none => none
          | some o => readArguments o rest
      | _, _ => none

def request? (args : List String) : Option Request := readArguments {} args

end ShiftReduce.CommandLine
