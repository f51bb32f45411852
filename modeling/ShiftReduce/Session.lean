import ShiftReduce.InputLine
import ShiftReduce.Parser.Query
import ShiftReduce.RuleText.Reader
import ShiftReduce.Tree.Rendering

/-!
# Sessions

A session holds a list of rules that is edited step by step, a start symbol, a merge mode and the
parser that was built last.  A parser keeps answering when the rules change after it was built.  A
step that fails leaves the session as it was.
-/

namespace ShiftReduce

structure Session where
  rules : List Rule
  start? : Option Symbol
  mode : MergeMode
  parser? : Option Parser

namespace Session

def empty : Session := ⟨[], none, .canonical, none⟩

/-! ## Steps and replies -/

/-- Questions to the parser that was built last. -/
inductive Query where
  | parse (tokens : List (Token String))
  | actions (state : StateId) (symbol : Symbol)
  | edge (state : StateId) (symbol : Symbol)
  | expected (state : StateId)
  | kernel (state : StateId)
  | first (symbol : Symbol)
  | firstOf (seq : List Symbol)
  | firstBefore (seq lookaheads : List Symbol)

inductive Step where
  | load (source : String)
  | add (rule : Rule)
  | pop
  | clear
  | setStart (start? : Option Symbol)
  | setMode (mode : MergeMode)
  | build
  | ask (query : Query)

inductive Reply where
  | count (n : Nat)
  | text (text? : Option String)
  | start (start? : Option Symbol)
  | mode (mode : MergeMode)
  | built (rules states : Nat) (conflicts : List ConflictView)
  | actions (actions? : Option (List Action))
  | state (state? : Option StateId)
  | symbols (symbols? : Option (List Symbol))
  | items (items? : Option (List ItemView))

inductive Failure where
  | reading (error : RuleText.ReadError)
  | grammar (error : GrammarError)
  | parsing (error : ParseError)
  | noParser

def Failure.message : Failure → String
  | reading e => e.message
  | grammar e => e.message
  | parsing e => e.message
  | noParser => "no parser was built"

/-! ## Answers -/

def answer (p : Parser) : Query → Except Failure Reply
  | .parse tokens =>
    match p.parse tokens with
    | .error e => .error (.parsing e)
    | .ok tree => .ok (.text (some tree.flat))
  | .actions q s => .ok (.actions (p.askActions q s))
  | .edge q s => .ok (.state (p.askEdge q s))
  | .expected q => .ok (.symbols (p.askExpected q))
  | .kernel q => .ok (.items (p.askKernel q))
  | .first s => .ok (.symbols (p.firstSets.askFirst p.grammar s))
  | .firstOf seq => .ok (.symbols (p.firstSets.askFirstOf p.grammar seq))
  | .firstBefore seq ls => .ok (.symbols (p.firstSets.askFirstBefore p.grammar seq ls))

variable (s : Session)

/-- Replaces the rules, and replies with their number. -/
def withRules (rules : List Rule) : Session × Except Failure Reply :=
  ({ s with rules }, .ok (.count rules.length))

def build : Session × Except Failure Reply :=
  match Parser.build s.rules (s.start?.getD (Rule.defaultStart s.rules)) s.mode with
  | .error e => (s, .error (.grammar e))
  | .ok p =>
    ({ s with parser? := some p },
      .ok (.built p.grammar.rules.size p.automaton.size p.conflicts))

def step : Step → Session × Except Failure Reply
  | .load source =>
    match RuleText.readRules source with
    | .error e => (s, .error (.reading e))
    | .ok rules => s.withRules (s.rules ++ rules)
  | .add rule => s.withRules (s.rules ++ [rule])
  | .pop => ({ s with rules := s.rules.dropLast }, .ok (.text (s.rules.getLast?.map Rule.text)))
  | .clear => s.withRules []
  | .setStart start? => ({ s with start? }, .ok (.start start?))
  | .setMode mode => ({ s with mode }, .ok (.mode mode))
  | .build => s.build
  | .ask query =>
    match s.parser? with
    | none => (s, .error .noParser)
    | some p => (s, answer p query)

/-- The replies to a list of steps, one each. -/
def replies (s : Session) : List Step → List (Except Failure Reply)
  | [] => []
  | step :: rest =>
    let next := s.step step
    next.2 :: replies next.1 rest

end Session

end ShiftReduce
