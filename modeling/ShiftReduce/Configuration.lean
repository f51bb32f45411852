import ShiftReduce.ParseError
import ShiftReduce.Tree

/-!
# Runs of a parse table

A configuration holds the states entered, the trees gathered, the queue of what is still to be
read, and the number of tokens read.  Each step reads the cell of the topmost state and the head
of the queue.  A reduction gathers trees and puts its left side at the head of the queue, where
the goto of the next step takes it.
-/

namespace ShiftReduce

variable {π : Type}

/-- What can stand in the queue. -/
inductive Input (π : Type) where
  | token (token : Token π)
  /-- A nonterminal that was just gathered and waits for its goto. -/
  | reduced (left : NonterminalId)
  | endOfInput

/-- The states and the trees are listed from the top of their stacks. -/
structure Configuration (π : Type) where
  states : List StateId
  trees : List (Tree π)
  queue : List (Input π)
  shifted : Nat

namespace Configuration

/-- The configuration before anything is read. -/
def initial (tokens : List (Token π)) : Configuration π where
  states := [Automaton.startState]
  trees := []
  queue := tokens.map .token ++ [.endOfInput]
  shifted := 0

/-- The place of the head of the queue in the input, counted from 1. -/
def position (c : Configuration π) : Nat := c.shifted + 1

/-! ## A step -/

/-- The action that is chosen in a state on a symbol. -/
structure Move where
  state : StateId
  found : Symbol
  action : Action
deriving DecidableEq

/-- What follows from an action. -/
inductive Outcome (π : Type) where
  | next (c : Configuration π)
  | accepted (tree : Tree π)
  | failed (error : ParseError)

variable (g : Grammar) (t : ParseTable)

/-- The symbol at the head of the queue.  A token must be a terminal of the grammar, and not the
end of input, which comes only after all tokens. -/
def lookahead (c : Configuration π) : Except ParseError (SymbolId × Symbol) :=
  match c.queue with
  | [] => .error (.internal .queueExhausted)
  | .endOfInput :: _ => .ok (.terminal endOfInputId, g.terminal endOfInputId)
  | .reduced n :: _ => .ok (.nonterminal n, g.nonterminal n)
  | .token token :: _ =>
    match g.number? token.symbol with
    | some (.terminal id) =>
      if id = endOfInputId then .error (.undefinedSymbol c.position token.symbol)
      else .ok (.terminal id, token.symbol)
    | _ => .error (.undefinedSymbol c.position token.symbol)

/-- The move in a configuration: the cell must offer exactly one action. -/
def move (c : Configuration π) : Except ParseError Move :=
  match c.states with
  | [] => .error (.internal .noState)
  | q :: _ =>
    match c.lookahead g with
    | .error e => .error e
    | .ok (x, found) =>
      match t.actions q x with
      | [action] => .ok ⟨q, found, action⟩
      | [] => .error (.unexpected c.position found ((t.expectedTerminals q).map g.terminal))
      | actions => .error (.conflict c.position q found actions)

def perform (c : Configuration π) : Action → Outcome π
  | .shift q =>
    match c.queue with
    | .token token :: rest =>
      .next ⟨q :: c.states, .leaf token :: c.trees, rest, c.shifted + 1⟩
    | _ => .failed (.internal .shiftedNonToken)
  | .reduce r =>
    let n := (g.right r).length
    if (c.states.drop n).isEmpty || (c.trees.take n).length < n then
      .failed (.internal .stackTooShort)
    else
      let tree := .node (g.nonterminal (g.left r)).name (c.trees.take n).reverse
      .next ⟨c.states.drop n, tree :: c.trees.drop n, .reduced (g.left r) :: c.queue, c.shifted⟩
  | .goto q =>
    match c.queue with
    | .reduced _ :: rest => .next ⟨q :: c.states, c.trees, rest, c.shifted⟩
    | _ => .failed (.internal .gotoWithoutReduced)
  | .accept =>
    match c.queue, c.trees with
    | [.endOfInput], [root] => .accepted root
    | _, _ => .failed (.internal .leftovers)

def step (c : Configuration π) : Outcome π :=
  match c.move g t with
  | .error e => .failed e
  | .ok move => c.perform g move.action

/-! ## A run -/

/-- The answer of the run from a configuration: steps until one does not lead on.  A run without
end has no answer. -/
def run (c : Configuration π) : Option (Except ParseError (Tree π)) :=
  match c.step g t with
  | .next c => c |>.run
  | .accepted tree => some (.ok tree)
  | .failed e => some (.error e)
partial_fixpoint

/-- The moves of the run from a configuration, in order. -/
def moves (c : Configuration π) : Option (List Move) :=
  match c.move g t with
  | .error _ => some []
  | .ok move =>
    match c.perform g move.action with
    | .next c => do
      let rest ← c |>.moves
      some (move :: rest)
    | _ => some [move]
partial_fixpoint

end Configuration

end ShiftReduce
