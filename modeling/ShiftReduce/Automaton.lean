import Std.Data.TreeMap
import ShiftReduce.Closure

/-!
# The LR(1) automaton

The states are closed item sets.  They are found in passes from the state of `S' -> . S`: a pass
closes the states that the pass before has created, and links each of their transitions to a
state that is there or to a new one.  States created in a pass are buffered until it ends.

Which state a transition is linked to depends on the merge mode.  In canonical mode it is the
state whose kernel is the kernel at hand; candidates are looked up by their sets of cores.  In
superset mode it is the first state whose items contain the kernel at hand.
-/

namespace ShiftReduce

abbrev StateId := Nat

/-- How a transition is matched with the states that are there. -/
inductive MergeMode where
  | canonical
  | superset
deriving DecidableEq

/-- A state: the items it was created from, their closure, and where its symbols lead. -/
structure Node where
  id : StateId
  kernel : ItemSet
  items : ItemSet
  edges : OrderedMap SymbolId StateId

/-- A state that has not been closed yet. -/
def Node.unclosed (id : StateId) (kernel : ItemSet) : Node := ⟨id, kernel, kernel, .empty⟩

/-- All states by number, and how many states each pass of the construction closed. -/
structure Automaton where
  nodes : Array Node
  passes : List Nat

/-! ## Construction -/

/-- The states so far, the states buffered in the current pass, and the numbers of all of them by
the set of cores of their kernels. -/
structure Construction where
  nodes : Array Node
  created : Array Node
  sameCores : Std.TreeMap (List Core) (List StateId)

namespace Construction

/-- The state with a number, numbered on from the states into the buffer. -/
def node? (c : Construction) (id : StateId) : Option Node :=
  if id < c.nodes.size then c.nodes[id]? else c.created[id - c.nodes.size]?

/-- The states in order of their numbers. -/
def allNodes (c : Construction) : List Node := c.nodes.toList ++ c.created.toList

/-- Creates a state in the buffer; its number is the next one. -/
def create (c : Construction) (kernel : ItemSet) : Construction × StateId :=
  let id := c.nodes.size + c.created.size
  let cores := kernel.sortedCores
  ({ c with
      created := c.created.push (.unclosed id kernel)
      sameCores := c.sameCores.insert cores ((c.sameCores.getD cores []) ++ [id]) }, id)

/-- Ends a pass: the buffered states follow the others. -/
def commit (c : Construction) : Construction :=
  { c with nodes := c.nodes ++ c.created, created := #[] }

/-- The state that a kernel leads to, if it is there. -/
def findNode (c : Construction) (mode : MergeMode) (kernel : ItemSet) : Option StateId :=
  match mode with
  | .canonical =>
    (c.sameCores.getD kernel.sortedCores []).find? fun id =>
      match c.node? id with
      | some node => node.kernel.same kernel
      | none => false
  | .superset => (c.allNodes.find? fun node => node.items.contains kernel).map (·.id)

/-- Links one transition of a state. -/
def link (mode : MergeMode) (acc : Construction × OrderedMap SymbolId StateId)
    (transition : SymbolId × ItemSet) : Construction × OrderedMap SymbolId StateId :=
  let (c, edges) := acc
  let (symbol, kernel) := transition
  match c.findNode mode kernel with
  | some target => (c, edges.insert symbol target)
  | none =>
    let (c, target) := c.create kernel
    (c, edges.insert symbol target)

variable (g : Grammar) (f : FirstSets)

/-- Closes a state. -/
def close (c : Construction) (id : StateId) : Construction :=
  { c with nodes := c.nodes.modify id fun node => { node with items := closure g f node.items } }

/-- Closes a state and links its transitions. -/
def expand (mode : MergeMode) (c : Construction) (id : StateId) : Construction :=
  let c := c.close g f id
  match c.nodes[id]? with
  | none => c
  | some node =>
    let (c, edges) := (transitions g node.items).entries.foldl (link mode) (c, .empty)
    { c with nodes := c.nodes.modify id fun node => { node with edges } }

/-- Expands the pending states; the states created on the way are pending next. -/
def pass (mode : MergeMode) (c : Construction) (pending : List StateId) :
    Construction × List StateId :=
  let c := pending.foldl (expand g f mode) c
  (c.commit, c.created.toList.map (·.id))

/-- Repeats passes until no state is pending, and records their sizes. -/
def run (mode : MergeMode) : Nat → Construction → List StateId → List Nat → Automaton
  | 0, c, _, passes => ⟨c.nodes, passes⟩
  | fuel + 1, c, pending, passes =>
    if pending.isEmpty then ⟨c.nodes, passes⟩
    else
      let next := c.pass g f mode pending
      run mode fuel next.1 next.2 (passes ++ [pending.length])

/-- The construction at its start, with the state of `S' -> . S` before the end of input. -/
def initial : Construction :=
  let kernel := OrderedMap.empty.insert (Core.start acceptId) (.singleton endOfInputId)
  (Construction.create ⟨#[], #[], ∅⟩ kernel).1.commit

end Construction

namespace Automaton

/-- The number of the state in which every run starts. -/
def startState : StateId := 0

/-- Kernels are sets of cores and of lookaheads at cores, and no two states have the same kernel:
this many passes are never needed. -/
def passLimit (g : Grammar) : Nat :=
  let cores := total (fun p => p.right.length + 1) g.productions.toList
  Nat.pow 2 (cores * (g.terminals.size + 1))

/-- The automaton of a grammar. -/
def ofGrammar (g : Grammar) (f : FirstSets) (mode : MergeMode) : Automaton :=
  Construction.run g f mode (passLimit g) .initial [startState] []

def size (a : Automaton) : Nat := a.nodes.size

def isEmpty (a : Automaton) : Bool := a.nodes.isEmpty

def edge? (a : Automaton) (id : StateId) (x : SymbolId) : Option StateId :=
  (a.nodes[id]?).bind (·.edges.find? x)

end Automaton

end ShiftReduce
