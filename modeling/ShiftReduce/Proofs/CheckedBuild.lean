import ShiftReduce.Parser
import ShiftReduce.Proofs.Cells
import ShiftReduce.Proofs.CheckedClosure

/-!
# Building a parser with checked look-ups and without limits

The build is done with the checked First sets, closures and transitions.  The states too are looked
up by numbers that need to be in range, and they are closed for as long as some are pending.  The
checked build has an answer for every rule list, and it is the library's; so no number by which
something is looked up is ever out of range, no default is ever used and no limit is ever reached.

    Checked.build rules start mode = some (Parser.build rules start mode)        (build_eq_some)
-/

namespace ShiftReduce

namespace Checked

variable {g : Grammar} {f : FirstSets} {mode : MergeMode}

/-! ## States -/

section Definitions

variable (c : Construction)

/-- The state with a number.  Behind the states its place in the buffer is the number less their
count. -/
def node (id : StateId) : Option Node :=
  match c.nodes[id]? with
  | some node => some node
  | none => if c.nodes.size ≤ id then c.created[id - c.nodes.size]? else none

/-- The first of some numbers whose state has a kernel; all that come before need to have a state. -/
def firstSame (kernel : ItemSet) : List StateId → Option (Option StateId)
  | [] => some none
  | id :: rest => do
    let node ← node c id
    if node.kernel.same kernel then some (some id) else firstSame kernel rest

def findNode (mode : MergeMode) (kernel : ItemSet) : Option (Option StateId) :=
  match mode with
  | .canonical => firstSame c kernel (c.sameCores.getD kernel.sortedCores [])
  | .superset => some ((c.allNodes.find? fun node => node.items.contains kernel).map (·.id))

/-- Links one transition of a state. -/
def link (mode : MergeMode) (acc : Construction × OrderedMap SymbolId StateId)
    (transition : SymbolId × ItemSet) : Option (Construction × OrderedMap SymbolId StateId) := do
  let (c, edges) := acc
  let (symbol, kernel) := transition
  match ← findNode c mode kernel with
  | some target => some (c, edges.insert symbol target)
  | none =>
    let (c, target) := c.create kernel
    some (c, edges.insert symbol target)

def updateNode (id : StateId) (h : Node → Node) : Option Construction := do
  let nodes ← update c.nodes id h
  some { c with nodes }

variable (g : Grammar) (f : FirstSets) (mode : MergeMode)

/-- Closes a state and links its transitions. -/
def expand (id : StateId) : Option Construction := do
  let node ← c.nodes[id]?
  let items ← closure g f node.items
  let c ← updateNode c id fun node => { node with items }
  let kernels ← transitions g items
  let (c, edges) ← kernels.entries.foldlM (link mode) (c, .empty)
  updateNode c id fun node => { node with edges }

def pass (pending : List StateId) : Option (Construction × List StateId) := do
  let c ← pending.foldlM (fun c id => expand c g f mode id) c
  some (c.commit, c.created.toList.map (·.id))

end Definitions

/-- A construction, the states that are pending, and the sizes of the passes so far. -/
structure Worklist where
  construction : Construction
  pending : List StateId
  passes : List Nat

/-- Repeats passes for as long as states are pending.  Where a pass fails, or none is the last,
there is no answer. -/
def Worklist.run (g : Grammar) (f : FirstSets) (mode : MergeMode) (w : Worklist) :
    Option Automaton :=
  if w.pending.isEmpty then some ⟨w.construction.nodes, w.passes⟩
  else do
    let (construction, pending) ← pass w.construction g f mode w.pending
    let next : Worklist := ⟨construction, pending, w.passes ++ [w.pending.length]⟩
    next |>.run g f mode
partial_fixpoint

def automaton (g : Grammar) (f : FirstSets) (mode : MergeMode) : Option Automaton :=
  Worklist.run g f mode ⟨.initial, [Automaton.startState], []⟩

section Numbered

variable {c : Construction}

theorem node_eq_some {id : StateId} {n : Node} (h : c.allNodes[id]? = some n) :
    node c id = some n := by
  unfold node
  have hnode := (c.node?_eq id).trans h
  unfold Construction.node? at hnode
  split at hnode
  · rw [hnode]
  · next hlt =>
    have hnone : c.nodes[id]? = none := Array.getElem?_eq_none (Nat.le_of_not_lt hlt)
    rw [hnone]
    simp only
    rw [if_pos (Nat.le_of_not_lt hlt), hnode]

theorem firstSame_eq_some {kernel : ItemSet} {ids : List StateId}
    (h : ∀ id ∈ ids, ∃ n, c.allNodes[id]? = some n) :
    firstSame c kernel ids = some (ids.find? fun id =>
      match c.node? id with
      | some node => node.kernel.same kernel
      | none => false) := by
  induction ids with
  | nil => rfl
  | cons id ids ih =>
    obtain ⟨⟨n, hn⟩, h⟩ := List.forall_mem_cons.1 h
    have hnode : c.node? id = some n := (c.node?_eq id).trans hn
    simp only [firstSame, node_eq_some hn, Option.bind_eq_bind, Option.bind_some, List.find?_cons,
      hnode, ih h]
    cases n.kernel.same kernel <;> rfl

theorem findNode_eq_some (hc : c.Numbered g f) (kernel : ItemSet) :
    findNode c mode kernel = some (c.findNode mode kernel) := by
  cases mode with
  | canonical =>
    refine firstSame_eq_some fun id hid => ?_
    obtain ⟨found, hfound, -⟩ := hc.mem_sameCores.1 hid
    obtain ⟨n, hn, -⟩ := Construction.kernel?_eq_some_iff.1 hfound
    exact ⟨n, hn⟩
  | superset => rfl

theorem link_eq_some (hc : c.Numbered g f) (edges : OrderedMap SymbolId StateId)
    (transition : SymbolId × ItemSet) :
    link mode (c, edges) transition = some (Construction.link mode (c, edges) transition) := by
  obtain ⟨x, kernel⟩ := transition
  simp only [link, findNode_eq_some hc, Option.bind_eq_bind, Option.bind_some, Construction.link]
  cases c.findNode mode kernel <;> rfl

theorem updateNode_eq_some {id : StateId} (hid : id < c.nodes.size) (h : Node → Node) :
    updateNode c id h = some (c.modify id h) := by
  simp only [updateNode, update_eq_some hid, Option.bind_eq_bind, Option.bind_some]
  rfl

end Numbered

section Construction

variable {c : Construction}

theorem modify_congr {k : StateId} (hk : k < c.nodes.size) {h h' : Node → Node}
    (heq : h c.nodes[k] = h' c.nodes[k]) : c.modify k h = c.modify k h' := by
  have hupdate : updateNode c k h = updateNode c k h' := by
    simp only [updateNode, update, dif_pos hk, heq]
  rw [updateNode_eq_some hk, updateNode_eq_some hk] at hupdate
  exact Option.some.inj hupdate

variable (hg : g.WellFormed) (hf : f.Exact g) (hsets : f.sets.size = g.nonterminals.size)
include hg hf

theorem foldlM_link_eq_some (hc : c.Numbered g f) {items : ItemSet} (hrange : items.InRange g) :
    (ShiftReduce.transitions g items).entries.foldlM (link mode) (c, .empty) =
      some ((ShiftReduce.transitions g items).entries.foldl (Construction.link mode)
        (c, .empty)) := by
  refine foldlM_eq_some (fun acc => acc.1.Numbered g f) ?_ hc
  rintro ⟨c, edges⟩ ⟨x, kernel⟩ he hc
  have hx := OrderedMap.find?_eq_some_iff.2 he
  obtain ⟨hnumbered, -⟩ := Construction.link_spec mode hg hf hc
    (ItemSet.advanced_of_transitions hx) (ItemSet.inRange_of_transitions hrange hx) edges x
  exact ⟨link_eq_some hc edges (x, kernel), hnumbered⟩

include hsets

theorem expand_eq_some {k : Nat} (hc : c.Progress g f mode k) (hk : k < c.nodes.size) :
    expand c g f mode k = some (Construction.expand g f mode c k) := by
  have hnode := Array.getElem?_eq_getElem hk
  have hkernel := Construction.getElem?_allNodes_eq_some hk
  have hrange : c.nodes[k].items.InRange g := by
    rw [hc.items_eq_kernel hkernel]
    exact hc.inRange (Construction.kernel?_eq_some_iff.2 ⟨_, hkernel, rfl⟩)
  have hclose : (c.modify k fun node =>
      { node with items := ShiftReduce.closure g f c.nodes[k].items }) = c.close g f k :=
    modify_congr hk rfl
  have hclosed := hc.inRange_closure hg hf hk
  have hnumbered := hc.numbered_close hk
  obtain ⟨-, hgrows, -⟩ := Construction.foldl_link_transitions mode hg hf hnumbered hclosed
  rw [Construction.expand_eq hnode]
  simp only [expand, hnode, closure_eq_some hg hf hsets hrange, updateNode_eq_some hk, hclose,
    transitions_eq_some hclosed, foldlM_link_eq_some hg hf hnumbered hclosed, Option.bind_eq_bind,
    Option.bind_some]
  refine updateNode_eq_some ?_ _
  rw [hgrows.nodes_eq, Construction.size_close]
  exact hk

theorem foldlM_expand_eq_some {k n : Nat} (hc : c.Progress g f mode k)
    (hn : k + n ≤ c.nodes.size) :
    (List.range' k n).foldlM (fun c id => expand c g f mode id) c =
      some ((List.range' k n).foldl (Construction.expand g f mode) c) := by
  induction n generalizing c k with
  | zero => rfl
  | succ n ih =>
    obtain ⟨hnext, hsize⟩ := hc.expand hg hf (by omega)
    rw [List.range'_succ, List.foldlM_cons, expand_eq_some hg hf hsets hc (by omega)]
    exact ih hnext (by omega)

theorem pass_eq_some {k n : Nat} (hc : c.Progress g f mode k) (hn : k + n ≤ c.nodes.size) :
    pass c g f mode (List.range' k n) = some (c.pass g f mode (List.range' k n)) := by
  simp only [pass, foldlM_expand_eq_some hg hf hsets hc hn, Option.bind_eq_bind, Option.bind_some,
    Construction.pass]

/-- Each pass closes a state that was pending, and there are no more states than kernels over the
grammar, so in the end no state is pending. -/
theorem run_eq_some {k n fuel : Nat} (hc : c.Progress g f mode k) (hn : k + n = c.nodes.size)
    (enough : Automaton.passLimit g ≤ k + fuel) (passes : List Nat) :
    Worklist.run g f mode ⟨c, List.range' k n, passes⟩ =
      some (Construction.run g f mode fuel c (List.range' k n) passes) := by
  induction fuel generalizing c k n passes with
  | zero =>
    have hsize := hc.size_le hg
    obtain rfl : n = 0 := by omega
    unfold Worklist.run
    rfl
  | succ fuel ih =>
    unfold Worklist.run Construction.run
    cases n with
    | zero => rfl
    | succ n =>
      obtain ⟨d, hpass, hd, hle, -⟩ := hc.pass hg hf Construction.lasting_true hn trivial
      have hchecked := pass_eq_some hg hf hsets hc (Nat.le_of_eq hn)
      have hpending : (List.range' k (n + 1)).isEmpty = false := rfl
      rw [hpass] at hchecked
      simp only [hpending, Bool.false_eq_true, if_false, hchecked, hpass, Option.bind_eq_bind,
        Option.bind_some]
      exact ih hd (by omega) (by omega) _

theorem automaton_eq_some : automaton g f mode = some (.ofGrammar g f mode) := by
  have hsize : 0 + 1 = Construction.initial.nodes.size := rfl
  exact run_eq_some hg hf hsets (Construction.progress_initial hg) hsize
    (Nat.le_of_eq (Nat.zero_add _).symm) []

end Construction

/-! ## The parse table -/

/-- A completed item offers its reduction on each of its lookaheads. -/
def pushItem (g : Grammar) (row : Row) (item : Core × TerminalSet) : Option Row := do
  let right ← rightOf g item.1
  if right.length ≤ item.1.marker then
    let action := if item.1.rule = acceptId then .accept else .reduce item.1.rule
    some (item.2.toList.foldl (fun row t => row.push (.terminal t) action) row)
  else some row

/-- The row of a state.  The symbols of its conflicts need to have names, for they are reported. -/
def row (g : Grammar) (blank : Row) (node : Node) : Option Row := do
  let row ← node.items.entries.foldlM (pushItem g) (node.edges.entries.foldl Row.pushEdge blank)
  let _ ← (row.conflicts node.id).mapM fun k => g.symbol? k.symbol
  some row

def table (g : Grammar) (a : Automaton) : Option ParseTable := do
  let rows ← a.nodes.toList.mapM (row g (Row.blank g))
  some ⟨rows.toArray⟩

theorem pushItem_eq_some {items : ItemSet} (h : items.InRange g) {e : Core × TerminalSet}
    (he : e ∈ items.entries) (row : Row) :
    pushItem g row e = some (Row.pushItem g row e) := by
  simp only [pushItem, rightOf_eq_some h (ItemSet.has_of_mem_entries he), Option.bind_eq_bind,
    Option.bind_some, Row.pushItem, Core.isComplete, decide_eq_true_eq]
  split <;> rfl

section Linked

variable (hg : g.WellFormed) (hf : f.Exact g) {a : Automaton} (ha : a.Linked g f mode)
include hg hf ha

theorem row_eq_some {q : Nat} {node : Node} (hq : a.nodes[q]? = some node) :
    row g (Row.blank g) node = some (Row.ofNode g (Row.blank g) node) := by
  have hrange := ha.inRange_items hg hf hq
  have hitems : ∀ row : Row, node.items.entries.foldlM (pushItem g) row =
      some (node.items.entries.foldl (Row.pushItem g) row) := fun row =>
    foldlM_eq_some (fun _ => True) (fun row _ he _ => ⟨pushItem_eq_some hrange he row, trivial⟩)
      trivial
  have hsymbols : ∀ k ∈ (Row.ofNode g (Row.blank g) node).conflicts node.id,
      g.symbol? k.symbol = some (g.symbol k.symbol) := by
    intro k hk
    obtain ⟨⟨x, actions⟩, hentry, hsome⟩ := List.mem_filterMap.1 hk
    simp only [Option.ite_none_right_eq_some, Option.some.injEq] at hsome
    obtain ⟨-, rfl⟩ := hsome
    have hkey : x ∈ (Row.ofNode g (Row.blank g) node).keys := List.mem_map.2 ⟨_, hentry, rfl⟩
    rw [Row.ofNode_eq_pushAll, ParseTable.keys_row hg hf ha hq] at hkey
    exact Grammar.symbol?_eq_some (Grammar.mem_symbolIds_iff.1 hkey)
  have hrow : node.items.entries.foldl (Row.pushItem g)
      (node.edges.entries.foldl Row.pushEdge (Row.blank g)) = Row.ofNode g (Row.blank g) node := rfl
  simp only [row, hitems, hrow, mapM_eq_some hsymbols, Option.bind_eq_bind, Option.bind_some]

theorem table_eq_some : table g a = some (.ofAutomaton g a) := by
  have hrows : ∀ node ∈ a.nodes.toList,
      row g (Row.blank g) node = some (Row.ofNode g (Row.blank g) node) := by
    intro node hnode
    obtain ⟨q, hq⟩ := List.mem_iff_getElem?.1 hnode
    rw [Array.getElem?_toList] at hq
    exact row_eq_some hg hf ha hq
  simp only [table, mapM_eq_some hrows, Option.bind_eq_bind, Option.bind_some,
    ParseTable.ofAutomaton, ← Array.toList_map, Array.toArray_toList]

end Linked

/-! ## Parsers -/

def build (rules : List Rule) (start : Symbol) (mode : MergeMode) :
    Option (Except GrammarError Parser) :=
  match Grammar.ofRules rules start with
  | .error e => some (.error e)
  | .ok grammar => do
    let firstSets ← firstSets grammar
    let automaton ← automaton grammar firstSets mode
    let table ← table grammar automaton
    some (.ok ⟨grammar, firstSets, automaton, table⟩)

/-- For every rule list, start symbol and merge mode the build ends, with a parser or with what is
wrong with the rules, and every number by which something is looked up on the way is in range. -/
theorem build_eq_some (rules : List Rule) (start : Symbol) (mode : MergeMode) :
    build rules start mode = some (Parser.build rules start mode) := by
  unfold build Parser.build
  cases hg : Grammar.ofRules rules start with
  | error e => rfl
  | ok g =>
    have hwf := Grammar.wellFormed_of_ofRules hg
    have hexact := FirstSets.exact_ofGrammar hwf
    have hsets : (FirstSets.ofGrammar g).sets.size = g.nonterminals.size :=
      FirstSets.soundSets_ofGrammar.1
    have hlinked : Automaton.Linked g (.ofGrammar g) mode (.ofGrammar g (.ofGrammar g) mode) :=
      Automaton.linked_ofGrammar hwf hexact
    simp only [firstSets_eq_some hwf, automaton_eq_some hwf hexact hsets,
      table_eq_some hwf hexact hlinked, Option.bind_eq_bind, Option.bind_some]
    rfl

end Checked

end ShiftReduce
