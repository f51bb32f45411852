import ShiftReduce.Proofs.Edges
import ShiftReduce.Proofs.Runs

/-!
# Strides

What a configuration of a parser does next is decided by one cell, in canonical mode and in
superset mode alike.  A configuration in which no nonterminal waits fails, accepts, shifts, or
gathers as many trees as some rule has symbols, of which a completed item of its state says that it
looks at what is read; then the goto follows, or there is none.  The states stay a path of the
automaton all along.  What superset mode does not promise is that the symbols at the end of the path
are the right side of the rule, nor that the goto is there.

    c.Tracks p.grammar p.automaton tokens γ none rest → Stride p tokens γ rest c   (Tracks.stride)
    c.Tracks … γ (some n) rest → (∃ e, c.step … = .failed e) ∨
      ∃ d, c.step … = .next d ∧ d.Tracks … (γ ++ [.nonterminal n]) none rest ∧ …  (Tracks.step_goto)
-/

namespace ShiftReduce

variable {π : Type} {rules : List Rule} {start : Symbol} {mode : MergeMode} {p : Parser}
  {γ : List SymbolId}

/-! ## Cells along a path -/

namespace Parser

section Cells

variable (hp : p.Built rules start mode) {q : StateId}
  (hq : p.automaton.follow? Automaton.startState γ = some q)
include hp hq

theorem actions_goto {n : NonterminalId} {r : StateId}
    (hedge : p.automaton.edge? q (.nonterminal n) = some r) :
    p.table.actions q (.nonterminal n) = [.goto r] := by
  obtain ⟨node, hnode⟩ := hp.linked.exists_node hq
  rw [actions_nonterminal hp hnode, hedge]
  rfl

/-- The end of input stands before no marker, so it is never shifted. -/
theorem edge?_end : p.automaton.edge? q (.terminal endOfInputId) = none := by
  obtain ⟨node, hnode⟩ := hp.linked.exists_node hq
  exact hp.linked.edge?_end hp.wellFormed hnode

/-- The terminals that a state expects are those on which it has an action, in order. -/
theorem expectedTerminals_eq_filter : p.table.expectedTerminals q =
    (List.range p.grammar.terminals.size).filter fun t =>
      p.table.actions q (.terminal t) ≠ [] := by
  obtain ⟨node, hnode⟩ := hp.linked.exists_node hq
  rw [hp.table_eq]
  exact ParseTable.expectedTerminals_ofAutomaton hp.wellFormed hp.exact hp.linked hnode

end Cells

end Parser

/-! ## Single steps -/

namespace Configuration

variable {tokens rest : List (Token π)} {c : Configuration π}

section Steps

variable (hp : p.Built rules start mode) (h : Tracks p.grammar p.automaton tokens γ none rest c)
  {x : TerminalId} (hx : Reads p.grammar rest x) {q : StateId}
  (hq : p.automaton.follow? Automaton.startState γ = some q)
include hp h hx hq

/-- With one action in the cell, the step performs it. -/
theorem Tracks.step_eq_perform {action : Action}
    (hactions : p.table.actions q (.terminal x) = [action]) :
    c.step p.grammar p.table = c.perform p.grammar action := by
  obtain ⟨states, hstates⟩ := h.exists_states hq
  simp only [step, move, hstates, h.lookahead hp.numbers.symbol_end hx, hactions]

/-- A shift enters the state of the edge. -/
theorem Tracks.step_shift {r : StateId} (hactions : p.table.actions q (.terminal x) = [.shift r])
    (hedge : p.automaton.edge? q (.terminal x) = some r) :
    ∃ token below d, rest = token :: below ∧ c.step p.grammar p.table = .next d ∧
      Tracks p.grammar p.automaton tokens (γ ++ [.terminal x]) none below d ∧
      d.trees = .leaf token :: c.trees := by
  cases hx with
  | done =>
    rw [Parser.edge?_end hp hq] at hedge
    cases hedge
  | @token token below _ hnumber hne =>
    obtain ⟨states, hstates⟩ := h.exists_states hq
    obtain ⟨d, hperform, htracks, htrees⟩ :=
      h.shift (Grammar.number?_eq_some_iff.1 hnumber).2 hstates hedge
    have hstep := h.step_eq_perform hp (.token hnumber hne) hq hactions
    exact ⟨token, below, d, rfl, hstep.trans hperform, htracks, htrees⟩

/-- A reduction gathers as many trees as its rule has symbols, if there are so many. -/
theorem Tracks.step_gather {rule : Production} (hrule : rule ∈ p.grammar.productions)
    (hactions : p.table.actions q (.terminal x) = [.reduce rule.id]) :
    (γ.length < rule.right.length ∧
      c.step p.grammar p.table = .failed (.internal .stackTooShort)) ∨
    ∃ β κ d, γ = β ++ κ ∧ κ.length = rule.right.length ∧ c.step p.grammar p.table = .next d ∧
      Tracks p.grammar p.automaton tokens β (some rule.left) rest d ∧
      d.trees = gathered p.grammar rule.id c.trees :: c.trees.drop rule.right.length := by
  have hright := hp.wellFormed.right_id hrule
  have hstep := h.step_eq_perform hp hx hq hactions
  by_cases hshort : γ.length < rule.right.length
  · refine Or.inl ⟨hshort, hstep.trans ?_⟩
    have htake : (c.trees.take (p.grammar.right rule.id).length).length <
        (p.grammar.right rule.id).length := by
      rw [List.length_take, h.length_trees, hright]
      omega
    simp only [perform, htake, decide_true, Bool.or_true, if_true]
  · have hsplit := List.take_append_drop (γ.length - rule.right.length) γ
    have hlength : (γ.drop (γ.length - rule.right.length)).length = rule.right.length := by
      rw [List.length_drop]
      omega
    rw [← hsplit] at h
    obtain ⟨d, hperform, htracks, htrees⟩ := h.reduce (r := rule.id) (hlength.trans (by rw [hright]))
    rw [hp.wellFormed.left_id hrule] at htracks
    rw [hright] at htrees
    exact Or.inr ⟨_, _, d, hsplit.symm, hlength, hstep.trans hperform, htracks, htrees⟩

theorem Tracks.step_accepted (hactions : p.table.actions q (.terminal x) = [.accept])
    (hrest : rest = []) {root : Tree π} (htrees : c.trees = [root]) :
    c.step p.grammar p.table = .accepted root := by
  have hqueue : c.queue = [.endOfInput] := by
    rw [h.queue_eq, hrest]
    rfl
  rw [h.step_eq_perform hp hx hq hactions]
  simp only [perform, hqueue, htrees]

/-- Acceptance ends the run, with the only tree or because something is left over. -/
theorem Tracks.step_finish (hactions : p.table.actions q (.terminal x) = [.accept]) :
    (∃ root, rest = [] ∧ c.trees = [root] ∧ c.step p.grammar p.table = .accepted root) ∨
      c.step p.grammar p.table = .failed (.internal .leftovers) := by
  by_cases hlast : rest = [] ∧ ∃ root, c.trees = [root]
  · obtain ⟨hrest, root, htrees⟩ := hlast
    exact Or.inl ⟨root, hrest, htrees, h.step_accepted hp hx hq hactions hrest htrees⟩
  · refine Or.inr ((h.step_eq_perform hp hx hq hactions).trans ?_)
    have hqueue : c.queue = rest.map .token ++ [.endOfInput] := h.queue_eq
    simp only [perform]
    split
    · next root hend htrees =>
      rw [hend] at hqueue
      cases rest with
      | nil => exact absurd ⟨rfl, root, htrees⟩ hlast
      | cons token below => cases hqueue
    · rfl

theorem Tracks.step_conflict (hactions : 2 ≤ (p.table.actions q (.terminal x)).length) :
    c.step p.grammar p.table = .failed (.conflict c.position q (headSymbol rest)
      (p.table.actions q (.terminal x))) := by
  obtain ⟨states, hstates⟩ := h.exists_states hq
  cases hcell : p.table.actions q (.terminal x) with
  | nil => simp [hcell] at hactions
  | cons action others =>
    cases others with
    | nil => simp [hcell] at hactions
    | cons other others =>
      simp only [step, move, hstates, h.lookahead hp.numbers.symbol_end hx, hcell]

theorem Tracks.step_unexpected (hactions : p.table.actions q (.terminal x) = []) :
    c.step p.grammar p.table = .failed (.unexpected c.position (headSymbol rest)
      ((p.table.expectedTerminals q).map p.grammar.terminal)) := by
  obtain ⟨states, hstates⟩ := h.exists_states hq
  simp only [step, move, hstates, h.lookahead hp.numbers.symbol_end hx, hactions]

/-- An action that the cell offers is the only one, or the step fails with a conflict. -/
theorem Tracks.only_or_conflict {action : Action}
    (hmem : action ∈ p.table.actions q (.terminal x)) :
    p.table.actions q (.terminal x) = [action] ∨
      2 ≤ (p.table.actions q (.terminal x)).length ∧
        c.step p.grammar p.table = .failed (.conflict c.position q (headSymbol rest)
          (p.table.actions q (.terminal x))) := by
  by_cases hlong : 2 ≤ (p.table.actions q (.terminal x)).length
  · exact Or.inr ⟨hlong, h.step_conflict hp hx hq hlong⟩
  · have hone : (p.table.actions q (.terminal x)).length = 1 := by
      have hpos := List.length_pos_of_mem hmem
      omega
    obtain ⟨only, hactions⟩ := List.length_eq_one_iff.1 hone
    rw [hactions, List.mem_singleton] at hmem
    exact Or.inl (by rw [hactions, hmem])

end Steps

/-- A token that is not read is no terminal of the grammar, or is the end of input. -/
theorem Tracks.step_undefined (h : Tracks p.grammar p.automaton tokens γ none rest c)
    (hnot : ∀ x, ¬ Reads p.grammar rest x) : ∃ token below, rest = token :: below ∧
      (∀ x, p.grammar.number? token.symbol = some (.terminal x) → x = endOfInputId) ∧
      c.step p.grammar p.table = .failed (.undefinedSymbol c.position token.symbol) := by
  obtain ⟨q, states, hstates, -⟩ := h.path.exists_cons
  obtain ⟨token, below, hrest, hnumber, hlookahead⟩ := h.lookahead_of_not_reads hnot
  refine ⟨token, below, hrest, hnumber, ?_⟩
  simp only [step, move, hstates, hlookahead]

/-- What was gathered is entered along its edge, or there is no edge for it. -/
theorem Tracks.step_goto (hp : p.Built rules start mode) {n : NonterminalId}
    (h : Tracks p.grammar p.automaton tokens γ (some n) rest c) {q : StateId}
    (hq : p.automaton.follow? Automaton.startState γ = some q) :
    (p.automaton.edge? q (.nonterminal n) = none ∧
      c.step p.grammar p.table = .failed (.unexpected c.position (p.grammar.nonterminal n)
        ((p.table.expectedTerminals q).map p.grammar.terminal))) ∨
    ∃ d, c.step p.grammar p.table = .next d ∧
      Tracks p.grammar p.automaton tokens (γ ++ [.nonterminal n]) none rest d ∧
      d.trees = c.trees := by
  obtain ⟨states, hstates⟩ := h.exists_states hq
  cases hedge : p.automaton.edge? q (.nonterminal n) with
  | some r => exact Or.inr (h.goto hstates (Parser.actions_goto hp hq hedge) hedge)
  | none =>
    obtain ⟨node, hnode⟩ := hp.linked.exists_node hq
    have hactions : p.table.actions q (.nonterminal n) = [] := by
      rw [Parser.actions_nonterminal hp hnode, hedge]
      rfl
    have hqueue : c.queue = .reduced n :: (rest.map .token ++ [.endOfInput]) := h.queue_eq
    refine Or.inl ⟨rfl, ?_⟩
    simp only [step, move, hstates, Configuration.lookahead, hqueue, hactions]

/-! ## Strides -/

/-- What happens next in a configuration in which nothing waits, with the path of `γ` and `rest`
still to be read. -/
inductive Stride (p : Parser) (tokens : List (Token π)) (γ : List SymbolId) (rest : List (Token π))
    (c : Configuration π) : Prop
  | undefined {token : Token π} {below : List (Token π)} :
      rest = token :: below →
      (∀ x, p.grammar.number? token.symbol = some (.terminal x) → x = endOfInputId) →
      c.step p.grammar p.table = .failed (.undefinedSymbol c.position token.symbol) →
      Stride p tokens γ rest c
  | unexpected {x : TerminalId} {q : StateId} :
      Reads p.grammar rest x → p.automaton.follow? Automaton.startState γ = some q →
      p.table.actions q (.terminal x) = [] →
      c.step p.grammar p.table = .failed (.unexpected c.position (headSymbol rest)
        ((p.table.expectedTerminals q).map p.grammar.terminal)) →
      Stride p tokens γ rest c
  | conflict {x : TerminalId} {q : StateId} :
      Reads p.grammar rest x → p.automaton.follow? Automaton.startState γ = some q →
      2 ≤ (p.table.actions q (.terminal x)).length →
      c.step p.grammar p.table = .failed (.conflict c.position q (headSymbol rest)
        (p.table.actions q (.terminal x))) →
      Stride p tokens γ rest c
  | shift {token : Token π} {below : List (Token π)} {x : TerminalId} {q r : StateId}
      {d : Configuration π} :
      rest = token :: below → Reads p.grammar rest x →
      p.automaton.follow? Automaton.startState γ = some q →
      p.table.actions q (.terminal x) = [.shift r] →
      c.step p.grammar p.table = .next d →
      Tracks p.grammar p.automaton tokens (γ ++ [.terminal x]) none below d →
      d.trees = .leaf token :: c.trees → Stride p tokens γ rest c
  | reduce {rule : Production} {x : TerminalId} {q : Nat} {node : Node} :
      Reads p.grammar rest x → p.automaton.follow? Automaton.startState γ = some q →
      p.automaton.nodes[q]? = some node → p.table.actions q (.terminal x) = [.reduce rule.id] →
      rule ∈ p.grammar.productions → rule.id ≠ acceptId →
      node.items.Looks ⟨rule.id, rule.right.length⟩ x → Stride p tokens γ rest c
  | accept {item : Core} {x : TerminalId} {q : Nat} {node : Node} :
      Reads p.grammar rest x → p.automaton.follow? Automaton.startState γ = some q →
      p.automaton.nodes[q]? = some node → p.table.actions q (.terminal x) = [.accept] →
      node.items.Looks item x → item.isComplete p.grammar = true → item.rule = acceptId →
      Stride p tokens γ rest c

/-- Every configuration in which nothing waits takes one of these strides. -/
theorem Tracks.stride (hp : p.Built rules start mode)
    (h : Tracks p.grammar p.automaton tokens γ none rest c) : Stride p tokens γ rest c := by
  obtain ⟨q, -, -, hq⟩ := h.path.exists_cons
  by_cases hreads : ∃ x, Reads p.grammar rest x
  · obtain ⟨x, hx⟩ := hreads
    cases hactions : p.table.actions q (.terminal x) with
    | nil => exact .unexpected hx hq hactions (h.step_unexpected hp hx hq hactions)
    | cons action others =>
      cases others with
      | cons other others =>
        have hlong : 2 ≤ (p.table.actions q (.terminal x)).length := by simp [hactions]
        exact .conflict hx hq hlong (h.step_conflict hp hx hq hlong)
      | nil =>
        obtain ⟨node, hnode⟩ := hp.linked.exists_node hq
        have hmem : action ∈ p.table.actions q (.terminal x) := by simp [hactions]
        rcases (Parser.mem_actions_iff hp hnode).1 hmem with
          ⟨r, hedge, rfl⟩ | ⟨item, y, hy, hlooks, hcomplete, rfl⟩
        · obtain ⟨token, below, d, hrest, hstep, hd, htop⟩ := h.step_shift hp hx hq hactions hedge
          exact .shift hrest hx hq hactions hstep hd htop
        · obtain rfl := SymbolId.terminal.inj hy
          unfold Core.completion at hactions
          split at hactions
          · next hrule => exact .accept hx hq hnode hactions hlooks hcomplete hrule
          · next hne =>
            obtain ⟨rule, hrule, rfl⟩ := hp.linked.exists_rule_of_complete hp.wellFormed hp.exact
              hnode hlooks.has hcomplete
            exact .reduce hx hq hnode hactions hrule hne hlooks
  · obtain ⟨token, below, hrest, hnumber, hstep⟩ := h.step_undefined fun x hx => hreads ⟨x, hx⟩
    exact .undefined hrest hnumber hstep

/-- A step that leads on shifts a token, or it gathers the trees of a rule. -/
theorem Tracks.of_step_next (hp : p.Built rules start mode)
    (h : Tracks p.grammar p.automaton tokens γ none rest c) {d : Configuration π}
    (hnext : c.step p.grammar p.table = .next d) :
    (∃ token below x q r, rest = token :: below ∧ Reads p.grammar rest x ∧
      p.automaton.follow? Automaton.startState γ = some q ∧
      p.table.actions q (.terminal x) = [.shift r] ∧
      Tracks p.grammar p.automaton tokens (γ ++ [.terminal x]) none below d ∧
      d.trees = .leaf token :: c.trees) ∨
    ∃ (rule : Production) (β κ : List SymbolId) (x : TerminalId) (q : Nat) (node : Node),
      γ = β ++ κ ∧ κ.length = rule.right.length ∧ Reads p.grammar rest x ∧
      p.automaton.follow? Automaton.startState γ = some q ∧ p.automaton.nodes[q]? = some node ∧
      p.table.actions q (.terminal x) = [.reduce rule.id] ∧
      rule ∈ p.grammar.productions ∧ rule.id ≠ acceptId ∧
      node.items.Looks ⟨rule.id, rule.right.length⟩ x ∧
      Tracks p.grammar p.automaton tokens β (some rule.left) rest d ∧
      d.trees = gathered p.grammar rule.id c.trees :: c.trees.drop rule.right.length := by
  rcases h.stride hp with ⟨-, -, hstep⟩ | ⟨-, -, -, hstep⟩ | ⟨-, -, -, hstep⟩ |
    ⟨hrest, hx, hq, hactions, hstep, hd, htop⟩ |
    ⟨hx, hq, hnode, hactions, hrule, hne, hlooks⟩ | ⟨hx, hq, -, hactions, -, -, -⟩
  · cases hnext.symm.trans hstep
  · cases hnext.symm.trans hstep
  · cases hnext.symm.trans hstep
  · obtain rfl := Outcome.next.inj (hnext.symm.trans hstep)
    exact Or.inl ⟨_, _, _, _, _, hrest, hx, hq, hactions, hd, htop⟩
  · rcases h.step_gather hp hx hq hrule hactions with
      ⟨-, hstep⟩ | ⟨β, κ, e, hγ, hlength, hstep, he, htop⟩
    · cases hnext.symm.trans hstep
    · obtain rfl := Outcome.next.inj (hnext.symm.trans hstep)
      exact Or.inr ⟨_, β, κ, _, _, _, hγ, hlength, hx, hq, hnode, hactions, hrule, hne, hlooks, he,
        htop⟩
  · rcases h.step_finish hp hx hq hactions with ⟨_, -, -, hstep⟩ | hstep
    · cases hnext.symm.trans hstep
    · cases hnext.symm.trans hstep

/-- The tree that is accepted has the start symbol at its root and the tokens as its leaves. -/
theorem Tracks.of_step_accepted (hp : p.Built rules start mode)
    (hpaths : p.automaton.Faithful p.grammar)
    (h : Tracks p.grammar p.automaton tokens γ none rest c) {root : Tree π}
    (haccepted : c.step p.grammar p.table = .accepted root) :
    c.trees = [root] ∧ root.symbol = start ∧ root.leaves = tokens := by
  have hg := hp.wellFormed
  rcases h.stride hp with ⟨-, -, hstep⟩ | ⟨-, -, -, hstep⟩ | ⟨-, -, -, hstep⟩ |
    ⟨-, -, -, -, hstep, -, -⟩ | ⟨hx, hq, -, hactions, hrule, -, -⟩ |
    @⟨item, x, q, node, hx, hq, hnode, hactions, hlooks, hcomplete, haccept⟩
  · cases haccepted.symm.trans hstep
  · cases haccepted.symm.trans hstep
  · cases haccepted.symm.trans hstep
  · cases haccepted.symm.trans hstep
  · rcases h.step_gather hp hx hq hrule hactions with ⟨-, hstep⟩ | ⟨_, _, _, -, -, hstep, -, -⟩
    · cases haccepted.symm.trans hstep
    · cases haccepted.symm.trans hstep
  rcases h.step_finish hp hx hq hactions with ⟨_, rfl, htop, hstep⟩ | hstep
  · obtain rfl := Outcome.accepted.inj (hstep.symm.trans haccepted)
    have hlength := h.length_trees
    rw [htop] at hlength
    obtain ⟨y, rfl⟩ := List.length_eq_one_iff.1 hlength.symm
    -- The augmenting rule ends in the start symbol, and so does the path.
    obtain ⟨δ, hδ⟩ := hpaths _ q node hq hnode
    have hlast := hp.linked.getLast?_right hg hp.exact hq hnode hδ hlooks.has hcomplete
      (by rw [haccept, hg.right_accept]; simp) (by simp)
    rw [haccept, hg.right_accept] at hlast
    obtain rfl : SymbolId.nonterminal p.grammar.start = y := Option.some.inj hlast
    have hsymbols := h.symbols_eq
    have hleaves := h.leaves_eq
    rw [htop] at hsymbols hleaves
    refine ⟨htop, ?_, ?_⟩
    · rw [← hp.numbers.symbol_start]
      exact (List.cons.inj hsymbols).1
    · simpa only [List.reverse_singleton, Tree.leavesOfAll, List.append_nil] using hleaves
  · cases haccepted.symm.trans hstep

/-! ## Invariants of strides -/

/-- The answer of a step that ends the run. -/
def Outcome.answer? : Outcome π → Option (Except ParseError (Tree π))
  | .next _ => none
  | .accepted tree => some (.ok tree)
  | .failed e => some (.error e)

theorem Outcome.eq_accepted_of_answer? {o : Outcome π} {tree : Tree π}
    (h : o.answer? = some (.ok tree)) : o = .accepted tree := by
  cases o with
  | next c => cases h
  | accepted tree' => rw [Except.ok.inj (Option.some.inj h)]
  | failed e => cases h

theorem Outcome.eq_failed_of_answer? {o : Outcome π} {e : ParseError}
    (h : o.answer? = some (.error e)) : o = .failed e := by
  cases o with
  | next c => cases h
  | accepted tree => cases h
  | failed e' => rw [Except.error.inj (Option.some.inj h)]

/-- A property of configurations in which nothing waits that shifts and reductions keep, whatever is
at the end of the path when a rule is reduced. -/
structure Sustained (p : Parser) (tokens : List (Token π))
    (I : List SymbolId → List (Token π) → Configuration π → Prop) : Prop where
  shift : ∀ {γ token below x q r} {c d : Configuration π}, I γ (token :: below) c →
    Reads p.grammar (token :: below) x → p.automaton.follow? Automaton.startState γ = some q →
    p.table.actions q (.terminal x) = [.shift r] →
    Tracks p.grammar p.automaton tokens (γ ++ [.terminal x]) none below d →
    d.trees = .leaf token :: c.trees → I (γ ++ [.terminal x]) below d
  reduce : ∀ {rule : Production} {β κ rest x} {q : Nat} {node : Node} {c d : Configuration π},
    I (β ++ κ) rest c → Tracks p.grammar p.automaton tokens (β ++ κ) none rest c →
    κ.length = rule.right.length → Reads p.grammar rest x →
    p.automaton.follow? Automaton.startState (β ++ κ) = some q →
    p.automaton.nodes[q]? = some node → p.table.actions q (.terminal x) = [.reduce rule.id] →
    rule ∈ p.grammar.productions → rule.id ≠ acceptId →
    node.items.Looks ⟨rule.id, rule.right.length⟩ x →
    Tracks p.grammar p.automaton tokens (β ++ [.nonterminal rule.left]) none rest d →
    d.trees = gathered p.grammar rule.id c.trees :: c.trees.drop rule.right.length →
    I (β ++ [.nonterminal rule.left]) rest d

theorem Tracks.not_waiting {g : Grammar} {a : Automaton} {δ : List SymbolId}
    {below : List (Token π)} {n : NonterminalId} (h : Tracks g a tokens γ none rest c) :
    ¬ Tracks g a tokens δ (some n) below c := by
  intro hwaits
  have hqueue : c.queue = rest.map .token ++ [.endOfInput] := h.queue_eq
  have hqueue' : c.queue = .reduced n :: (below.map .token ++ [.endOfInput]) := hwaits.queue_eq
  rw [hqueue'] at hqueue
  cases rest <;> cases hqueue

/-- A run that ends keeps what its strides keep up to its last step, or up to the step before that
if the last one has no goto. -/
theorem Tracks.exists_last_stride (hp : p.Built rules start mode)
    {I : List SymbolId → List (Token π) → Configuration π → Prop} (hI : Sustained p tokens I)
    (h : Tracks p.grammar p.automaton tokens γ none rest c) (hi : I γ rest c)
    {r : Except ParseError (Tree π)} (hanswer : c.run p.grammar p.table = some r) :
    ∃ δ below d, Tracks p.grammar p.automaton tokens δ none below d ∧ I δ below d ∧
      ((d.step p.grammar p.table).answer? = some r ∨ ∃ β n e,
        d.step p.grammar p.table = .next e ∧
        Tracks p.grammar p.automaton tokens β (some n) below e ∧
        (e.step p.grammar p.table).answer? = some r) := by
  obtain ⟨n, hrun⟩ := run_eq_some_iff.1 hanswer
  clear hanswer
  induction n using Nat.strong_induction_on generalizing γ rest c with
  | _ n ih =>
    cases n with
    | zero => cases hrun
    | succ n =>
      cases hstep : c.step p.grammar p.table with
      | accepted tree =>
        rw [runWithin_of_accepted hstep] at hrun
        exact ⟨γ, rest, c, h, hi, Or.inl (by rw [hstep]; exact hrun)⟩
      | failed e =>
        rw [runWithin_of_failed hstep] at hrun
        exact ⟨γ, rest, c, h, hi, Or.inl (by rw [hstep]; exact hrun)⟩
      | next d =>
        rw [runWithin_of_next hstep] at hrun
        rcases h.of_step_next hp hstep with ⟨_, _, _, _, _, rfl, hx, hq, hactions, hd, htop⟩ |
          ⟨_, β, κ, _, _, _, rfl, hlength, hx, hq, hnode, hactions, hrule, hne, hlooks, hd, htop⟩
        · exact ih n (Nat.lt_succ_self n) hd (hI.shift hi hx hq hactions hd htop) hrun
        -- The goto is the next step, and it may fail.
        obtain ⟨b, -, -, hb⟩ := hd.path.exists_cons
        cases n with
        | zero => cases hrun
        | succ n =>
          rcases hd.step_goto hp hb with ⟨-, hfail⟩ | ⟨e, hnext, he, htop'⟩
          · rw [runWithin_of_failed hfail] at hrun
            refine ⟨_, rest, c, h, hi, Or.inr ⟨β, _, d, hstep, hd, ?_⟩⟩
            rw [hfail]
            exact hrun
          · rw [runWithin_of_next hnext] at hrun
            exact ih n (by omega) he (hI.reduce hi h hlength hx hq hnode hactions hrule hne hlooks
              he (htop'.trans htop)) hrun

end Configuration

end ShiftReduce
