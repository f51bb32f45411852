import ShiftReduce.Proofs.Strides

/-!
# The turns of a canonical parser

A configuration of a canonical parser in which no nonterminal waits decides its next turn by the
items that are valid for its path.  It stops with an error, accepts, shifts, or reduces by a rule
whose right side ends the path, after which the goto is always there.  So the faults of a table
that is not the table of its grammar never come up.

    action ∈ p.table.actions q x ↔ (∃ r, p.automaton.edge? q x = some r ∧ …) ∨
      ∃ c t, x = .terminal t ∧ ValidItem p.grammar γ c t ∧ …            (mem_canonical_actions_iff)
    c.Tracks p.grammar p.automaton tokens γ none rest → Turn p tokens γ rest c    (Tracks.turn)
-/

namespace ShiftReduce

variable {π : Type} {rules : List Rule} {start : Symbol} {p : Parser} {γ : List SymbolId}

/-! ## The cells of a canonical parser -/

namespace Parser

variable {q : StateId} {x : SymbolId}

section Cells

variable (hp : p.Built rules start .canonical)
  (hq : p.automaton.follow? Automaton.startState γ = some q)
include hp hq

/-- A cell offers the edge on its symbol and what the completed valid items ask for. -/
theorem mem_canonical_actions_iff {action : Action} : action ∈ p.table.actions q x ↔
    (∃ r, p.automaton.edge? q x = some r ∧ action = edgeAction x r) ∨
      ∃ c t, x = .terminal t ∧ ValidItem p.grammar γ c t ∧ c.isComplete p.grammar = true ∧
        action = c.completion := by
  obtain ⟨node, hnode, hvalid⟩ :=
    Automaton.exists_node_of_follow? hp.wellFormed hp.exact hp.linked hq
  simp only [mem_actions_iff hp hnode, hvalid.looks_iff]

end Cells

end Parser

/-! ## Turns -/

namespace Configuration

variable {tokens rest : List (Token π)} {c : Configuration π}

/-- What happens next in a configuration of a canonical parser with the path of `γ` and `rest`
still to be read.  A reduction is taken together with its goto. -/
inductive Turn (p : Parser) (tokens : List (Token π)) (γ : List SymbolId) (rest : List (Token π))
    (c : Configuration π) : Prop
  | undefined {token : Token π} {below : List (Token π)} :
      rest = token :: below →
      (∀ x, p.grammar.number? token.symbol = some (.terminal x) → x = endOfInputId) →
      c.step p.grammar p.table = .failed (.undefinedSymbol c.position token.symbol) →
      Turn p tokens γ rest c
  | unexpected {x : TerminalId} {q : StateId} :
      Reads p.grammar rest x → p.automaton.follow? Automaton.startState γ = some q →
      p.table.actions q (.terminal x) = [] →
      c.step p.grammar p.table = .failed (.unexpected c.position (headSymbol rest)
        ((p.table.expectedTerminals q).map p.grammar.terminal)) →
      Turn p tokens γ rest c
  | conflict {x : TerminalId} {q : StateId} :
      Reads p.grammar rest x → p.automaton.follow? Automaton.startState γ = some q →
      2 ≤ (p.table.actions q (.terminal x)).length →
      c.step p.grammar p.table = .failed (.conflict c.position q (headSymbol rest)
        (p.table.actions q (.terminal x))) →
      Turn p tokens γ rest c
  | shift {token : Token π} {below : List (Token π)} {x : TerminalId} {q r : StateId}
      {d : Configuration π} :
      rest = token :: below → Reads p.grammar rest x →
      p.automaton.follow? Automaton.startState γ = some q →
      p.table.actions q (.terminal x) = [.shift r] →
      c.step p.grammar p.table = .next d →
      Tracks p.grammar p.automaton tokens (γ ++ [.terminal x]) none below d →
      d.trees = .leaf token :: c.trees → Turn p tokens γ rest c
  | reduce {rule : Production} {β : List SymbolId} {x : TerminalId} {q : StateId}
      {d e : Configuration π} :
      Reads p.grammar rest x → p.automaton.follow? Automaton.startState γ = some q →
      p.table.actions q (.terminal x) = [.reduce rule.id] →
      rule ∈ p.grammar.productions → rule.id ≠ acceptId →
      γ = β ++ rule.right → ValidItem p.grammar γ ⟨rule.id, rule.right.length⟩ x →
      c.step p.grammar p.table = .next d → d.step p.grammar p.table = .next e →
      Tracks p.grammar p.automaton tokens (β ++ [.nonterminal rule.left]) none rest e →
      e.trees = gathered p.grammar rule.id c.trees :: c.trees.drop rule.right.length →
      Turn p tokens γ rest c
  | accept {q : StateId} {root : Tree π} :
      rest = [] → p.automaton.follow? Automaton.startState γ = some q →
      p.table.actions q (.terminal endOfInputId) = [.accept] →
      γ = [.nonterminal p.grammar.start] → c.trees = [root] →
      c.step p.grammar p.table = .accepted root → Turn p tokens γ rest c

section Turns

variable (hp : p.Built rules start .canonical)
  (h : Tracks p.grammar p.automaton tokens γ none rest c)
include hp h

/-- The rule of a completed item can be reduced, and the goto is there. -/
theorem Tracks.step_reduce {x : TerminalId} (hx : Reads p.grammar rest x) {q : StateId}
    (hq : p.automaton.follow? Automaton.startState γ = some q) {rule : Production}
    (hrule : rule ∈ p.grammar.productions) (hne : rule.id ≠ acceptId)
    (hitem : ValidItem p.grammar γ ⟨rule.id, rule.right.length⟩ x)
    (hactions : p.table.actions q (.terminal x) = [.reduce rule.id]) :
    ∃ β d e, γ = β ++ rule.right ∧ c.step p.grammar p.table = .next d ∧
      d.step p.grammar p.table = .next e ∧
      Tracks p.grammar p.automaton tokens (β ++ [.nonterminal rule.left]) none rest e ∧
      e.trees = gathered p.grammar rule.id c.trees :: c.trees.drop rule.right.length := by
  have hg := hp.wellFormed
  have hright := hg.right_id hrule
  have hleft := hg.left_id hrule
  obtain ⟨β, hγ, -⟩ := hitem.validCore.exists_before_right (hg.isComplete_end hrule)
  rw [hright] at hγ
  subst hγ
  obtain ⟨d, hperform, htracks, htrees⟩ := h.reduce (r := rule.id) (by rw [hright])
  rw [hleft] at htracks
  -- The rule was asked for by an item that stands before its left side, so there is an edge.
  obtain ⟨item, hvalid, hnext⟩ := hitem.validCore.exists_before_left hg hrule hne
  obtain ⟨q', states', hstates', hq'⟩ := htracks.path.exists_cons
  obtain ⟨r, hedge⟩ :=
    (Automaton.exists_edge_iff hg hp.exact hp.linked hq').2 ⟨item, hvalid, hnext⟩
  obtain ⟨e, hgoto, htracks', htrees'⟩ :=
    htracks.goto hstates' (Parser.actions_goto hp hq' hedge) hedge
  rw [htrees, hright] at htrees'
  exact ⟨β, d, e, rfl, (h.step_eq_perform hp hx hq hactions).trans hperform, hgoto, htracks', htrees'⟩

/-- Acceptance is offered only before the end of input, with the start symbol gathered. -/
theorem Tracks.step_accept {x : TerminalId} (hx : Reads p.grammar rest x) {q : StateId}
    (hq : p.automaton.follow? Automaton.startState γ = some q) {item : Core}
    (hitem : ValidItem p.grammar γ item x) (hcomplete : item.isComplete p.grammar = true)
    (hrule : item.rule = acceptId) (hactions : p.table.actions q (.terminal x) = [.accept]) :
    ∃ root, rest = [] ∧ γ = [.nonterminal p.grammar.start] ∧ c.trees = [root] ∧
      c.step p.grammar p.table = .accepted root := by
  have hg := hp.wellFormed
  obtain ⟨β, hγ, hstart⟩ := hitem.validCore.exists_before_right hcomplete
  rw [hrule] at hstart
  obtain rfl := hstart.eq_nil_of_start_accept hg
  rw [hrule, hg.right_accept, List.nil_append] at hγ
  obtain rfl := hitem.eq_end_of_accept hg hrule
  have hlength := h.length_trees
  rw [hγ, List.length_singleton] at hlength
  obtain ⟨root, htrees⟩ := List.length_eq_one_iff.1 hlength
  cases hx with
  | token _ hne => exact absurd rfl hne
  | done => exact ⟨root, rfl, hγ, htrees, h.step_accepted hp .done hq hactions rfl htrees⟩

/-- Every configuration in which nothing waits takes one of these turns. -/
theorem Tracks.turn : Turn p tokens γ rest c := by
  rcases h.stride hp with ⟨hrest, hnumber, hstep⟩ | ⟨hx, hq, hactions, hstep⟩ |
    ⟨hx, hq, hactions, hstep⟩ | ⟨hrest, hx, hq, hactions, hstep, hd, htop⟩ |
    ⟨hx, hq, hnode, hactions, hrule, hne, hlooks⟩ |
    ⟨hx, hq, hnode, hactions, hlooks, hcomplete, hrule⟩
  · exact .undefined hrest hnumber hstep
  · exact .unexpected hx hq hactions hstep
  · exact .conflict hx hq hactions hstep
  · exact .shift hrest hx hq hactions hstep hd htop
  · have hitem := Automaton.validItem_of_looks hp.wellFormed hp.exact hp.linked hq hnode hlooks
    obtain ⟨β, d, e, hγ, hstep, hstep', he, htop⟩ := h.step_reduce hp hx hq hrule hne hitem hactions
    exact .reduce hx hq hactions hrule hne hγ hitem hstep hstep' he htop
  · have hitem := Automaton.validItem_of_looks hp.wellFormed hp.exact hp.linked hq hnode hlooks
    obtain ⟨root, rfl, hγ, htop, hstep⟩ := h.step_accept hp hx hq hitem hcomplete hrule hactions
    obtain rfl := hitem.eq_end_of_accept hp.wellFormed hrule
    exact .accept rfl hq hactions hγ htop hstep

end Turns

/-! ## Invariants of turns -/

/-- A property of configurations in which nothing waits that shifts and reductions keep. -/
structure Kept (p : Parser) (tokens : List (Token π))
    (I : List SymbolId → List (Token π) → Configuration π → Prop) : Prop where
  shift : ∀ {γ token below x q r} {c d : Configuration π}, I γ (token :: below) c →
    Reads p.grammar (token :: below) x → p.automaton.follow? Automaton.startState γ = some q →
    p.table.actions q (.terminal x) = [.shift r] →
    Tracks p.grammar p.automaton tokens (γ ++ [.terminal x]) none below d →
    d.trees = .leaf token :: c.trees → I (γ ++ [.terminal x]) below d
  reduce : ∀ {rule : Production} {β rest x q} {c d : Configuration π}, I (β ++ rule.right) rest c →
    Tracks p.grammar p.automaton tokens (β ++ rule.right) none rest c →
    Reads p.grammar rest x →
    p.automaton.follow? Automaton.startState (β ++ rule.right) = some q →
    p.table.actions q (.terminal x) = [.reduce rule.id] →
    rule ∈ p.grammar.productions → rule.id ≠ acceptId →
    ValidItem p.grammar (β ++ rule.right) ⟨rule.id, rule.right.length⟩ x →
    d.trees = gathered p.grammar rule.id c.trees :: c.trees.drop rule.right.length →
    I (β ++ [.nonterminal rule.left]) rest d

theorem Kept.sustained (hp : p.Built rules start .canonical)
    {I : List SymbolId → List (Token π) → Configuration π → Prop} (hI : Kept p tokens I) :
    Sustained p tokens I where
  shift := hI.shift
  reduce {rule β κ rest x q node c d} h hc hlength hx hq hnode hactions hrule hne hlooks _ htop := by
    have hg := hp.wellFormed
    have hitem := Automaton.validItem_of_looks hg hp.exact hp.linked hq hnode hlooks
    obtain ⟨β', hγ, -⟩ := hitem.validCore.exists_before_right (hg.isComplete_end hrule)
    rw [hg.right_id hrule] at hγ
    obtain ⟨rfl, rfl⟩ := List.append_inj' hγ hlength
    exact hI.reduce h hc hx hq hactions hrule hne hitem htop

/-- A run that ends keeps what its turns keep up to its last step. -/
theorem Tracks.exists_last (hp : p.Built rules start .canonical)
    {I : List SymbolId → List (Token π) → Configuration π → Prop} (hI : Kept p tokens I)
    (h : Tracks p.grammar p.automaton tokens γ none rest c) (hi : I γ rest c)
    {r : Except ParseError (Tree π)} (hanswer : c.run p.grammar p.table = some r) :
    ∃ δ below d, Tracks p.grammar p.automaton tokens δ none below d ∧ I δ below d ∧
      (d.step p.grammar p.table).answer? = some r := by
  obtain ⟨δ, below, d, hd, hid, hlast | ⟨β, n, e, hgather, he, hlast⟩⟩ :=
    h.exists_last_stride hp (hI.sustained hp) hi hanswer
  · exact ⟨δ, below, d, hd, hid, hlast⟩
  -- What was gathered is always entered, so the run does not end there.
  rcases hd.turn hp with ⟨-, -, hstep⟩ | ⟨-, -, -, hstep⟩ | ⟨-, -, -, hstep⟩ |
    ⟨-, -, -, -, hstep, hshift, -⟩ | ⟨-, -, -, -, -, -, -, hstep, hgoto, -, -⟩ | ⟨-, -, -, -, -, hstep⟩
  · cases hstep.symm.trans hgather
  · cases hstep.symm.trans hgather
  · cases hstep.symm.trans hgather
  · obtain rfl := Outcome.next.inj (hstep.symm.trans hgather)
    exact absurd he hshift.not_waiting
  · obtain rfl := Outcome.next.inj (hstep.symm.trans hgather)
    rw [hgoto] at hlast
    cases hlast
  · cases hstep.symm.trans hgather

end Configuration

end ShiftReduce
