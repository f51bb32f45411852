import ShiftReduce.Proofs.Strides

/-!
# Every run ends

In superset mode the symbols of the stack need not be the right side of the rule that is reduced, so
a string that fits the path is no measure of what is still to be reduced.  But each state holds the
valid items of some string, and as long as the run stays above the state, that string and what is
stacked above it are covered: a string that fits them dictates each reduction and loses an open
rule by it.  So the run ends, shifts, or undercuts the state with a rule that reaches below it.  An
undercut leaves a shorter path, or one that differs in its last symbol; in the latter case the rule
was asked for below with the same lookahead, so that a string fits there as well, and the next
undercut leaves a shorter path.

    Fits p.grammar m (δ ++ κ) (.terminal x :: v) → Settles p tokens rest c ∨
      Undercuts p tokens γ δ rest x c                              (Tracks.settles_or_undercuts)
    ∃ n r, Configuration.runWithin p.grammar p.table n (Configuration.initial tokens) = some r ∧ …
                                                                             (parse_terminates)
-/

namespace ShiftReduce

variable {π : Type} {rules : List Rule} {start : Symbol} {mode : MergeMode} {p : Parser}
  {γ δ κ v : List SymbolId}

namespace Configuration

variable {tokens rest : List (Token π)} {c d : Configuration π} {x : TerminalId}

theorem append_eq_append_cases {β ζ : List SymbolId} (h : γ ++ κ = β ++ ζ) :
    (∃ α, β = γ ++ α ∧ κ = α ++ ζ) ∨ ∃ α, α ≠ [] ∧ γ = β ++ α ∧ ζ = α ++ κ := by
  rcases List.append_eq_append_iff.1 h with hlong | ⟨α, rfl, rfl⟩
  · exact Or.inl hlong
  · by_cases hα : α = []
    · subst hα
      exact Or.inl ⟨[], by simp, by simp⟩
    · exact Or.inr ⟨α, hα, rfl, rfl⟩

/-! ## What a run comes to on one lookahead -/

/-- The run ends, or it goes on to shift the next token. -/
def Settles (p : Parser) (tokens rest : List (Token π)) (c : Configuration π) : Prop :=
  (∃ r, c.run p.grammar p.table = some r) ∨ ∃ token below γ d, rest = token :: below ∧
    c.run p.grammar p.table = d.run p.grammar p.table ∧
    Tracks p.grammar p.automaton tokens γ none below d

/-- The run goes on above the path of `γ`, where the string `δ` is covered, until it reduces a rule
that takes symbols of `γ` itself.  The rule ends `δ` with what is above. -/
inductive Undercuts (p : Parser) (tokens : List (Token π)) (γ δ : List SymbolId)
    (rest : List (Token π)) (x : TerminalId) (c : Configuration π) : Prop
  | intro {κ α β ε : List SymbolId} {rule : Production} {q : StateId} {d : Configuration π} :
      p.automaton.follow? Automaton.startState (γ ++ κ) = some q →
      p.table.actions q (.terminal x) = [.reduce rule.id] → rule ∈ p.grammar.productions →
      rule.id ≠ acceptId → δ ++ κ = ε ++ rule.right → γ = β ++ α → α ≠ [] →
      (α ++ κ).length = rule.right.length → c.run p.grammar p.table = d.run p.grammar p.table →
      Tracks p.grammar p.automaton tokens (β ++ [.nonterminal rule.left]) none rest d →
      Undercuts p tokens γ δ rest x c

theorem Settles.of_failed {e : ParseError} (h : c.step p.grammar p.table = .failed e) :
    Settles p tokens rest c := Or.inl ⟨_, run_of_failed h⟩

theorem Settles.congr (hrun : c.run p.grammar p.table = d.run p.grammar p.table)
    (h : Settles p tokens rest d) : Settles p tokens rest c := by
  unfold Settles
  rw [hrun]
  exact h

theorem Undercuts.congr (hrun : c.run p.grammar p.table = d.run p.grammar p.table)
    (h : Undercuts p tokens γ δ rest x d) : Undercuts p tokens γ δ rest x c := by
  obtain ⟨hq, hactions, hrule, hne, hδ, hγ, hα, hlength, hrun', hd⟩ := h
  exact ⟨hq, hactions, hrule, hne, hδ, hγ, hα, hlength, hrun.trans hrun', hd⟩

/-! ## Reductions above a state -/

section Reductions

variable (hp : p.Built rules start mode) (h : Tracks p.grammar p.automaton tokens γ none rest c)
  (hx : Reads p.grammar rest x)
include hp h

/-- Unless a configuration reduces, it settles. -/
theorem Tracks.settles_or_reduces : Settles p tokens rest c ∨
    ∃ rule x q, Reads p.grammar rest x ∧ p.automaton.follow? Automaton.startState γ = some q ∧
      p.table.actions q (.terminal x) = [.reduce rule.id] ∧ rule ∈ p.grammar.productions ∧
      rule.id ≠ acceptId := by
  rcases h.stride hp with ⟨-, -, hstep⟩ | ⟨-, -, -, hstep⟩ | ⟨-, -, -, hstep⟩ |
    ⟨hrest, -, -, -, hstep, hd, -⟩ | ⟨hx, hq, -, hactions, hrule, hne, -⟩ | ⟨hx, hq, -, hactions, -, -, -⟩
  · exact Or.inl (.of_failed hstep)
  · exact Or.inl (.of_failed hstep)
  · exact Or.inl (.of_failed hstep)
  · exact Or.inl (Or.inr ⟨_, _, _, _, hrest, run_of_step hstep, hd⟩)
  · exact Or.inr ⟨_, _, _, hx, hq, hactions, hrule, hne⟩
  · rcases h.step_finish hp hx hq hactions with ⟨root, -, -, hstep⟩ | hstep
    · exact Or.inl (Or.inl ⟨_, run_of_accepted hstep⟩)
    · exact Or.inl (.of_failed hstep)

include hx

/-- A reduction settles the run, or it leads with its goto to a path that has as many symbols
replaced as the rule has. -/
theorem Tracks.settles_or_replaces {q : StateId} {rule : Production}
    (hq : p.automaton.follow? Automaton.startState γ = some q)
    (hactions : p.table.actions q (.terminal x) = [.reduce rule.id])
    (hrule : rule ∈ p.grammar.productions) : Settles p tokens rest c ∨
    ∃ β ζ d, γ = β ++ ζ ∧ ζ.length = rule.right.length ∧
      c.run p.grammar p.table = d.run p.grammar p.table ∧
      Tracks p.grammar p.automaton tokens (β ++ [.nonterminal rule.left]) none rest d := by
  rcases h.step_gather hp hx hq hrule hactions with
    ⟨-, hstep⟩ | ⟨β, ζ, d, hγ, hlength, hstep, hd, -⟩
  · exact Or.inl (.of_failed hstep)
  obtain ⟨r, -, -, hr⟩ := hd.path.exists_cons
  rcases hd.step_goto hp hr with ⟨-, hstep'⟩ | ⟨e, hstep', he, -⟩
  · exact Or.inl (.congr (run_of_step hstep) (.of_failed hstep'))
  · exact Or.inr ⟨β, ζ, e, hγ, hlength, (run_of_step hstep).trans (run_of_step hstep'), he⟩

end Reductions

/-- Above a state that covers a string, the run settles, or it undercuts the state. -/
theorem Tracks.settles_or_undercuts (hp : p.Built rules start mode) {m : Nat}
    (h : Tracks p.grammar p.automaton tokens (γ ++ κ) none rest c) (hx : Reads p.grammar rest x)
    {b : Nat} {node : Node} (hb : p.automaton.follow? Automaton.startState γ = some b)
    (hnode : p.automaton.nodes[b]? = some node) (hcovers : Covers p.grammar δ node.items)
    (hfits : Fits p.grammar m (δ ++ κ) (.terminal x :: v)) :
    Settles p tokens rest c ∨ Undercuts p tokens γ δ rest x c := by
  induction m using Nat.strong_induction_on generalizing κ c with
  | _ m ih =>
    rcases h.settles_or_reduces hp with
      hsettles | ⟨rule, y, q, hy, hq, hactions, hrule, hne⟩
    · exact Or.inl hsettles
    obtain rfl := hy.unique hx
    rcases h.settles_or_replaces hp hx hq hactions hrule with
      hsettles | ⟨β, ζ, d, hγ, hlength, hrun, hd⟩
    · exact Or.inl hsettles
    -- The fitting string dictates just this reduction.
    obtain ⟨top, htop, htopcovers⟩ := hp.linked.covers_follow? hp.wellFormed hp.exact hnode hcovers
      (by rw [Automaton.follow?_append, hb] at hq; exact hq)
    rcases Parser.dictated_offer hp htop htopcovers hfits with
      ⟨_, hmem, -⟩ | ⟨rule', hrule', -, hmem, ε, m', hδ, rfl, hfits'⟩ | hmem
    · simp [hactions] at hmem
    · rw [hactions, List.mem_singleton] at hmem
      obtain rfl := hp.wellFormed.eq_of_id_eq hrule' hrule (Action.reduce.inj hmem)
      rcases append_eq_append_cases hγ with ⟨α, rfl, rfl⟩ | ⟨α, hα, rfl, rfl⟩
      · -- The rule is all above the state, and its left side takes its place there.
        obtain ⟨rfl, rfl⟩ := List.append_inj' ((List.append_assoc δ α ζ).trans hδ) hlength
        rw [List.append_assoc] at hd hfits'
        rcases ih m' (Nat.lt_succ_self m') hd hfits' with hsettles | hundercuts
        · exact Or.inl (hsettles.congr hrun)
        · exact Or.inr (hundercuts.congr hrun)
      · exact Or.inr ⟨hq, hactions, hrule, hne, hδ, rfl, hα, hlength, hrun, hd⟩
    · simp [hactions] at hmem

/-! ## Undercuts -/

theorem Undercuts.exists_shorter (h : Undercuts p tokens γ δ rest x c) :
    ∃ β n d, β.length < γ.length ∧ c.run p.grammar p.table = d.run p.grammar p.table ∧
      Tracks p.grammar p.automaton tokens (β ++ [.nonterminal n]) none rest d := by
  obtain ⟨-, -, -, -, -, rfl, hα, -, hrun, hd⟩ := h
  refine ⟨_, _, _, ?_, hrun, hd⟩
  have hpos := List.length_pos_iff.2 hα
  rw [List.length_append]
  omega

section Undercutting

variable (hp : p.Built rules start mode) (hpaths : p.automaton.Faithful p.grammar)
  (hx : Reads p.grammar rest x)
include hp hpaths hx

/-- Where a rule at the end of a path is reduced and its goto taken, the rule was asked for before it
with the same lookahead; so the run settles, or it undercuts what is below. -/
theorem Tracks.settles_or_lowers {β : List SymbolId} {rule : Production} {q : StateId}
    (hrule : rule ∈ p.grammar.productions) (hne : rule.id ≠ acceptId)
    (hq : p.automaton.follow? Automaton.startState (β ++ rule.right) = some q)
    (hactions : p.table.actions q (.terminal x) = [.reduce rule.id])
    (h : Tracks p.grammar p.automaton tokens (β ++ [.nonterminal rule.left]) none rest c) :
    Settles p tokens rest c ∨ ∃ ε d, ε.length ≤ β.length ∧
      c.run p.grammar p.table = d.run p.grammar p.table ∧
      Tracks p.grammar p.automaton tokens ε none rest d := by
  have hg := hp.wellFormed
  obtain ⟨r, -, -, hr⟩ := h.path.exists_cons
  rw [Automaton.follow?_concat] at hr
  rw [Automaton.follow?_append] at hq
  obtain ⟨b, hb, hgoto⟩ := Option.bind_eq_some_iff.1 hr
  rw [hb, Option.bind_some] at hq
  obtain ⟨node, hnode⟩ := hp.linked.exists_node hb
  obtain ⟨top, htop⟩ := hp.linked.exists_node_of_follow? hnode hq
  -- The completed item was carried here from the start of its rule.
  obtain ⟨item, hitem, hnext⟩ := (hp.linked.exists_edge_iff hnode).1 ⟨r, hgoto⟩
  have hstart := hp.linked.has_start hg hp.exact hnode hitem hnext hrule
  have hafter : (p.grammar.right (Core.start rule.id).rule).drop (Core.start rule.id).marker =
      rule.right ++ [] := (hg.right_id hrule).trans (List.append_nil _).symm
  have hlooks : top.items.Looks ⟨rule.id, rule.right.length⟩ x :=
    Parser.looks_of_reduce hp htop hrule (by rw [hactions]; exact List.mem_singleton.2 rfl)
  rw [← Nat.zero_add rule.right.length] at hlooks
  have hasked := ((hp.linked.carries_follow? hg hp.exact hnode htop hq hstart hafter).2 x).1 hlooks
  obtain ⟨δ, hδ⟩ := hpaths β b node hb hnode
  obtain ⟨m, v, hfits⟩ := ((hδ.looks_iff _ _).1 hasked).exists_fits_after hg hrule hne
  rcases h.settles_or_undercuts hp hx hb hnode hδ.covers hfits with hsettles | hundercuts
  · exact Or.inl hsettles
  · obtain ⟨ε, n, d, hshort, hrun, hd⟩ := hundercuts.exists_shorter
    refine Or.inr ⟨_, d, ?_, hrun, hd⟩
    rw [List.length_append, List.length_singleton]
    omega

/-- After an undercut the run settles, or it comes to a shorter path. -/
theorem Undercuts.settles_or_shorter (h : Undercuts p tokens γ δ rest x c) {q : Nat} {node : Node}
    (hq : p.automaton.follow? Automaton.startState γ = some q)
    (hnode : p.automaton.nodes[q]? = some node) (hδ : Recognizes p.grammar δ node.items) :
    Settles p tokens rest c ∨ ∃ ε d, ε.length < γ.length ∧
      c.run p.grammar p.table = d.run p.grammar p.table ∧
      Tracks p.grammar p.automaton tokens ε none rest d := by
  obtain @⟨κ, α, β, ε, rule, _, d, htop, hactions, hrule, hne, hright, rfl, hα, hlength, hrun, hd⟩ := h
  match α with
  | [] => exact absurd rfl hα
  | X :: Y :: α =>
    refine Or.inr ⟨_, _, ?_, hrun, hd⟩
    simp only [List.length_append, List.length_cons, List.length_nil]
    omega
  | [X] =>
    -- The string of the state ends in the symbol of its edge, so the rule begins with that symbol.
    rw [Automaton.follow?_concat] at hq
    obtain ⟨b, hb, hedge⟩ := Option.bind_eq_some_iff.1 hq
    obtain ⟨below, hbelow⟩ := hp.linked.exists_node hb
    obtain ⟨δ', rfl⟩ := hp.linked.exists_eq_concat hp.wellFormed hp.exact hbelow hnode hedge hδ
    rw [List.append_assoc] at hright htop
    obtain ⟨-, hright⟩ := List.append_inj' hright hlength
    rw [hright] at htop
    rcases hd.settles_or_lowers hp hpaths hx hrule hne htop hactions with
      hsettles | ⟨ε, e, hle, hrun', he⟩
    · exact Or.inl (hsettles.congr hrun)
    · refine Or.inr ⟨ε, e, ?_, hrun.trans hrun', he⟩
      rw [List.length_append, List.length_singleton]
      omega

end Undercutting

/-! ## The end of a run -/

section Ends

variable (hp : p.Built rules start mode) (hpaths : p.automaton.Faithful p.grammar)
include hp hpaths

theorem Tracks.settles (h : Tracks p.grammar p.automaton tokens γ none rest c) :
    Settles p tokens rest c := by
  induction hlength : γ.length using Nat.strong_induction_on generalizing γ c with
  | _ n ih =>
    rcases h.settles_or_reduces hp with hsettles | ⟨rule, x, q, hx, hq, hactions, -, -⟩
    · exact hsettles
    obtain ⟨node, hnode⟩ := hp.linked.exists_node hq
    obtain ⟨δ, hδ⟩ := hpaths γ q node hq hnode
    obtain ⟨m, v, hfits⟩ := Parser.exists_fits_of_actions hp hnode hδ (x := x) (by simp [hactions])
    rw [← List.append_nil γ] at h
    rw [← List.append_nil δ] at hfits
    rcases h.settles_or_undercuts hp hx hq hnode hδ.covers hfits with hsettles | hundercuts
    · exact hsettles
    rcases hundercuts.settles_or_shorter hp hpaths hx hq hnode hδ with
      hsettles | ⟨ε, d, hshort, hrun, hd⟩
    · exact hsettles
    · exact (ih ε.length (by omega) hd rfl).congr hrun

/-- Every run ends. -/
theorem Tracks.run_ends (h : Tracks p.grammar p.automaton tokens γ none rest c) :
    ∃ r, c.run p.grammar p.table = some r := by
  induction rest generalizing γ c with
  | nil =>
    rcases h.settles hp hpaths with hends | ⟨token, below, _, _, hrest, -, -⟩
    · exact hends
    · cases hrest
  | cons token rest ih =>
    rcases h.settles hp hpaths with hends | ⟨_, _, _, d, hrest, hrun, hd⟩
    · exact hends
    · obtain ⟨rfl, rfl⟩ := List.cons.inj hrest
      rw [hrun]
      exact ih hd

end Ends

/-- No sequence of steps goes on without end from where a run ends. -/
theorem exists_step_ne_next {g : Grammar} {t : ParseTable} {n : Nat}
    {r : Except ParseError (Tree π)} (h : runWithin g t n c = some r) {s : Nat → Configuration π}
    (hs : s 0 = c) : ∃ i, (s i).step g t ≠ .next (s (i + 1)) := by
  induction n generalizing c s with
  | zero => cases h
  | succ n ih =>
    by_cases hstep : (s 0).step g t = .next (s 1)
    · rw [hs] at hstep
      rw [runWithin_of_next hstep] at h
      obtain ⟨i, hi⟩ := ih h (s := fun i => s (i + 1)) rfl
      exact ⟨i + 1, hi⟩
    · exact ⟨0, hstep⟩

end Configuration

namespace Parser

/-- The answer of a parser is that of a run which ends. -/
theorem run_eq_parse (h : build rules start mode = .ok p) (tokens : List (Token π)) :
    (Configuration.initial tokens).run p.grammar p.table = some (p.parse tokens) := by
  obtain ⟨r, hrun⟩ := (Configuration.tracks_initial p.grammar p.automaton tokens).run_ends
    (built_of_build h) (recognizing_of_build h).faithful
  rw [parse, hrun, Option.getD_some]

/-- A parser, of either mode and with or without conflicts, answers after finitely many steps on
every input, and no steps from its start go on without end. -/
theorem parse_terminates (h : build rules start mode = .ok p) (tokens : List (Token π)) :
    (∃ n r, Configuration.runWithin p.grammar p.table n (Configuration.initial tokens) = some r ∧
      p.parse tokens = r) ∧
    ∀ s : Nat → Configuration π, s 0 = Configuration.initial tokens →
      ∃ i, (s i).step p.grammar p.table ≠ .next (s (i + 1)) := by
  have hp := built_of_build h
  obtain ⟨r, hrun⟩ := (Configuration.tracks_initial p.grammar p.automaton tokens).run_ends hp
    (recognizing_of_build h).faithful
  obtain ⟨n, hn⟩ := Configuration.run_eq_some_iff.1 hrun
  refine ⟨⟨n, r, hn, ?_⟩, fun s hs => Configuration.exists_step_ne_next hn hs⟩
  rw [parse, hrun, Option.getD_some]

/-- A cyclic grammar: `A -> B`, `B -> A`, and `A -> a`. -/
def cyclic : List Rule :=
  [⟨.nonterminal "S", [.nonterminal "A"]⟩, ⟨.nonterminal "A", [.nonterminal "B"]⟩,
    ⟨.nonterminal "B", [.nonterminal "A"]⟩, ⟨.nonterminal "A", [.terminal "a"]⟩]

/-- The superset parser of the cyclic grammar answers on `a`. -/
theorem parse_terminates_cyclic : ∃ p, build cyclic (.nonterminal "S") .superset = .ok p ∧
    ∃ n r, Configuration.runWithin p.grammar p.table n
        (Configuration.initial [⟨.terminal "a", some 0⟩]) = some r ∧
      p.parse [⟨.terminal "a", some 0⟩] = r := by
  obtain ⟨p, hp, -⟩ : ∃ p, build cyclic (.nonterminal "S") .superset = .ok p ∧ true = true :=
    exists_of_any_build (by decide +kernel)
  exact ⟨p, hp, (parse_terminates hp _).1⟩

end Parser

end ShiftReduce
