import Mathlib.Logic.Relation
import ShiftReduce.Proofs.Breadth
import ShiftReduce.Proofs.Termination
import ShiftReduce.Proofs.Soundness

/-!
# Reachable configurations

Every configuration that steps reach from the start of an input is tracked: its states are a path of
the automaton, its trees are labelled with the symbols of the path, and nothing of the input is lost
or read twice.  A completed item has its marker at the end of its rule, and no marker of a state is
beyond the length of the path, so the stack is long enough for every reduction, also where its
symbols are not the right side of the rule.  What remains of the internal errors is acceptance with
something left over, which a canonical parser does not come to.

    c.Tracks … γ waiting rest → c.step … = .next d → ∃ γ waiting rest, d.Tracks …      (Tracks.next)
    c.Tracks … γ waiting rest → c.step … = .failed (.internal fault) →
      mode = .superset ∧ fault = .leftovers                                 (Tracks.leftovers_only)
-/

namespace ShiftReduce

variable {π : Type} {rules : List Rule} {start : Symbol} {mode : MergeMode} {p : Parser}
  {γ : List SymbolId}

namespace Configuration

/-! ## Steps -/

/-- Steps lead from one configuration to another. -/
def Reaches (g : Grammar) (t : ParseTable) : Configuration π → Configuration π → Prop :=
  Relation.ReflTransGen fun c d => c.step g t = .next d

variable {tokens rest : List (Token π)} {waiting : Option NonterminalId} {c d : Configuration π}

/-- An answer is that of the step of some configuration that is reached. -/
theorem exists_reaches_of_run {g : Grammar} {t : ParseTable} {r : Except ParseError (Tree π)}
    (h : c.run g t = some r) : ∃ d, Reaches g t c d ∧ (d.step g t).answer? = some r := by
  obtain ⟨n, hrun⟩ := run_eq_some_iff.1 h
  clear h
  induction n generalizing c with
  | zero => cases hrun
  | succ n ih =>
    cases hstep : c.step g t with
    | next d =>
      rw [runWithin_of_next hstep] at hrun
      obtain ⟨e, hreaches, hanswer⟩ := ih hrun
      exact ⟨e, .head hstep hreaches, hanswer⟩
    | accepted tree =>
      rw [runWithin_of_accepted hstep] at hrun
      exact ⟨c, .refl, by rw [hstep]; exact hrun⟩
    | failed e =>
      rw [runWithin_of_failed hstep] at hrun
      exact ⟨c, .refl, by rw [hstep]; exact hrun⟩

section Steps

variable (hp : p.Built rules start mode)
include hp

/-- Every step leads from a tracked configuration to a tracked configuration. -/
theorem Tracks.next (h : Tracks p.grammar p.automaton tokens γ waiting rest c)
    (hnext : c.step p.grammar p.table = .next d) :
    ∃ γ' waiting' rest', Tracks p.grammar p.automaton tokens γ' waiting' rest' d := by
  cases waiting with
  | none =>
    rcases h.of_step_next hp hnext with ⟨_, below, x, _, _, -, -, -, -, hd, -⟩ |
      ⟨rule, β, _, _, _, _, -, -, -, -, -, -, -, -, -, hd, -⟩
    · exact ⟨γ ++ [.terminal x], none, below, hd⟩
    · exact ⟨β, some rule.left, rest, hd⟩
  | some n =>
    obtain ⟨q, -, -, hq⟩ := h.path.exists_cons
    rcases h.step_goto hp hq with ⟨-, hstep⟩ | ⟨e, hstep, he, -⟩
    · cases hnext.symm.trans hstep
    · obtain rfl := Outcome.next.inj (hnext.symm.trans hstep)
      exact ⟨γ ++ [.nonterminal n], none, rest, he⟩

theorem Reaches.tracks (h : Reaches p.grammar p.table c d)
    (hc : Tracks p.grammar p.automaton tokens γ waiting rest c) :
    ∃ γ' waiting' rest', Tracks p.grammar p.automaton tokens γ' waiting' rest' d := by
  induction h with
  | refl => exact ⟨γ, waiting, rest, hc⟩
  | tail _ hstep ih =>
    obtain ⟨_, _, _, htracks⟩ := ih
    exact htracks.next hp hstep

/-! ## Internal errors -/

/-- A rule that is reduced has no more symbols than the path. -/
theorem length_right_le (hbreadth : Breadth p.grammar p.firstSets p.automaton.nodes.toList) {q : Nat}
    {node : Node} (hq : p.automaton.follow? Automaton.startState γ = some q)
    (hnode : p.automaton.nodes[q]? = some node) {rule : Production} {x : TerminalId}
    (hlooks : node.items.Looks ⟨rule.id, rule.right.length⟩ x) : rule.right.length ≤ γ.length :=
  hp.linked.marker_le hp.wellFormed hp.exact hbreadth hq hnode hlooks.has

/-- A canonical parser that is tracked does not fail with an internal error. -/
theorem Tracks.mode_eq_of_internal (h : Tracks p.grammar p.automaton tokens γ none rest c)
    {fault : Fault} (hfail : c.step p.grammar p.table = .failed (.internal fault)) :
    mode = .superset := by
  cases mode with
  | superset => rfl
  | canonical =>
    rcases h.turn hp with ⟨-, -, hstep⟩ | ⟨-, -, -, hstep⟩ | ⟨-, -, -, hstep⟩ |
      ⟨-, -, -, -, hstep, -, -⟩ | ⟨-, -, -, -, -, -, -, hstep, -, -, -⟩ | ⟨-, -, -, -, -, hstep⟩ <;>
      cases hfail.symm.trans hstep

/-- The one internal error is acceptance with something left over, in superset mode. -/
theorem Tracks.leftovers_only (hbreadth : Breadth p.grammar p.firstSets p.automaton.nodes.toList)
    (h : Tracks p.grammar p.automaton tokens γ waiting rest c) {fault : Fault}
    (hfail : c.step p.grammar p.table = .failed (.internal fault)) :
    mode = .superset ∧ fault = .leftovers := by
  cases waiting with
  | some n =>
    obtain ⟨q, -, -, hq⟩ := h.path.exists_cons
    rcases h.step_goto hp hq with ⟨-, hstep⟩ | ⟨_, hstep, -, -⟩ <;> cases hfail.symm.trans hstep
  | none =>
    refine ⟨h.mode_eq_of_internal hp hfail, ?_⟩
    rcases h.stride hp with ⟨-, -, hstep⟩ | ⟨-, -, -, hstep⟩ | ⟨-, -, -, hstep⟩ |
      ⟨-, -, -, -, hstep, -, -⟩ | ⟨hx, hq, hnode, hactions, hrule, -, hlooks⟩ |
      ⟨hx, hq, -, hactions, -, -, -⟩
    · cases hfail.symm.trans hstep
    · cases hfail.symm.trans hstep
    · cases hfail.symm.trans hstep
    · cases hfail.symm.trans hstep
    · rcases h.step_gather hp hx hq hrule hactions with ⟨hshort, -⟩ | ⟨_, _, _, -, -, hstep, -, -⟩
      · exact absurd (length_right_le hp hbreadth hq hnode hlooks) (Nat.not_le.2 hshort)
      · cases hfail.symm.trans hstep
    · rcases h.step_finish hp hx hq hactions with ⟨_, -, -, hstep⟩ | hstep
      · cases hfail.symm.trans hstep
      · exact ParseError.internal.inj (Outcome.failed.inj (hfail.symm.trans hstep))

end Steps

end Configuration

namespace Parser

/-- The answer to an input is that of the step of a configuration that is reached from its start. -/
theorem exists_reaches_of_parse (h : build rules start mode = .ok p) {tokens : List (Token π)}
    {r : Except ParseError (Tree π)} (hparse : p.parse tokens = r) :
    ∃ c, Configuration.Reaches p.grammar p.table (.initial tokens) c ∧
      (c.step p.grammar p.table).answer? = some r := by
  have hrun := run_eq_parse h tokens
  rw [hparse] at hrun
  exact Configuration.exists_reaches_of_run hrun

/-- Every configuration that is reached is tracked, and none fails with an internal error but for
the acceptance of a superset parser with something left over. -/
theorem reachable_configurations (h : build rules start mode = .ok p) (tokens : List (Token π)) :
    (∀ c, Configuration.Reaches p.grammar p.table (.initial tokens) c →
      (∃ γ waiting rest, c.Tracks p.grammar p.automaton tokens γ waiting rest) ∧
      ∀ fault, c.step p.grammar p.table = .failed (.internal fault) →
        mode = .superset ∧ fault = .leftovers) ∧
    ∀ fault, p.parse tokens = .error (.internal fault) → mode = .superset ∧ fault = .leftovers := by
  have hp := built_of_build h
  have hinitial := Configuration.tracks_initial p.grammar p.automaton tokens
  have hfaults : ∀ c, Configuration.Reaches p.grammar p.table (.initial tokens) c → ∀ fault,
      c.step p.grammar p.table = .failed (.internal fault) → mode = .superset ∧ fault = .leftovers := by
    intro c hreaches fault hfail
    obtain ⟨_, _, _, hc⟩ := hreaches.tracks hp hinitial
    exact hc.leftovers_only hp (breadth_of_build h) hfail
  refine ⟨fun c hreaches => ⟨hreaches.tracks hp hinitial, hfaults c hreaches⟩, fun fault hparse => ?_⟩
  obtain ⟨c, hreaches, hanswer⟩ := exists_reaches_of_parse h hparse
  exact hfaults c hreaches fault (Configuration.Outcome.eq_failed_of_answer? hanswer)

/-- Below `S`, both `S -> b a` and `A -> b A` begin with `b`, and `A` may begin with `S` again. -/
def misled : List Rule :=
  [⟨.nonterminal "S", [.terminal "b", .terminal "a"]⟩,
    ⟨.nonterminal "A", [.terminal "b", .nonterminal "A"]⟩,
    ⟨.nonterminal "S", [.terminal "a", .nonterminal "S"]⟩,
    ⟨.nonterminal "S", [.nonterminal "A"]⟩,
    ⟨.nonterminal "A", [.nonterminal "S", .terminal "c"]⟩]

/-- The superset parser reads `b a a`, reduces `S -> b a` over `a a`, and from the state after `b` the
goto on `S` leads to the accepting state: the one internal error that remains does come up. -/
theorem reachable_configurations_misled : ∃ p fault,
    build misled (.nonterminal "S") .superset = .ok p ∧
      p.parse (π := Nat) [⟨.terminal "b", none⟩, ⟨.terminal "a", none⟩, ⟨.terminal "a", none⟩] =
        .error (.internal fault) ∧
      fault = .leftovers ∧
      ∀ c, Configuration.Reaches p.grammar p.table (.initial (π := Nat)
          [⟨.terminal "b", none⟩, ⟨.terminal "a", none⟩, ⟨.terminal "a", none⟩]) c →
        ∃ γ waiting rest, c.Tracks p.grammar p.automaton
          [⟨.terminal "b", none⟩, ⟨.terminal "a", none⟩, ⟨.terminal "a", none⟩] γ waiting rest := by
  obtain ⟨p, hp, hfails⟩ : ∃ p, build misled (.nonterminal "S") .superset = .ok p ∧
      (Configuration.runWithin (π := Nat) p.grammar p.table 8 (Configuration.initial
        [⟨.terminal "b", none⟩, ⟨.terminal "a", none⟩, ⟨.terminal "a", none⟩])).any (fun
          | .error (.internal _) => true
          | _ => false) = true := exists_of_any_build (by decide +kernel)
  obtain ⟨r, hr, hinternal⟩ := (Option.any_eq_true _ _).1 hfails
  have hreachable := reachable_configurations (π := Nat) hp
    [⟨.terminal "b", none⟩, ⟨.terminal "a", none⟩, ⟨.terminal "a", none⟩]
  match r with
  | .error (.internal fault) =>
    have hparse := parse_of_runWithin hr
    exact ⟨p, fault, hp, hparse, (hreachable.2 fault hparse).2, fun c hc => (hreachable.1 c hc).1⟩
  | .error (.undefinedSymbol _ _) => cases hinternal
  | .error (.unexpected _ _ _) => cases hinternal
  | .error (.conflict _ _ _ _) => cases hinternal
  | .ok _ => cases hinternal

end Parser

end ShiftReduce
