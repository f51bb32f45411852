import ShiftReduce.Proofs.Inputs
import ShiftReduce.Proofs.Turns

/-!
# What a canonical parser has read forces its path

A cell of a canonical parser offers an action on a terminal when some string that begins with the
terminal fits the path, and such a string dictates an action that the cell offers.  So while the
cells offer one action, every input that goes on from what was read fits the path: no reduction
is made that a possible input would not make.

    p.table.actions q (.terminal x) ≠ [] ↔ ∃ m v, Fits p.grammar m γ (.terminal x :: v)
                                                                  (actions_ne_nil_iff)
    Kept p tokens fun γ rest _ => ∃ taken, Forced p tokens γ rest taken        (kept_forced)
-/

namespace ShiftReduce

variable {π : Type} {rules : List Rule} {start : Symbol} {p : Parser} {g : Grammar}
  {γ v : List SymbolId}

/-! ## Strings that fit and inputs -/

theorem fits_of_derivesInput (hg : g.WellFormed) (h : DerivesInput g v) : ∃ m, Fits g m [] v := by
  obtain ⟨u, rfl, hu⟩ := derivesInput_iff.1 h
  exact fits_of_derives hg hu

theorem Fits.derivesInput (hg : g.WellFormed) {m : Nat} (h : Fits g m γ v) :
    DerivesInput g (γ ++ v) := by
  obtain ⟨k, n, c, w, u, -, hc, hu, rfl⟩ := h
  rw [← List.append_assoc]
  exact (hc.derives hg).trans ((hu.derives.append_left γ).append_right w)

/-! ## Dictated actions -/

namespace Parser

section Cells

variable (hp : p.Built rules start .canonical) {q : StateId} {x : TerminalId}
  (hq : p.automaton.follow? Automaton.startState γ = some q)
include hp hq

/-- The action that a fitting string dictates is in the cell. -/
theorem dictated_action {m : Nat} (h : Fits p.grammar m γ (.terminal x :: v)) :
    (∃ r, Action.shift r ∈ p.table.actions q (.terminal x) ∧
      Fits p.grammar m (γ ++ [.terminal x]) v) ∨
    (∃ rule ∈ p.grammar.productions, rule.id ≠ acceptId ∧
      Action.reduce rule.id ∈ p.table.actions q (.terminal x) ∧
      ∃ β m', γ = β ++ rule.right ∧ m = m' + 1 ∧
        Fits p.grammar m' (β ++ [.nonterminal rule.left]) (.terminal x :: v)) ∨
    Action.accept ∈ p.table.actions q (.terminal x) := by
  obtain ⟨node, hnode, hvalid⟩ :=
    Automaton.exists_node_of_follow? hp.wellFormed hp.exact hp.linked hq
  exact dictated_offer hp hnode hvalid.covers h

theorem fits_of_shift {r : StateId} (hactions : p.table.actions q (.terminal x) = [.shift r])
    {m : Nat} (h : Fits p.grammar m γ (.terminal x :: v)) :
    Fits p.grammar m (γ ++ [.terminal x]) v := by
  rcases dictated_action hp hq h with ⟨_, -, hfits⟩ | ⟨_, _, _, hmem, _⟩ | hmem
  · exact hfits
  · simp [hactions] at hmem
  · simp [hactions] at hmem

theorem fits_of_reduce {rule : Production} {β : List SymbolId} (hγ : γ = β ++ rule.right)
    (hrule : rule ∈ p.grammar.productions)
    (hactions : p.table.actions q (.terminal x) = [.reduce rule.id])
    {m : Nat} (h : Fits p.grammar m γ (.terminal x :: v)) :
    ∃ m', m = m' + 1 ∧ Fits p.grammar m' (β ++ [.nonterminal rule.left]) (.terminal x :: v) := by
  rcases dictated_action hp hq h with
    ⟨_, hmem, -⟩ | ⟨rule', hrule', -, hmem, β', m', hγ', hm, hfits⟩ | hmem
  · simp [hactions] at hmem
  · rw [hactions, List.mem_singleton] at hmem
    obtain rfl := hp.wellFormed.eq_of_id_eq hrule' hrule (Action.reduce.inj hmem)
    obtain rfl := List.append_cancel_right (hγ'.symm.trans hγ)
    exact ⟨m', hm, hfits⟩
  · simp [hactions] at hmem

/-- A cell offers an action on the terminals that a fitting string begins with. -/
theorem actions_ne_nil_iff : p.table.actions q (.terminal x) ≠ [] ↔
    ∃ m v, Fits p.grammar m γ (.terminal x :: v) := by
  constructor
  · obtain ⟨node, hnode, hvalid⟩ :=
      Automaton.exists_node_of_follow? hp.wellFormed hp.exact hp.linked hq
    exact exists_fits_of_actions hp hnode hvalid
  · rintro ⟨m, v, h⟩ hnil
    rcases dictated_action hp hq h with ⟨_, hmem, -⟩ | ⟨_, _, _, hmem, _⟩ | hmem
    · simp [hnil] at hmem
    · simp [hnil] at hmem
    · simp [hnil] at hmem

end Cells

end Parser

namespace Configuration

variable {tokens rest : List (Token π)} {c : Configuration π}

/-! ## Forced paths -/

/-- The tokens before `rest` are the terminals `taken`, which the path derives, and every input that
goes on from them with the head of `rest` fits the path.  Either any other input fits as well, or
there is an input that goes on with the head of `rest`. -/
structure Forced (p : Parser) (tokens : List (Token π)) (γ : List SymbolId)
    (rest : List (Token π)) (taken : List TerminalId) : Prop where
  spelled : taken.map p.grammar.terminal ++ rest.map (·.symbol) = tokens.map (·.symbol)
  ordinary : ∀ t ∈ taken, p.grammar.Ordinary (.terminal t)
  derives : Derives p.grammar.HasRule γ (taken.map .terminal)
  ahead : ∀ x v, Reads p.grammar rest x →
    DerivesInput p.grammar (taken.map .terminal ++ .terminal x :: v) →
    ∃ m, Fits p.grammar m γ (.terminal x :: v)
  any_ahead : (∀ v, DerivesInput p.grammar (taken.map .terminal ++ v) →
      ∃ m, Fits p.grammar m γ v) ∨
    ∃ x v, Reads p.grammar rest x ∧
      DerivesInput p.grammar (taken.map .terminal ++ .terminal x :: v)

theorem forced_initial (hp : p.Built rules start .canonical) (tokens : List (Token π)) :
    Forced p tokens [] tokens [] where
  spelled := rfl
  ordinary t ht := by cases ht
  derives := Derives.refl []
  ahead _ _ _ h := fits_of_derivesInput hp.wellFormed h
  any_ahead := Or.inl fun _ h => fits_of_derivesInput hp.wellFormed h

variable {taken : List TerminalId}

theorem Forced.shift (hp : p.Built rules start .canonical) {token : Token π}
    (h : Forced p tokens γ (token :: rest) taken) {x : TerminalId}
    (hx : Reads p.grammar (token :: rest) x) {q r : StateId}
    (hq : p.automaton.follow? Automaton.startState γ = some q)
    (hactions : p.table.actions q (.terminal x) = [.shift r]) :
    Forced p tokens (γ ++ [.terminal x]) rest (taken ++ [x]) := by
  have hfits : ∀ v, DerivesInput p.grammar ((taken ++ [x]).map .terminal ++ v) →
      ∃ m, Fits p.grammar m (γ ++ [.terminal x]) v := by
    intro v hv
    rw [List.map_append, List.append_assoc] at hv
    obtain ⟨m, hm⟩ := h.ahead x v hx hv
    exact ⟨m, Parser.fits_of_shift hp hq hactions hm⟩
  refine ⟨?_, ?_, ?_, fun _ _ _ hv => hfits _ hv, Or.inl hfits⟩
  · have hspelled := h.spelled
    rw [List.map_cons, ← hx.terminal_eq] at hspelled
    rw [List.map_append, List.append_assoc, ← hspelled]
    rfl
  · intro t ht
    rcases List.mem_append.1 ht with ht | ht
    · exact h.ordinary t ht
    · rw [List.mem_singleton.1 ht]
      exact hx.ordinary
  · rw [List.map_append]
    exact h.derives.append_right _

theorem Forced.reduce (hp : p.Built rules start .canonical) {rule : Production} {β : List SymbolId}
    (h : Forced p tokens (β ++ rule.right) rest taken) {x : TerminalId}
    (hx : Reads p.grammar rest x) {q : StateId}
    (hq : p.automaton.follow? Automaton.startState (β ++ rule.right) = some q)
    (hactions : p.table.actions q (.terminal x) = [.reduce rule.id])
    (hrule : rule ∈ p.grammar.productions) :
    Forced p tokens (β ++ [.nonterminal rule.left]) rest taken where
  spelled := h.spelled
  ordinary := h.ordinary
  derives := by
    have hstep : p.grammar.HasRule (.nonterminal rule.left) rule.right := ⟨rule, hrule, rfl, rfl⟩
    exact ((Derives.of_rule hstep).append_left β).trans h.derives
  ahead y v hy hv := by
    obtain rfl := hy.unique hx
    obtain ⟨m, hm⟩ := h.ahead y v hy hv
    obtain ⟨m', -, hm'⟩ := Parser.fits_of_reduce hp hq rfl hrule hactions hm
    exact ⟨m', hm'⟩
  any_ahead := by
    -- The reduction is offered, so some input goes on with the lookahead.
    obtain ⟨m, v, hm⟩ := (Parser.actions_ne_nil_iff hp hq).1 (by rw [hactions]; simp)
    exact Or.inr ⟨x, v, hx, (hm.derivesInput hp.wellFormed).trans (h.derives.append_right _)⟩

theorem kept_forced (hp : p.Built rules start .canonical) (tokens : List (Token π)) :
    Kept p tokens fun γ rest _ => ∃ taken, Forced p tokens γ rest taken where
  shift := by
    rintro γ token below x q r c d ⟨taken, h⟩ hx hq hactions - -
    exact ⟨taken ++ [x], h.shift hp hx hq hactions⟩
  reduce := by
    rintro rule β rest x q c d ⟨taken, h⟩ - hx hq hactions hrule - - -
    exact ⟨taken, h.reduce hp hx hq hactions hrule⟩

end Configuration

end ShiftReduce
