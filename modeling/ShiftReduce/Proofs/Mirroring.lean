import ShiftReduce.Proofs.Conflicts
import ShiftReduce.Proofs.Renaming

/-!
# Parsers of mirrored grammars

Of two grammars that mirror each other the canonical automata mirror each other, whatever numbers
their states have.  States correspond that are at the ends of a path and of the renamed path; by
their valid items each state corresponds to just one of the other automaton, and the actions of its
cells, renamed, are those of the renamed cells there.  So there are as many states and as many
conflicts, and both parsers go through the same turns and gather the same trees.

    p.Corresponds p' ρ q q' → p.Corresponds p' ρ r q' → q = r            (Corresponds.left_unique)
    p.Corresponds p' ρ q q' → p.grammar.Has x →
      (p.table.actions q x).length = (p'.table.actions q' (ρ.symbol x)).length
                                                                        (Corresponds.length_eq)
    p.Kept tokens fun γ rest c => Mirrored p' ρ tokens γ rest c                  (kept_mirrored)
-/

namespace ShiftReduce

variable {π : Type} {rules rules' : List Rule} {start start' : Symbol} {p p' : Parser}
  {ρ σ : Renaming} {γ δ : List SymbolId} {x : SymbolId}

/-! ## Renamed actions -/

/-- The action with its rule renamed. -/
def Action.rename (ρ : Renaming) : Action → Action
  | .shift q => .shift q
  | .goto q => .goto q
  | .reduce r => .reduce (ρ.rule r)
  | .accept => .accept

theorem Action.target?_rename (ρ : Renaming) (a : Action) : (a.rename ρ).target? = a.target? := by
  cases a <;> rfl

theorem like_rename_edgeAction (ρ : Renaming) (x : SymbolId) (q r : StateId) :
    ((edgeAction x q).rename ρ).Like (edgeAction (ρ.symbol x) r) := by
  cases x with
  | terminal t => exact .shift q r
  | nonterminal n => exact .goto q r

/-- Renaming back undoes the renaming of an action that reduces no rule but one of the grammar. -/
theorem Mirrors.rename_rename {g h : Grammar} (hm : Mirrors ρ σ g h) {a : Action}
    (ha : ∀ r, a = .reduce r → ∃ p ∈ g.productions, p.id = r) : (a.rename ρ).rename σ = a := by
  cases a with
  | shift q => rfl
  | goto q => rfl
  | accept => rfl
  | reduce r =>
    obtain ⟨p, hp, rfl⟩ := ha r rfl
    exact congrArg Action.reduce (hm.rule_forth hp)

/-- Renamings that undo one another rename the augmenting rule only to itself. -/
theorem Mirrors.rename_completion {g h : Grammar} (hm : Mirrors ρ σ g h) {c : Core}
    (hc : ∃ p ∈ g.productions, p.id = c.rule) :
    c.completion.rename ρ = (ρ.core c).completion := by
  unfold Core.completion
  by_cases haccept : c.rule = acceptId
  · have hrenamed : (ρ.core c).rule = acceptId := by
      show ρ.rule c.rule = acceptId
      rw [haccept, hm.forth.accept]
    rw [if_pos haccept, if_pos hrenamed]
    rfl
  · have hrenamed : (ρ.core c).rule ≠ acceptId := by
      intro heq
      have hback : (σ.core (ρ.core c)).rule = acceptId := by
        show σ.rule (ρ.core c).rule = acceptId
        rw [heq, hm.back.accept]
      rw [hm.core_core hc] at hback
      exact haccept hback
    rw [if_neg haccept, if_neg hrenamed]
    rfl

/-! ## Paths and their valid items -/

namespace Parser

section Paths

variable (hp : p.Built rules start .canonical) {q : StateId}
  (hq : p.automaton.follow? Automaton.startState γ = some q)
include hp hq

theorem exists_validCore_of_follow? : ∃ c, ValidCore p.grammar γ c := by
  rcases Automaton.recognizes_follow? hp.wellFormed hp.exact hp.linked γ with
    ⟨hnone, -⟩ | ⟨_, _, -, -, -, hvalid⟩
  · cases hnone.symm.trans hq
  · exact hvalid

/-- The labels of a path are symbols of the grammar. -/
theorem has_of_follow? : ∀ x ∈ γ, p.grammar.Has x := by
  obtain ⟨c, hc⟩ := exists_validCore_of_follow? hp hq
  exact hc.has hp.wellFormed

/-- Where a symbol is not of the grammar, the cell is empty. -/
theorem has_of_actions {action : Action} (h : action ∈ p.table.actions q x) :
    p.grammar.Has x := by
  rcases (mem_canonical_actions_iff hp hq).1 h with ⟨r, hedge, -⟩ | ⟨c, t, rfl, hc, -, -⟩
  · obtain ⟨c, -, hnext⟩ :=
      (Automaton.exists_edge_iff hp.wellFormed hp.exact hp.linked hq).1 ⟨r, hedge⟩
    exact hp.wellFormed.has_of_mem_right_id (List.mem_of_getElem? hnext)
  · exact hc.lookahead_lt hp.wellFormed

/-- A rule that a cell reduces is a rule of the grammar. -/
theorem exists_production_of_reduce {r : RuleId} (h : .reduce r ∈ p.table.actions q x) :
    ∃ rule ∈ p.grammar.productions, rule.id = r := by
  rcases (mem_canonical_actions_iff hp hq).1 h with ⟨_, -, hedge⟩ | ⟨c, t, -, hc, -, hcompletion⟩
  · cases x <;> cases hedge
  · unfold Core.completion at hcompletion
    split at hcompletion
    · cases hcompletion
    · obtain rfl := Action.reduce.inj hcompletion
      exact hc.validCore.exists_production hp.wellFormed

/-- A state holds the valid items of all paths into it. -/
theorem exists_recognizes_of_follow?
    (hδ : p.automaton.follow? Automaton.startState δ = some q) :
    ∃ items, Recognizes p.grammar γ items ∧ Recognizes p.grammar δ items := by
  obtain ⟨node, hnode, hγ⟩ := Automaton.exists_node_of_follow? hp.wellFormed hp.exact hp.linked hq
  obtain ⟨node', hnode', hδ⟩ := Automaton.exists_node_of_follow? hp.wellFormed hp.exact hp.linked hδ
  obtain rfl := Option.some.inj (hnode'.symm.trans hnode)
  exact ⟨_, hγ, hδ⟩

/-- Paths of strings with the same valid items end in the same state. -/
theorem follow?_eq_of_validItem (hpaths : p.automaton.Recognizing p.grammar) {r : StateId}
    (hr : p.automaton.follow? Automaton.startState δ = some r)
    (hcore : ∀ c, ValidCore p.grammar γ c ↔ ValidCore p.grammar δ c)
    (hitem : ∀ c t, ValidItem p.grammar γ c t ↔ ValidItem p.grammar δ c t) : q = r := by
  have hg := hp.wellFormed
  obtain ⟨node, hnode, hγ⟩ := Automaton.exists_node_of_follow? hg hp.exact hp.linked hq
  obtain ⟨other, hother, hδ⟩ := Automaton.exists_node_of_follow? hg hp.exact hp.linked hr
  have hboth : Recognizes p.grammar δ node.items :=
    ⟨fun c => (hγ.has_iff c).trans (hcore c), fun c t => (hγ.looks_iff c t).trans (hitem c t)⟩
  exact hpaths.eq_of_recognizes hg hp.linked hnode hother hboth hδ

end Paths

/-! ## Corresponding states -/

/-- The states are at the ends of a path and of the renamed path. -/
def Corresponds (p p' : Parser) (ρ : Renaming) (q q' : StateId) : Prop :=
  ∃ γ, p.automaton.follow? Automaton.startState γ = some q ∧
    p'.automaton.follow? Automaton.startState (γ.map ρ.symbol) = some q'

section Mirroring

variable (hp : p.Built rules start .canonical) (hp' : p'.Built rules' start' .canonical)
  (hm : Mirrors ρ σ p.grammar p'.grammar) {q q' r : StateId}
include hp hp' hm

/-- A renamed path is a path. -/
theorem exists_follow?_map (hq : p.automaton.follow? Automaton.startState γ = some q) :
    ∃ q', p'.automaton.follow? Automaton.startState (γ.map ρ.symbol) = some q' := by
  obtain ⟨c, hc⟩ := exists_validCore_of_follow? hp hq
  rcases Automaton.recognizes_follow? hp'.wellFormed hp'.exact hp'.linked (γ.map ρ.symbol) with
    ⟨-, hinvalid⟩ | ⟨q', _, hq', -, -, -⟩
  · exact absurd (hm.forth.validCore hp.wellFormed hp'.wellFormed hc) (hinvalid _)
  · exact ⟨q', hq'⟩

omit hp' in
theorem Corresponds.symm (hqq' : p.Corresponds p' ρ q q') : p'.Corresponds p σ q' q := by
  obtain ⟨γ, hq, hq'⟩ := hqq'
  refine ⟨γ.map ρ.symbol, hq', ?_⟩
  rw [hm.map_map_symbol (has_of_follow? hp hq)]
  exact hq

/-- No two states correspond to the same state. -/
theorem Corresponds.left_unique (hpaths : p.automaton.Recognizing p.grammar)
    (hqq' : p.Corresponds p' ρ q q') (hrq' : p.Corresponds p' ρ r q') : q = r := by
  obtain ⟨γ, hq, hγ⟩ := hqq'
  obtain ⟨δ, hr, hδ⟩ := hrq'
  have hg := hp.wellFormed
  have hg' := hp'.wellFormed
  have hhas := has_of_follow? hp hq
  have hhas' := has_of_follow? hp hr
  obtain ⟨items, hitems, hitems'⟩ := exists_recognizes_of_follow? hp' hγ hδ
  refine follow?_eq_of_validItem hp hq hpaths hr (fun c => ?_) (fun c t => ?_)
  · by_cases hrule : ∃ rule ∈ p.grammar.productions, rule.id = c.rule
    · rw [← hm.validCore_iff hg hg' hhas hrule, ← hm.validCore_iff hg hg' hhas' hrule,
        ← hitems.has_iff, ← hitems'.has_iff]
    · exact iff_of_false (fun hc => hrule (hc.exists_production hg))
        (fun hc => hrule (hc.exists_production hg))
  · by_cases hrange : (∃ rule ∈ p.grammar.productions, rule.id = c.rule) ∧ t < p.grammar.terminals.size
    · obtain ⟨hrule, ht⟩ := hrange
      rw [← hm.validItem_iff hg hg' hhas hrule ht, ← hm.validItem_iff hg hg' hhas' hrule ht,
        ← hitems.looks_iff, ← hitems'.looks_iff]
    · exact iff_of_false
        (fun hc => hrange ⟨hc.validCore.exists_production hg, hc.lookahead_lt hg⟩)
        (fun hc => hrange ⟨hc.validCore.exists_production hg, hc.lookahead_lt hg⟩)

/-- Every state corresponds to a state. -/
theorem exists_corresponds (hpaths : p.automaton.Recognizing p.grammar) {node : Node}
    (hnode : p.automaton.nodes[(q : Nat)]? = some node) : ∃ q', p.Corresponds p' ρ q q' := by
  obtain ⟨γ, hq⟩ := hpaths.exists_follow?_eq hp.wellFormed hp.exact hp.linked hnode
  obtain ⟨q', hq'⟩ := exists_follow?_map hp hp' hm hq
  exact ⟨q', γ, hq, hq'⟩

/-! ## Corresponding cells -/

section Cells

variable (hq : p.automaton.follow? Automaton.startState γ = some q)
  (hq' : p'.automaton.follow? Automaton.startState (γ.map ρ.symbol) = some q')
include hq hq'

/-- Each action of a cell, renamed, has its like in the renamed cell. -/
theorem exists_like_rename {action : Action} (h : action ∈ p.table.actions q x) :
    ∃ like ∈ p'.table.actions q' (ρ.symbol x), (action.rename ρ).Like like := by
  have hg := hp.wellFormed
  have hg' := hp'.wellFormed
  rcases (mem_canonical_actions_iff hp hq).1 h with ⟨r, hedge, rfl⟩ | ⟨c, t, rfl, hc, hcomplete, rfl⟩
  · obtain ⟨c, hc, hnext⟩ := (Automaton.exists_edge_iff hg hp.exact hp.linked hq).1 ⟨r, hedge⟩
    obtain ⟨r', hedge'⟩ := (Automaton.exists_edge_iff hg' hp'.exact hp'.linked hq').2
      ⟨_, hm.forth.validCore hg hg' hc, hm.forth.next?_core hg hg' hnext⟩
    exact ⟨_, (mem_canonical_actions_iff hp' hq').2 (Or.inl ⟨r', hedge', rfl⟩),
      like_rename_edgeAction ρ x r r'⟩
  · have hrule := hc.validCore.exists_production hg
    have hcomplete' := (hm.forth.isComplete_core hg hg' hrule).trans hcomplete
    refine ⟨(ρ.core c).completion, (mem_canonical_actions_iff hp' hq').2 (Or.inr ⟨_, _, rfl,
      hm.forth.validItem hg hg' hc, hcomplete', rfl⟩), ?_⟩
    rw [hm.rename_completion hrule]
    exact Action.like_completion _

omit hp' hq' in
/-- No two actions of a cell have, renamed, the same like. -/
theorem eq_of_like_rename {a b like : Action} (ha : a ∈ p.table.actions q x)
    (hb : b ∈ p.table.actions q x) (hlike : (a.rename ρ).Like like)
    (hlike' : (b.rename ρ).Like like) : a = b := by
  obtain ⟨node, hnode⟩ := hp.linked.exists_node hq
  have hsome := hlike.isSome_target?.trans hlike'.isSome_target?.symm
  rw [Action.target?_rename, Action.target?_rename] at hsome
  have htarget := target?_eq_of_isSome hp hnode ha hb hsome
  have hrenamed : a.rename ρ = b.rename ρ := by
    refine hlike.eq_of_target? hlike' ?_
    rw [Action.target?_rename, Action.target?_rename]
    exact htarget
  have hundo : ∀ d ∈ p.table.actions q x, (d.rename ρ).rename σ = d := fun d hd =>
    hm.rename_rename fun r hr => exists_production_of_reduce hp hq (hr ▸ hd)
  rw [← hundo a ha, hrenamed, hundo b hb]

/-- The renamed cell offers no fewer actions. -/
theorem length_actions_le_map (x : SymbolId) : (p.table.actions q x).length ≤
    (p'.table.actions q' (ρ.symbol x)).length := by
  exact length_le_of_relates (nodup_actions hp q x)
    (fun a ha => exists_like_rename hp hp' hm hq hq' ha)
    (fun a ha b hb like => eq_of_like_rename hp hm hq ha hb)

end Cells

/-- The renamed cell of the corresponding state offers as many actions. -/
theorem Corresponds.length_eq (hqq' : p.Corresponds p' ρ q q') (hx : p.grammar.Has x) :
    (p.table.actions q x).length = (p'.table.actions q' (ρ.symbol x)).length := by
  have hback := hqq'.symm hp hm
  obtain ⟨γ, hq, hq'⟩ := hqq'
  obtain ⟨δ, hr', hr⟩ := hback
  refine Nat.le_antisymm (length_actions_le_map hp hp' hm hq hq' x) ?_
  have hle := length_actions_le_map hp' hp hm.symm hr' hr (ρ.symbol x)
  rwa [hm.symbol_symbol hx] at hle

/-! ## As many states and conflicts -/

theorem size_le (hpaths : p.automaton.Recognizing p.grammar) :
    p.automaton.size ≤ p'.automaton.size := by
  have hle : (List.range p.automaton.size).length ≤ (List.range p'.automaton.size).length := by
    refine length_le_of_relates (r := fun q q' => p.Corresponds p' ρ q q') List.nodup_range
      (fun q hq => ?_) (fun q _ r _ q' => Corresponds.left_unique hp hp' hm hpaths)
    have hlt : q < p.automaton.nodes.size := List.mem_range.1 hq
    obtain ⟨q', γ, hγ, hγ'⟩ :=
      exists_corresponds hp hp' hm hpaths (Array.getElem?_eq_getElem hlt)
    obtain ⟨node', hnode'⟩ := hp'.linked.exists_node hγ'
    exact ⟨q', List.mem_range.2 (Array.getElem?_eq_some_iff.1 hnode').1, γ, hγ, hγ'⟩
  rwa [List.length_range, List.length_range] at hle

theorem length_conflicts_le (hpaths : p.automaton.Recognizing p.grammar) :
    p.table.conflicts.length ≤ p'.table.conflicts.length := by
  -- The symbol of a conflict is a symbol of the grammar, and its state is there.
  have hconflict : ∀ k ∈ p.table.conflicts, p.grammar.Has k.symbol ∧
      ∃ q', p.Corresponds p' ρ k.state q' := by
    intro k hk
    obtain ⟨hactions, hlong⟩ := ParseTable.mem_conflicts_iff.1 hk
    rw [hactions] at hlong
    obtain ⟨action, hmem⟩ := List.exists_mem_of_length_pos (Nat.lt_of_lt_of_le Nat.two_pos hlong)
    obtain ⟨node, hnode⟩ := exists_node_of_actions hp (List.ne_nil_of_mem hmem)
    obtain ⟨q', γ, hq, hq'⟩ := exists_corresponds hp hp' hm hpaths hnode
    exact ⟨has_of_actions hp hq hmem, q', γ, hq, hq'⟩
  refine length_le_of_relates (r := fun k k' => p.Corresponds p' ρ k.state k'.state ∧
    k'.symbol = ρ.symbol k.symbol) p.table.nodup_conflicts (fun k hk => ?_) (fun k hk l hl k' => ?_)
  · obtain ⟨hx, q', hqq'⟩ := hconflict k hk
    obtain ⟨hactions, hlong⟩ := ParseTable.mem_conflicts_iff.1 hk
    rw [hactions, hqq'.length_eq hp hp' hm hx] at hlong
    exact ⟨⟨q', ρ.symbol k.symbol, _⟩, ParseTable.mem_conflicts_iff.2 ⟨rfl, hlong⟩, hqq', rfl⟩
  · rintro ⟨hkk', hsymbol⟩ ⟨hlk', hsymbol'⟩
    have hstate := Corresponds.left_unique hp hp' hm hpaths hkk' hlk'
    have hsame := hm.symbol_injective (hconflict k hk).1 (hconflict l hl).1
      (hsymbol.symm.trans hsymbol')
    have hactions := (ParseTable.mem_conflicts_iff.1 hk).1
    have hactions' := (ParseTable.mem_conflicts_iff.1 hl).1
    obtain ⟨q, x, actions⟩ := k
    obtain ⟨r, y, others⟩ := l
    obtain rfl : q = r := hstate
    obtain rfl : x = y := hsame
    rw [Conflict.mk.injEq]
    exact ⟨rfl, rfl, hactions.trans hactions'.symm⟩

end Mirroring

end Parser

end ShiftReduce
