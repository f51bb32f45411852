import ShiftReduce.Proofs.ValidItems

/-!
# Renamed grammars

A renaming gives new numbers to symbols and to rules.  It carries one grammar into another if it
makes rules of the other one from its rules and each number stands for the same symbol as before.
Then it carries derivations, and with them the valid items, into the other grammar.  Two grammars
mirror each other if there are renamings both ways that undo one another; the items that are valid
for a string are then, renamed, the items that are valid for the renamed string.

    ρ.Carries g h → ValidItem g γ c t →
      ValidItem h (γ.map ρ.symbol) (ρ.core c) (ρ.terminal t)                  (Carries.validItem)
    Mirrors ρ σ g h → (ValidItem h (γ.map ρ.symbol) (ρ.core c) (ρ.terminal t) ↔ ValidItem g γ c t)
                                                                          (Mirrors.validItem_iff)
-/

namespace ShiftReduce

variable {g h : Grammar} {γ : List SymbolId} {c : Core} {x : SymbolId} {t : TerminalId}

/-! ## What valid items are made of -/

section Ranges

variable (hg : g.WellFormed)
include hg

theorem ValidCore.exists_production (hc : ValidCore g γ c) :
    ∃ p ∈ g.productions, p.id = c.rule := by
  induction hc with
  | start => exact ⟨_, Array.mem_of_getElem? hg.accepting, rfl⟩
  | expand _ _ hp _ => exact ⟨_, hp, rfl⟩
  | advance _ _ ih => exact ih

/-- A string with a valid item is made of symbols of the grammar. -/
theorem ValidCore.has (hc : ValidCore g γ c) : ∀ x ∈ γ, g.Has x := by
  induction hc with
  | start =>
    intro x hx
    cases hx
  | expand _ _ _ ih => exact ih
  | advance _ hnext ih =>
    intro y hy
    rcases List.mem_append.1 hy with hy | hy
    · exact ih y hy
    · rw [List.mem_singleton.1 hy]
      exact hg.has_of_mem_right_id (List.mem_of_getElem? hnext)

theorem ValidItem.lookahead_lt (hc : ValidItem g γ c t) : t < g.terminals.size := by
  induction hc with
  | start => exact hg.end_lt
  | first _ _ _ hbegins =>
    exact hg.lt_of_begins (fun x hx => hg.has_of_mem_right_id (List.mem_of_mem_drop hx)) hbegins
  | inherit _ _ _ _ ih => exact ih
  | advance _ _ ih => exact ih

end Ranges

/-- A core that stands before a symbol is that of a rule. -/
theorem Core.exists_production_of_next? (hg : g.WellFormed) (hc : c.next? g = some x) :
    ∃ p ∈ g.productions, p.id = c.rule := by
  unfold Core.next? Grammar.right at hc
  cases hp : g.productions[c.rule]? with
  | none => simp [hp] at hc
  | some p => exact ⟨p, Array.mem_of_getElem? hp, hg.id_eq hp⟩

/-! ## Renamings -/

/-- New numbers for the symbols and the rules of a grammar. -/
structure Renaming where
  terminal : TerminalId → TerminalId
  nonterminal : NonterminalId → NonterminalId
  rule : RuleId → RuleId

namespace Renaming

variable {ρ σ : Renaming}

def symbol (ρ : Renaming) : SymbolId → SymbolId
  | .terminal t => .terminal (ρ.terminal t)
  | .nonterminal n => .nonterminal (ρ.nonterminal n)

def core (ρ : Renaming) (c : Core) : Core := ⟨ρ.rule c.rule, c.marker⟩

def production (ρ : Renaming) (p : Production) : Production :=
  ⟨ρ.rule p.id, ρ.nonterminal p.left, p.right.map ρ.symbol⟩

/-- The renamed rules of the one grammar are rules of the other, and the renamed symbols stand for
the same symbols there. -/
structure Carries (ρ : Renaming) (g h : Grammar) : Prop where
  accept : ρ.rule acceptId = acceptId
  endOfInput : ρ.terminal endOfInputId = endOfInputId
  production : ∀ {p : Production}, p ∈ g.productions → ρ.production p ∈ h.productions
  has : ∀ {x : SymbolId}, g.Has x → h.Has (ρ.symbol x)
  symbol : ∀ {x : SymbolId}, g.Has x → h.symbol (ρ.symbol x) = g.symbol x

section Carrying

variable (hρ : ρ.Carries g h)
include hρ

theorem Carries.derives {α β : List SymbolId} (hd : Derives g.HasRule α β) :
    Derives h.HasRule (α.map ρ.symbol) (β.map ρ.symbol) := by
  refine (Derives.map (V := fun _ => True) (fun x right _ hrule => ?_) (fun _ _ => trivial) hd).1
  obtain ⟨p, hp, rfl, rfl⟩ := hrule
  exact ⟨⟨ρ.production p, hρ.production hp, rfl, rfl⟩, fun _ _ => trivial⟩

theorem Carries.begins {α : List SymbolId} (hbegins : Begins g.HasRule α (.terminal t)) :
    Begins h.HasRule (α.map ρ.symbol) (.terminal (ρ.terminal t)) := by
  obtain ⟨β, hβ⟩ := hbegins
  exact ⟨β.map ρ.symbol, hρ.derives hβ⟩

variable (hg : g.WellFormed) (hh : h.WellFormed)
include hg hh

theorem Carries.right (hc : ∃ p ∈ g.productions, p.id = c.rule) :
    h.right (ρ.core c).rule = (g.right c.rule).map ρ.symbol := by
  obtain ⟨p, hp, hid⟩ := hc
  have hright := hh.right_id (hρ.production hp)
  rw [← hid, hg.right_id hp]
  show h.right (ρ.rule c.rule) = _
  rw [← hid]
  exact hright

theorem Carries.isComplete_core (hc : ∃ p ∈ g.productions, p.id = c.rule) :
    (ρ.core c).isComplete h = c.isComplete g := by
  unfold Core.isComplete
  rw [hρ.right hg hh hc, List.length_map]
  rfl

theorem Carries.next?_core (hc : c.next? g = some x) :
    (ρ.core c).next? h = some (ρ.symbol x) := by
  have hright := hρ.right hg hh (Core.exists_production_of_next? hg hc)
  unfold Core.next? at hc ⊢
  rw [hright, List.getElem?_map]
  exact congrArg (Option.map ρ.symbol) hc

theorem Carries.rest_core (hc : c.next? g = some x) :
    (ρ.core c).rest h = (c.rest g).map ρ.symbol := by
  have hright := hρ.right hg hh (Core.exists_production_of_next? hg hc)
  unfold Core.rest
  rw [hright, ← List.map_drop]
  rfl

/-! ## Renamed valid items -/

/-- Valid cores are carried over. -/
theorem Carries.validCore (hc : ValidCore g γ c) : ValidCore h (γ.map ρ.symbol) (ρ.core c) := by
  induction hc with
  | start =>
    have hstart : ρ.core (Core.start acceptId) = Core.start acceptId :=
      congrArg (Core.mk · 0) hρ.accept
    rw [hstart]
    exact .start
  | @expand _ _ p _ hnext hp ih =>
    exact .expand (p := ρ.production p) ih (hρ.next?_core hg hh hnext) (hρ.production hp)
  | advance _ hnext ih =>
    rw [List.map_append]
    exact .advance ih (hρ.next?_core hg hh hnext)

/-- Valid items are carried over, with their lookaheads. -/
theorem Carries.validItem (hc : ValidItem g γ c t) :
    ValidItem h (γ.map ρ.symbol) (ρ.core c) (ρ.terminal t) := by
  induction hc with
  | start =>
    have hstart : ρ.core (Core.start acceptId) = Core.start acceptId :=
      congrArg (Core.mk · 0) hρ.accept
    rw [hstart, hρ.endOfInput]
    exact .start
  | @first _ _ p _ hcore hnext hp hbegins =>
    have hrest := hρ.begins hbegins
    rw [← hρ.rest_core hg hh hnext] at hrest
    exact .first (p := ρ.production p) (hρ.validCore hg hh hcore) (hρ.next?_core hg hh hnext)
      (hρ.production hp) hrest
  | @inherit _ _ p _ _ hnext hp hempty ih =>
    have hrest := hρ.derives hempty
    rw [← hρ.rest_core hg hh hnext] at hrest
    exact .inherit (p := ρ.production p) ih (hρ.next?_core hg hh hnext) (hρ.production hp) hrest
  | advance _ hnext ih =>
    rw [List.map_append]
    exact .advance ih (hρ.next?_core hg hh hnext)

end Carrying

end Renaming

/-! ## Mirrored grammars -/

/-- Renamings carry each of the grammars into the other one, and what one of them does to the rules
the other undoes. -/
structure Mirrors (ρ σ : Renaming) (g h : Grammar) : Prop where
  forth : ρ.Carries g h
  back : σ.Carries h g
  rule_forth : ∀ {p : Production}, p ∈ g.productions → σ.rule (ρ.rule p.id) = p.id
  rule_back : ∀ {p : Production}, p ∈ h.productions → ρ.rule (σ.rule p.id) = p.id

namespace Mirrors

variable {ρ σ : Renaming}

theorem symm (hm : Mirrors ρ σ g h) : Mirrors σ ρ h g :=
  ⟨hm.back, hm.forth, hm.rule_back, hm.rule_forth⟩

section Undoing

variable (hm : Mirrors ρ σ g h)
include hm

theorem symbol_symbol (hx : g.Has x) : σ.symbol (ρ.symbol x) = x := by
  refine Grammar.symbol_inj (hm.back.has (hm.forth.has hx)) hx ?_
  rw [hm.back.symbol (hm.forth.has hx), hm.forth.symbol hx]

theorem symbol_injective {y : SymbolId} (hx : g.Has x) (hy : g.Has y)
    (heq : ρ.symbol x = ρ.symbol y) : x = y := by
  rw [← hm.symbol_symbol hx, heq, hm.symbol_symbol hy]

theorem terminal_terminal (ht : t < g.terminals.size) : σ.terminal (ρ.terminal t) = t :=
  SymbolId.terminal.inj (hm.symbol_symbol (x := .terminal t) ht)

theorem map_map_symbol (hγ : ∀ x ∈ γ, g.Has x) : (γ.map ρ.symbol).map σ.symbol = γ := by
  rw [List.map_map]
  conv => rhs; rw [← List.map_id γ]
  exact List.map_congr_left fun x hx => hm.symbol_symbol (hγ x hx)

theorem core_core (hc : ∃ p ∈ g.productions, p.id = c.rule) : σ.core (ρ.core c) = c := by
  obtain ⟨p, hp, hid⟩ := hc
  have hrule : σ.rule (ρ.rule c.rule) = c.rule := by
    rw [← hid]
    exact hm.rule_forth hp
  exact congrArg (Core.mk · c.marker) hrule

variable (hg : g.WellFormed) (hh : h.WellFormed) (hγ : ∀ x ∈ γ, g.Has x)
  (hc : ∃ p ∈ g.productions, p.id = c.rule)
include hg hh hγ hc

theorem validCore_iff : ValidCore h (γ.map ρ.symbol) (ρ.core c) ↔ ValidCore g γ c := by
  constructor
  · intro hvalid
    have hback := hm.back.validCore hh hg hvalid
    rwa [hm.map_map_symbol hγ, hm.core_core hc] at hback
  · exact hm.forth.validCore hg hh

theorem validItem_iff (ht : t < g.terminals.size) :
    ValidItem h (γ.map ρ.symbol) (ρ.core c) (ρ.terminal t) ↔ ValidItem g γ c t := by
  constructor
  · intro hvalid
    have hback := hm.back.validItem hh hg hvalid
    rwa [hm.map_map_symbol hγ, hm.core_core hc, hm.terminal_terminal ht] at hback
  · exact hm.forth.validItem hg hh

end Undoing

end Mirrors

end ShiftReduce
