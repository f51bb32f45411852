import Mathlib.Data.List.Basic
import ShiftReduce.Proofs.Numbered

/-!
# Nothing is lost in numbers

A rule list that is accepted is kept as it is, behind the augmenting rule, and its numbers say as
much as its names: a symbol has a number if it is reserved or stands in a rule, each number stands
for one symbol, and each rule over numbers is the rule at its place.  The numbers fit in 16 bits,
and no symbol of a rule is without one.  So a rule list stays the same if its numbers are cut to 16
bits and a missing number is read as 0, which is what `stored` does.

    (∃ x, g.number? s = some x) ↔ s = $ ∨ s = S' ∨ s stands in a rule      (exists_number?_iff)
    g.rules[i]? = some r → g.productions[i]? = some (g.stored i r)         (production_eq_stored)
    ofRules rules start = .ok g → g.Lossless rules start                   (lossless_of_ofRules)
-/

namespace ShiftReduce

/-! ## 16 bits -/

/-- What is left of a number in 16 bits. -/
def narrow (i : Nat) : Nat := (UInt16.ofNat i).toNat

theorem narrow_of_lt {i : Nat} (h : i < 65536) : narrow i = i := UInt16.toNat_ofNat_of_lt h

def SymbolId.narrow : SymbolId → SymbolId
  | .terminal t => .terminal (ShiftReduce.narrow t)
  | .nonterminal n => .nonterminal (ShiftReduce.narrow n)

namespace Numbering

/-- A number in 16 bits, 0 for a name that has no number. -/
def stored (n : Numbering) (name : String) : Nat := narrow ((n.number? name).getD 0)

theorem stored_eq {n : Numbering} {name : String} {i : Nat} (hsize : n.size ≤ 65535)
    (h : n.number? name = some i) : n.stored name = i := by
  have hlt : i < n.size := lt_size_of_number? h
  rw [stored, h, Option.getD_some, narrow_of_lt (by omega)]

/-- Numbered are the names of the numbering, whatever is made of their numbers. -/
theorem exists_map_number?_iff {n : Numbering} {name : String} (f : Nat → SymbolId) :
    (∃ x, (n.number? name).map f = some x) ↔ name ∈ n.names := by
  constructor
  · rintro ⟨x, hx⟩
    obtain ⟨i, hi, -⟩ := Option.map_eq_some_iff.1 hx
    exact exists_number?_iff.1 ⟨i, hi⟩
  · intro h
    obtain ⟨i, hi⟩ := exists_number?_iff.2 h
    exact ⟨f i, Option.map_eq_some_iff.2 ⟨i, hi, rfl⟩⟩

end Numbering

namespace Symbol

variable {l : List Symbol} {name : String}

theorem mem_filterMap_terminalName? : name ∈ l.filterMap terminalName? ↔ terminal name ∈ l := by
  rw [List.mem_filterMap]
  constructor
  · rintro ⟨s, hs, heq⟩
    cases s with
    | terminal other => exact Option.some.inj heq ▸ hs
    | nonterminal other => cases heq
  · exact fun hs => ⟨_, hs, rfl⟩

theorem mem_filterMap_nonterminalName? :
    name ∈ l.filterMap nonterminalName? ↔ nonterminal name ∈ l := by
  rw [List.mem_filterMap]
  constructor
  · rintro ⟨s, hs, heq⟩
    cases s with
    | terminal other => cases heq
    | nonterminal other => exact Option.some.inj heq ▸ hs
  · exact fun hs => ⟨_, hs, rfl⟩

end Symbol

namespace Grammar

variable {g : Grammar} {rules : List Rule} {start s : Symbol} {x : SymbolId}

/-- The number of a symbol in 16 bits, 0 for a symbol that has no number. -/
def storedId (g : Grammar) : Symbol → SymbolId
  | .terminal name => .terminal (g.terminals.stored name)
  | .nonterminal name => .nonterminal (g.nonterminals.stored name)

/-- A rule over numbers of 16 bits. -/
def stored (g : Grammar) (id : RuleId) (r : Rule) : Production where
  id := narrow id
  left := g.nonterminals.stored r.left.name
  right := r.right.map g.storedId

/-- The rules and the numbers of a grammar say the same. -/
structure Lossless (g : Grammar) (rules : List Rule) (start : Symbol) : Prop where
  /-- Rule 0 is `S' -> start`, the other rules are those of the list. -/
  rules_eq : g.rules.toList = Rule.augmenting start :: rules
  symbol?_end : g.symbol? (.terminal 0) = some .endOfInput
  symbol?_augmentedStart : g.symbol? (.nonterminal 0) = some .augmentedStart
  symbol?_start : g.symbol? (.nonterminal g.start) = some start
  exists_number?_iff : ∀ s, (∃ x, g.number? s = some x) ↔
    s = .endOfInput ∨ s = .augmentedStart ∨ ∃ r ∈ rules, s ∈ r.symbols
  /-- Every number of the grammar stands for a symbol. -/
  mem_symbolIds_iff : ∀ x, x ∈ g.symbolIds ↔ ∃ s, g.symbol? x = some s
  /-- From a symbol to its number and back again, and the other way round. -/
  number?_eq_some_iff : ∀ s x, g.number? s = some x ↔ g.symbol? x = some s
  size_productions : g.productions.size = g.rules.size
  /-- Every rule over numbers has its place as its number, and read back it is the rule there. -/
  production_eq : ∀ (i : Nat) (p : Production) (r : Rule), g.productions[i]? = some p →
    g.rules[i]? = some r → p.id = i ∧ g.symbol? (.nonterminal p.left) = some r.left ∧
      p.right.map g.symbol? = r.right.map some
  /-- No number of a symbol is cut to 16 bits. -/
  narrow_eq : ∀ x ∈ g.symbolIds, x.narrow = x
  /-- No symbol of a rule is without a number. -/
  numbered : ∀ r ∈ g.rules, ∀ s ∈ r.symbols, g.number? s ≠ none
  production_eq_stored : ∀ (i : Nat) (r : Rule), g.rules[i]? = some r →
    g.productions[i]? = some (g.stored i r)
  /-- Reserved symbols stand on no right side, and `S'` is the left side of rule 0 alone. -/
  reserved : ∀ p ∈ g.productions, .terminal 0 ∉ p.right ∧ .nonterminal 0 ∉ p.right ∧
    (p.left = 0 ↔ p.id = 0)

/-! ## Symbols and numbers -/

theorem symbol?_eq_some_iff : g.symbol? x = some s ↔ g.Has x ∧ g.symbol x = s := by
  constructor
  · intro h
    have hx : g.Has x := by
      cases x with
      | terminal t =>
        obtain ⟨name, hname, -⟩ := Option.map_eq_some_iff.1 h
        exact Numbering.lt_size_of_name? hname
      | nonterminal n =>
        obtain ⟨name, hname, -⟩ := Option.map_eq_some_iff.1 h
        exact Numbering.lt_size_of_name? hname
    exact ⟨hx, Option.some.inj ((symbol?_eq_some hx).symm.trans h)⟩
  · rintro ⟨hx, rfl⟩
    exact symbol?_eq_some hx

theorem number?_eq_some_iff_symbol? : g.number? s = some x ↔ g.symbol? x = some s :=
  number?_eq_some_iff.trans symbol?_eq_some_iff.symm

theorem map_symbol?_of_has {right : List SymbolId} (h : ∀ x ∈ right, g.Has x) :
    right.map g.symbol? = (right.map g.symbol).map some := by
  rw [List.map_map]
  exact List.map_congr_left fun x hx => symbol?_eq_some (h x hx)

section Construction

variable (h : ofRules rules start = .ok g)
include h

/-- Besides `S'`, the symbols of all rules are those of the list: `start` is a left side there. -/
theorem mem_symbols_iff : s ∈ (Rule.augmenting start :: rules).flatMap Rule.symbols ↔
    s = .augmentedStart ∨ ∃ r ∈ rules, s ∈ r.symbols := by
  obtain ⟨r, hr, hstart⟩ := (admissible_of_ofRules h).start_has_rule
  rw [List.flatMap_cons, List.mem_append, List.mem_flatMap]
  constructor
  · rintro (hs | hs)
    · rcases List.mem_cons.1 hs with rfl | hs
      · exact .inl rfl
      obtain rfl := List.mem_singleton.1 hs
      exact .inr ⟨r, hr, hstart ▸ List.mem_cons_self⟩
    · exact .inr hs
  · rintro (rfl | hs)
    · exact .inl List.mem_cons_self
    · exact .inr hs

/-- Numbered are the reserved symbols and those of the rules, and no other. -/
theorem exists_number?_iff : (∃ x, g.number? s = some x) ↔
    s = .endOfInput ∨ s = .augmentedStart ∨ ∃ r ∈ rules, s ∈ r.symbols := by
  obtain ⟨-, hterminals, hnonterminals, -, -⟩ := of_ofRules_eq_ok h
  rw [← mem_symbols_iff h]
  cases s with
  | terminal name =>
    refine (Numbering.exists_map_number?_iff .terminal).trans ?_
    rw [hterminals, Numbering.mem_names_ofList, List.mem_cons, Symbol.mem_filterMap_terminalName?]
    exact or_congr ⟨fun heq => congrArg Symbol.terminal heq, Symbol.terminal.inj⟩ Iff.rfl
  | nonterminal name =>
    refine (Numbering.exists_map_number?_iff .nonterminal).trans ?_
    rw [hnonterminals, Numbering.mem_names_ofList, Symbol.mem_filterMap_nonterminalName?]
    exact (or_iff_right fun heq => Symbol.noConfusion heq).symm

/-! ## Stored rules -/

/-- The number of a symbol fits in 16 bits. -/
theorem narrow_eq (hx : g.Has x) : x.narrow = x := by
  obtain ⟨hterminals, hnonterminals, -⟩ := sizes_of_ofRules h
  cases x with
  | terminal t =>
    have hlt := Nat.lt_of_lt_of_le hx (Nat.le_succ_of_le hterminals)
    exact congrArg SymbolId.terminal (narrow_of_lt hlt)
  | nonterminal n =>
    have hlt := Nat.lt_of_lt_of_le hx (Nat.le_succ_of_le hnonterminals)
    exact congrArg SymbolId.nonterminal (narrow_of_lt hlt)

theorem storedId_eq (hs : g.number? s = some x) : g.storedId s = x := by
  obtain ⟨hterminals, hnonterminals, -⟩ := sizes_of_ofRules h
  cases s with
  | terminal name =>
    obtain ⟨t, ht, rfl⟩ := Option.map_eq_some_iff.1 hs
    exact congrArg SymbolId.terminal (Numbering.stored_eq hterminals ht)
  | nonterminal name =>
    obtain ⟨n, hn, rfl⟩ := Option.map_eq_some_iff.1 hs
    exact congrArg SymbolId.nonterminal (Numbering.stored_eq hnonterminals hn)

/-- Cut to 16 bits, with 0 for what has no number, the rules over numbers are the same. -/
theorem production_eq_stored {i : Nat} {r : Rule}
    (hr : (Rule.augmenting start :: rules)[i]? = some r) :
    g.productions[i]? = some (g.stored i r) := by
  obtain ⟨-, hnonterminals, hlength⟩ := sizes_of_ofRules h
  have hmem := List.mem_of_getElem? hr
  have hi : i < rules.length + 1 := (List.getElem?_eq_some_iff.1 hr).1
  have hid : narrow i = i := narrow_of_lt (Nat.lt_of_lt_of_le hi hlength)
  have hleft : g.nonterminals.stored r.left.name = (g.nonterminals.number? r.left.name).getD 0 := by
    have hkind := Symbol.eq_nonterminal_of_isTerminal_eq_false (left_isTerminal_eq_false h hmem)
    have hnumber := (resolve_symbols h hmem i).1
    rw [hkind] at hnumber
    obtain ⟨n, hn, -⟩ := Option.map_eq_some_iff.1 hnumber
    rw [Numbering.stored_eq hnonterminals hn, hn, Option.getD_some]
  have hright : r.right.map g.storedId = r.right.filterMap g.number? := by
    have hnumbered : ∀ s ∈ r.right, g.number? s = some (g.storedId s) := by
      intro s hs
      obtain ⟨x, hx⟩ := exists_number?_of_mem_symbols h hmem (List.mem_cons_of_mem _ hs)
      rw [storedId_eq h hx, hx]
    rw [List.filterMap_congr hnumbered, List.filterMap_eq_map']
  rw [getElem?_of_rule h hr]
  simp only [stored, resolve, hid, hleft, hright]
  rfl

/-! ## The whole grammar -/

/-- An accepted rule list is numbered without a loss. -/
theorem lossless_of_ofRules : g.Lossless rules start := by
  have hg := wellFormed_of_ofRules h
  have hrules : g.rules.toList = Rule.augmenting start :: rules := by
    rw [rules_of_ofRules h]
  have hgetElem : ∀ i : Nat, g.rules[i]? = (Rule.augmenting start :: rules)[i]? := fun i => by
    rw [← Array.getElem?_toList, hrules]
  constructor
  case rules_eq => exact hrules
  case symbol?_end => exact symbol?_eq_some_iff.2 ⟨hg.end_lt, (terminal_end h).1⟩
  case symbol?_augmentedStart => exact number?_eq_some_iff_symbol?.1 (number?_augmentedStart h)
  case symbol?_start => exact number?_eq_some_iff_symbol?.1 (number?_start h)
  case exists_number?_iff => exact fun s => exists_number?_iff h
  case mem_symbolIds_iff =>
    intro x
    rw [Grammar.mem_symbolIds_iff]
    exact ⟨fun hx => ⟨_, symbol?_eq_some hx⟩, fun ⟨_, hx⟩ => (symbol?_eq_some_iff.1 hx).1⟩
  case number?_eq_some_iff => exact fun s x => number?_eq_some_iff_symbol?
  case size_productions =>
    rw [rules_of_ofRules h, (of_ofRules_eq_ok h).2.2.2.1, Array.size_mapIdx]
  case production_eq =>
    intro i p r hp hr
    rw [hgetElem] at hr
    obtain ⟨hleft, hright, hhas⟩ := resolve_symbols h (List.mem_of_getElem? hr) i
    rw [getElem?_of_rule h hr] at hp
    obtain rfl := Option.some.inj hp
    refine ⟨rfl, number?_eq_some_iff_symbol?.1 hleft, ?_⟩
    rw [map_symbol?_of_has hhas, hright]
  case narrow_eq => exact fun x hx => narrow_eq h (Grammar.mem_symbolIds_iff.1 hx)
  case numbered =>
    intro r hr s hs hnone
    rw [← Array.mem_toList_iff, hrules] at hr
    obtain ⟨x, hx⟩ := exists_number?_of_mem_symbols h hr hs
    cases hnone.symm.trans hx
  case production_eq_stored =>
    intro i r hr
    rw [hgetElem] at hr
    exact production_eq_stored h hr
  case reserved =>
    exact fun p hp => ⟨hg.end_not_mem_right hp, hg.start_not_mem_right hp,
      hg.eq_accept_of_left hp, hg.left_eq_of_id_eq_accept hp⟩

end Construction

/-- One name for symbols of both kinds, and names that are reserved for the other kind. -/
def twofold : List Rule :=
  [⟨.nonterminal "S", [.nonterminal "$", .terminal "S'", .terminal "S"]⟩, ⟨.nonterminal "$", []⟩]

theorem lossless_of_ofRules_twofold : ∃ g, ofRules twofold (.nonterminal "S") = .ok g ∧
    g.number? (.terminal "S'") = some (.terminal 1) ∧
    g.number? (.nonterminal "$") = some (.nonterminal 2) ∧
    g.Lossless twofold (.nonterminal "S") := by
  obtain ⟨g, hg, hcheck⟩ : ∃ g, ofRules twofold (.nonterminal "S") = .ok g ∧
      (decide (g.number? (.terminal "S'") = some (.terminal 1)) &&
        decide (g.number? (.nonterminal "$") = some (.nonterminal 2))) = true :=
    exists_ok_of_any (by decide +kernel)
  obtain ⟨hterminal, hnonterminal⟩ := Bool.and_eq_true_iff.1 hcheck
  exact ⟨g, hg, of_decide_eq_true hterminal, of_decide_eq_true hnonterminal,
    lossless_of_ofRules hg⟩

end Grammar

end ShiftReduce
