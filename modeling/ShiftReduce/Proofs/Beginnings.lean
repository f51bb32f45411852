import ShiftReduce.Proofs.FirstSets

/-!
# What the rules derive, and First sets

The computed sets are exact over the numbers of a grammar.  Here the numbers are read back: the
rules over numbers are the rules of the augmented list, the augmenting rule first, so a string of
numbers derives what the string of its symbols derives.  In these terms the First sets, the sets of
sequences and the sets before lookaheads are described by derivations alone.

    Begins g.HasRule α t ↔ t is a terminal, and the symbols of α derive a string that begins with it
                                                                    (begins_iff_begins_symbols)
    t ∈ firstBefore α L ↔ ∃ n ∈ L, t ∈ firstOf (α ++ [n]), where L is not empty
                                                                    (mem_firstBefore_iff_exists)
-/

namespace ShiftReduce

variable {g : Grammar} {rules : List Rule} {start : Symbol}

/-! ## Derivations over numbers and by the augmented rules -/

namespace Grammar

section Augmented

variable (h : ofRules rules start = .ok g)
include h

/-- A rule over numbers, read back, is a rule of the augmented list. -/
theorem augmented_of_production {p : Production} (hp : p ∈ g.productions) :
    Rule.In (Rule.augmenting start :: rules) (g.nonterminal p.left) (p.right.map g.symbol) := by
  obtain ⟨i, r, hr, rfl⟩ := exists_resolve_of_mem h hp
  have hmem := List.mem_of_getElem? hr
  obtain ⟨hleft, hright, -⟩ := resolve_symbols h hmem i
  have hsymbol : g.nonterminal (resolve g.terminals g.nonterminals i r).left = r.left :=
    (number?_eq_some_iff.1 hleft).2
  unfold Rule.In
  rw [hright, hsymbol]
  exact hmem

theorem production_of_augmented {x : Symbol} {right : List Symbol}
    (hr : Rule.In (Rule.augmenting start :: rules) x right) :
    ∃ p ∈ g.productions, g.nonterminal p.left = x ∧ p.right.map g.symbol = right := by
  obtain ⟨i, hi⟩ := List.mem_iff_getElem?.1 hr
  obtain ⟨hleft, hright, -⟩ := resolve_symbols h hr i
  exact ⟨_, Array.mem_of_getElem? (getElem?_of_rule h hi), (number?_eq_some_iff.1 hleft).2, hright⟩

variable {α : List SymbolId} (hα : ∀ x ∈ α, g.Has x)
include hα

theorem derives_augmented {β : List SymbolId} (hd : Derives g.HasRule α β) :
    Derives (Rule.In (Rule.augmenting start :: rules)) (α.map g.symbol) (β.map g.symbol) := by
  have hg := wellFormed_of_ofRules h
  refine (Derives.map (V := g.Has) (fun x right _ hrule => ?_) hα hd).1
  obtain ⟨p, hp, rfl, rfl⟩ := hrule
  exact ⟨augmented_of_production h hp, fun y hy => hg.has_of_mem_right hp hy⟩

theorem derives_of_augmented {β' : List Symbol}
    (hd : Derives (Rule.In (Rule.augmenting start :: rules)) (α.map g.symbol) β') :
    ∃ β, β' = β.map g.symbol ∧ Derives g.HasRule α β ∧ ∀ x ∈ β, g.Has x := by
  have hg := wellFormed_of_ofRules h
  refine Derives.exists_of_map (fun x right' hx hrule => ?_) hα hd
  obtain ⟨p, hp, hleft, rfl⟩ := production_of_augmented h hrule
  have hx : .nonterminal p.left = x := symbol_inj (hg.left_lt hp) hx hleft
  exact ⟨p.right, rfl, ⟨p, hp, hx.symm, rfl⟩, fun y hy => hg.has_of_mem_right hp hy⟩

theorem derives_nil_iff_derives_symbols : Derives g.HasRule α [] ↔
    Derives (Rule.In (Rule.augmenting start :: rules)) (α.map g.symbol) [] := by
  constructor
  · intro hd
    exact derives_augmented h hα hd
  · intro hd
    obtain ⟨β, hβ, hd, -⟩ := derives_of_augmented h hα hd
    obtain rfl := List.map_eq_nil_iff.1 hβ.symm
    exact hd

theorem begins_iff_begins_symbols {t : TerminalId} : Begins g.HasRule α (.terminal t) ↔
    g.Has (.terminal t) ∧
      Begins (Rule.In (Rule.augmenting start :: rules)) (α.map g.symbol) (g.terminal t) := by
  constructor
  · rintro ⟨β, hd⟩
    have hlt := (wellFormed_of_ofRules h).lt_of_begins hα ⟨β, hd⟩
    exact ⟨hlt, β.map g.symbol, derives_augmented h hα hd⟩
  · rintro ⟨ht, β', hd⟩
    obtain ⟨β, hβ, hd, hhas⟩ := derives_of_augmented h hα hd
    obtain ⟨x, β, rfl, hx, -⟩ := List.map_eq_cons_iff.1 hβ.symm
    have hxt : x = .terminal t := symbol_inj (hhas x List.mem_cons_self) ht hx
    exact ⟨β, hxt ▸ hd⟩

end Augmented

theorem begins_terminal_iff {n t : TerminalId} :
    Begins g.HasRule [.terminal n] (.terminal t) ↔ t = n := by
  constructor
  · rintro ⟨β, hd⟩
    have heq := (derives_singleton_iff (not_hasRule_terminal n)).1 hd
    exact SymbolId.terminal.inj (List.cons.inj heq).1
  · rintro rfl
    exact ⟨[], Derives.refl _⟩

end Grammar

/-! ## First sets -/

namespace FirstSets

/-- Before lookaheads stands what begins the string with one of them behind it. -/
theorem Exact.mem_firstBefore_iff_exists {f : FirstSets} (hf : f.Exact g) {α : List SymbolId}
    {lookaheads : TerminalSet} (hne : ∃ n, n ∈ lookaheads) {t : TerminalId} :
    t ∈ f.firstBefore α lookaheads ↔ ∃ n ∈ lookaheads, t ∈ f.firstOf (α ++ [.terminal n]) := by
  simp only [hf.mem_firstBefore_iff, hf.mem_firstOf_iff, begins_append_iff,
    Grammar.begins_terminal_iff]
  constructor
  · rintro (hbegins | ⟨hnil, ht⟩)
    · obtain ⟨n, hn⟩ := hne
      exact ⟨n, hn, Or.inl hbegins⟩
    · exact ⟨t, ht, Or.inr ⟨hnil, rfl⟩⟩
  · rintro ⟨n, hn, hbegins | ⟨hnil, rfl⟩⟩
    · exact Or.inl hbegins
    · exact Or.inr ⟨hnil, hn⟩

/-- The sets of a grammar hold what the rules of the augmented list derive and nothing else. -/
theorem mem_first_iff_derives (h : Grammar.ofRules rules start = .ok g) :
    let f := ofGrammar g
    let R := Rule.In (Rule.augmenting start :: rules)
    (∀ n t, g.Has (.nonterminal n) →
      (t ∈ f.first n ↔ g.Has (.terminal t) ∧ Begins R [g.nonterminal n] (g.terminal t))) ∧
    (∀ α t, (∀ x ∈ α, g.Has x) →
      (t ∈ f.firstOf α ↔ g.Has (.terminal t) ∧ Begins R (α.map g.symbol) (g.terminal t))) ∧
    (∀ α lookaheads t, (∀ x ∈ α, g.Has x) →
      (t ∈ f.firstBefore α lookaheads ↔
        (g.Has (.terminal t) ∧ Begins R (α.map g.symbol) (g.terminal t)) ∨
          (Derives R (α.map g.symbol) [] ∧ t ∈ lookaheads))) ∧
    ∀ α lookaheads, (∃ n, n ∈ lookaheads) → ∀ t,
      (t ∈ f.firstBefore α lookaheads ↔ ∃ n ∈ lookaheads, t ∈ f.firstOf (α ++ [.terminal n])) := by
  intro f R
  have hf : f.Exact g := exact_ofGrammar (Grammar.wellFormed_of_ofRules h)
  refine ⟨?_, ?_, ?_, ?_⟩
  · intro n t hn
    have hhas : ∀ x ∈ [SymbolId.nonterminal n], g.Has x := List.forall_mem_singleton.2 hn
    rw [hf.mem_first_iff, Grammar.begins_iff_begins_symbols h hhas]
    rfl
  · intro α t hα
    rw [hf.mem_firstOf_iff, Grammar.begins_iff_begins_symbols h hα]
  · intro α lookaheads t hα
    rw [hf.mem_firstBefore_iff, Grammar.begins_iff_begins_symbols h hα,
      Grammar.derives_nil_iff_derives_symbols h hα]
  · intro α lookaheads hne t
    exact hf.mem_firstBefore_iff_exists hne

/-- A list of `a` in front of a list of `b`, and both may be empty. -/
def twoLists : List Rule :=
  [⟨.nonterminal "S", [.nonterminal "A", .nonterminal "B"]⟩,
    ⟨.nonterminal "A", [.nonterminal "A", .terminal "a"]⟩, ⟨.nonterminal "A", []⟩,
    ⟨.nonterminal "B", [.terminal "b", .nonterminal "B"]⟩, ⟨.nonterminal "B", []⟩]

/-- As `b` is in the First set of `S`, it begins a string that `S` derives, behind an empty `A`; the
end of the input follows a `B` of which nothing is left. -/
theorem mem_first_iff_derives_twoLists :
    ∃ g, Grammar.ofRules twoLists (.nonterminal "S") = .ok g ∧
      Begins (Rule.In (Rule.augmenting (.nonterminal "S") :: twoLists)) [.nonterminal "S"]
        (.terminal "b") ∧
      ∃ n ∈ OrderedSet.singleton endOfInputId,
        endOfInputId ∈ (ofGrammar g).firstOf ([.nonterminal 3] ++ [.terminal n]) := by
  obtain ⟨g, hg, hcheck⟩ : ∃ g, Grammar.ofRules twoLists (.nonterminal "S") = .ok g ∧
      (decide (2 ∈ (ofGrammar g).first 1) && decide (1 < g.nonterminals.size) &&
        decide (g.nonterminal 1 = .nonterminal "S") && decide (g.terminal 2 = .terminal "b") &&
        decide (endOfInputId ∈ (ofGrammar g).firstBefore [.nonterminal 3] (.singleton endOfInputId)))
          = true :=
    exists_ok_of_any (by decide +kernel)
  simp only [Bool.and_eq_true, decide_eq_true_eq] at hcheck
  obtain ⟨⟨⟨⟨hfirst, hS⟩, hnonterminal⟩, hterminal⟩, hbefore⟩ := hcheck
  obtain ⟨hone, -, -, hunion⟩ := mem_first_iff_derives hg
  refine ⟨g, hg, ?_, (hunion _ _ ⟨_, OrderedSet.mem_singleton.2 rfl⟩ _).1 hbefore⟩
  have hbegins := ((hone 1 2 hS).1 hfirst).2
  rwa [hnonterminal, hterminal] at hbegins

end FirstSets

end ShiftReduce
