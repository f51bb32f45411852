import ShiftReduce.Proofs.Numbered
import ShiftReduce.Proofs.Runs

/-!
# Sentences and derivation trees

A string of terminals is a sentence of a rule list when the start symbol derives it, and viable
when the start symbol derives some string that begins with it.  A tree follows the rules when its
leaves are terminals and each of its nodes, with the symbols of its children in order, is one of
the rules; a node without children is an empty rule.  The sentences are the leaves of the trees
that follow the rules from the start symbol.

    (∃ tree, tree.IsDerivation rules start tokens) ↔ Rule.Sentence rules start (tokens.map (·.symbol))
                                                                    (exists_isDerivation_iff)
-/

namespace ShiftReduce

variable {π : Type} {rules : List Rule} {start : Symbol}

/-! ## Sentences -/

namespace Rule

variable {u : List Symbol} {s : Symbol}

/-- The start symbol derives the string, which is one of terminals. -/
structure Sentence (rules : List Rule) (start : Symbol) (u : List Symbol) : Prop where
  isTerminal : ∀ s ∈ u, s.isTerminal = true
  derives : Derives (In rules) [start] u

/-- The start symbol derives a string that begins with this one, which is one of terminals. -/
structure Viable (rules : List Rule) (start : Symbol) (u : List Symbol) : Prop where
  isTerminal : ∀ s ∈ u, s.isTerminal = true
  derives : ∃ β, Derives (In rules) [start] (u ++ β)

/-- The symbol is a terminal of the rules. -/
def HasTerminal (rules : List Rule) (s : Symbol) : Prop :=
  s.isTerminal = true ∧ ∃ r ∈ rules, s ∈ r.symbols

/-- With the symbol after it the string is viable still; the end of input follows a sentence. -/
inductive MayFollow (rules : List Rule) (start : Symbol) (u : List Symbol) : Symbol → Prop
  | terminal {s : Symbol} : s ≠ .endOfInput → Viable rules start (u ++ [s]) →
      MayFollow rules start u s
  | endOfInput : Sentence rules start u → MayFollow rules start u .endOfInput

theorem Viable.of_append {u v : List Symbol} (h : Viable rules start (u ++ v)) :
    Viable rules start u := by
  obtain ⟨β, hβ⟩ := h.derives
  exact ⟨fun s hs => h.isTerminal s (List.mem_append_left v hs), v ++ β, by
    rwa [← List.append_assoc]⟩

theorem mem_symbols_of_derives {α β : List Symbol} (h : Derives (In rules) α β) {s : Symbol}
    (hs : s ∈ β) : s ∈ α ∨ ∃ r ∈ rules, s ∈ r.symbols := by
  induction h with
  | refl => exact Or.inl hs
  | tail _ hstep ih =>
    obtain @⟨γ, δ, x, right, hrule⟩ := hstep
    rw [List.mem_append, List.mem_append] at hs
    rcases hs with (hs | hs) | hs
    · exact ih (by simp [hs])
    · exact Or.inr ⟨⟨x, right⟩, hrule, List.mem_cons_of_mem x hs⟩
    · exact ih (by simp [hs])

/-- The terminals of a viable string are terminals of the rules. -/
theorem Viable.hasTerminal (hstart : start.isTerminal = false) (h : Viable rules start u)
    (hs : s ∈ u) : HasTerminal rules s := by
  have hterminal := h.isTerminal s hs
  obtain ⟨β, hβ⟩ := h.derives
  refine ⟨hterminal, ?_⟩
  rcases mem_symbols_of_derives hβ (List.mem_append_left β hs) with hmem | hmem
  · rw [List.mem_singleton.1 hmem, hstart] at hterminal
    cases hterminal
  · exact hmem

theorem mayFollow_iff_viable (hs : s ≠ .endOfInput) :
    MayFollow rules start u s ↔ Viable rules start (u ++ [s]) := by
  constructor
  · intro h
    cases h with
    | terminal _ hviable => exact hviable
    | endOfInput _ => exact absurd rfl hs
  · exact .terminal hs

theorem mayFollow_endOfInput_iff :
    MayFollow rules start u .endOfInput ↔ Sentence rules start u := by
  constructor
  · intro h
    cases h with
    | terminal hne _ => exact absurd rfl hne
    | endOfInput hsentence => exact hsentence
  · exact .endOfInput

end Rule

/-! ## Trees -/

namespace Tree

/-- Leaves are terminals, and every node with the symbols of its children is a rule. -/
inductive FollowsRules (rules : List Rule) : Tree π → Prop
  | leaf {token : Token π} : token.symbol.isTerminal = true → FollowsRules rules (.leaf token)
  | node {name : String} {children : List (Tree π)} :
      (⟨.nonterminal name, children.map symbol⟩ : Rule) ∈ rules →
      (∀ child ∈ children, FollowsRules rules child) → FollowsRules rules (.node name children)

/-- The tree derives the tokens from the start symbol by the rules. -/
structure IsDerivation (rules : List Rule) (start : Symbol) (tokens : List (Token π))
    (tree : Tree π) : Prop where
  symbol_eq : tree.symbol = start
  followsRules : tree.FollowsRules rules
  leaves_eq : tree.leaves = tokens

theorem isTerminal_of_mem_leavesOfAll {forest : List (Tree π)}
    (h : ∀ tree ∈ forest, ∀ token ∈ tree.leaves, token.symbol.isTerminal = true) :
    ∀ token ∈ leavesOfAll forest, token.symbol.isTerminal = true := by
  induction forest with
  | nil => intro token htoken; cases htoken
  | cons tree forest ih =>
    intro token htoken
    rw [leavesOfAll, List.mem_append] at htoken
    rcases htoken with htoken | htoken
    · exact h tree List.mem_cons_self token htoken
    · exact ih (fun t ht => h t (List.mem_cons_of_mem tree ht)) token htoken

theorem FollowsRules.isTerminal_of_mem_leaves {tree : Tree π} (h : tree.FollowsRules rules) :
    ∀ token ∈ tree.leaves, token.symbol.isTerminal = true := by
  induction h with
  | leaf hterminal =>
    intro token htoken
    rw [leaves, List.mem_singleton] at htoken
    rwa [htoken]
  | node _ _ ih => exact isTerminal_of_mem_leavesOfAll ih

theorem derives_leavesOfAll {forest : List (Tree π)}
    (h : ∀ tree ∈ forest, Derives (Rule.In rules) [tree.symbol] (tree.leaves.map (·.symbol))) :
    Derives (Rule.In rules) (forest.map symbol) ((leavesOfAll forest).map (·.symbol)) := by
  induction forest with
  | nil => exact Derives.refl []
  | cons tree forest ih =>
    rw [leavesOfAll, List.map_append]
    exact (h tree List.mem_cons_self).append (ih fun t ht => h t (List.mem_cons_of_mem tree ht))

theorem FollowsRules.derives {tree : Tree π} (h : tree.FollowsRules rules) :
    Derives (Rule.In rules) [tree.symbol] (tree.leaves.map (·.symbol)) := by
  induction h with
  | leaf _ => exact Derives.refl _
  | @node name children hrule _ ih =>
    have hstep : Rule.In rules (.nonterminal name) (children.map symbol) := hrule
    exact (Derives.of_rule hstep).trans (derives_leavesOfAll ih)

/-- A rule applied to a string is a node over the trees of its right side. -/
theorem exists_forest_of_rewrites (hleft : ∀ r ∈ rules, r.left.isTerminal = false)
    {α β : List Symbol} (h : Rewrites (Rule.In rules) α β) {forest : List (Tree π)}
    (hsymbols : forest.map symbol = β) (hrules : ∀ tree ∈ forest, tree.FollowsRules rules) :
    ∃ forest' : List (Tree π), forest'.map symbol = α ∧
      leavesOfAll forest' = leavesOfAll forest ∧ ∀ tree ∈ forest', tree.FollowsRules rules := by
  obtain @⟨γ, δ, x, _, hrule⟩ := h
  obtain ⟨front, back, rfl, hfront, rfl⟩ := List.map_eq_append_iff.1 hsymbols
  obtain ⟨before, children, rfl, rfl, rfl⟩ := List.map_eq_append_iff.1 hfront
  have hnode : (⟨x, children.map symbol⟩ : Rule) ∈ rules := hrule
  have hx : x = .nonterminal x.name := Symbol.eq_nonterminal_of_isTerminal_eq_false (hleft _ hnode)
  rw [hx] at hnode ⊢
  refine ⟨before ++ .node x.name children :: back, ?_, ?_, ?_⟩
  · rw [List.map_append, List.map_cons, symbol]
  · simp only [leavesOfAll_append, leavesOfAll, leaves, List.append_assoc]
  · intro tree htree
    rw [List.mem_append, List.mem_cons] at htree
    rcases htree with htree | rfl | htree
    · exact hrules tree (by simp [htree])
    · exact .node hnode fun child hchild => hrules child (by simp [hchild])
    · exact hrules tree (by simp [htree])

theorem exists_forest_of_derives (hleft : ∀ r ∈ rules, r.left.isTerminal = false)
    {tokens : List (Token π)} (hterminal : ∀ token ∈ tokens, token.symbol.isTerminal = true)
    {α : List Symbol} (h : Derives (Rule.In rules) α (tokens.map (·.symbol))) :
    ∃ forest : List (Tree π), forest.map symbol = α ∧ leavesOfAll forest = tokens ∧
      ∀ tree ∈ forest, tree.FollowsRules rules := by
  induction h using Relation.ReflTransGen.head_induction_on with
  | refl =>
    refine ⟨tokens.map .leaf, ?_, ?_, ?_⟩
    · rw [List.map_map]
      rfl
    · clear hterminal
      induction tokens with
      | nil => rfl
      | cons token tokens ih => rw [List.map_cons, leavesOfAll, ih, leaves]; rfl
    · intro tree htree
      obtain ⟨token, htoken, rfl⟩ := List.mem_map.1 htree
      exact .leaf (hterminal token htoken)
  | head hstep _ ih =>
    obtain ⟨forest, hsymbols, hleaves, hrules⟩ := ih
    obtain ⟨forest', hsymbols', hleaves', hrules'⟩ :=
      exists_forest_of_rewrites hleft hstep hsymbols hrules
    exact ⟨forest', hsymbols', hleaves'.trans hleaves, hrules'⟩

/-- The sentences are the strings with a derivation tree. -/
theorem exists_isDerivation_iff (hleft : ∀ r ∈ rules, r.left.isTerminal = false)
    {tokens : List (Token π)} : (∃ tree : Tree π, tree.IsDerivation rules start tokens) ↔
      Rule.Sentence rules start (tokens.map (·.symbol)) := by
  constructor
  · rintro ⟨tree, rfl, hrules, rfl⟩
    refine ⟨fun s hs => ?_, hrules.derives⟩
    obtain ⟨token, htoken, rfl⟩ := List.mem_map.1 hs
    exact hrules.isTerminal_of_mem_leaves token htoken
  · rintro ⟨hterminal, hderives⟩
    obtain ⟨forest, hsymbols, hleaves, hrules⟩ := exists_forest_of_derives hleft
      (fun token htoken => hterminal _ (List.mem_map_of_mem htoken)) hderives
    obtain ⟨tree, rfl, rfl⟩ := List.map_eq_singleton_iff.1 hsymbols
    rw [leavesOfAll, leavesOfAll, List.append_nil] at hleaves
    exact ⟨tree, rfl, hrules tree (List.mem_singleton.2 rfl), hleaves⟩

end Tree

end ShiftReduce
