import ShiftReduce.Parser
import ShiftReduce.Proofs.Construction

/-!
# Valid items

Which items are valid for a string of symbols is said of the grammar alone: the augmenting rule
starts before the empty string, an item before a nonterminal asks for the rules of that
nonterminal, and an item is advanced over a symbol at the end of the string.  The automaton in
canonical mode recognizes exactly this: its paths are the strings that have a valid item, and the
state at the end of a path holds the valid items of its string and no others.

    Recognizes g γ items → (transitions g items).find? x = some kernel → Seeds g (γ ++ [x]) kernel
                                                                     (seeds_of_transitions)
    Seeds g γ kernel → Recognizes g γ (closure g f kernel)                 (Seeds.recognizes)
-/

namespace ShiftReduce

variable {g : Grammar} {f : FirstSets}

/-! ## Validity -/

theorem Core.next?_of_drop {c : Core} {x : SymbolId} {after : List SymbolId}
    (h : (g.right c.rule).drop c.marker = x :: after) : c.next? g = some x ∧ c.rest g = after := by
  unfold Core.next? Core.rest
  constructor
  · have hget := congrArg (fun l => l[0]?) h
    simpa only [List.getElem?_drop, Nat.add_zero, List.getElem?_cons_zero] using hget
  · have htail := congrArg List.tail h
    simpa only [List.tail_drop, List.tail_cons] using htail

theorem Core.take_advance {c : Core} {x : SymbolId} (h : c.next? g = some x) :
    (g.right c.advance.rule).take c.advance.marker = (g.right c.rule).take c.marker ++ [x] := by
  show (g.right c.rule).take (c.marker + 1) = _
  rw [List.take_add_one]
  exact congrArg _ (congrArg Option.toList h)

theorem Grammar.WellFormed.isComplete_end (hg : g.WellFormed) {p : Production}
    (hp : p ∈ g.productions) : (⟨p.id, p.right.length⟩ : Core).isComplete g = true := by
  unfold Core.isComplete
  rw [hg.right_id hp]
  exact decide_eq_true (Nat.le_refl _)

section AcceptingItem

variable (hg : g.WellFormed)
include hg

theorem Grammar.WellFormed.next?_start :
    (Core.start acceptId).next? g = some (.nonterminal g.start) := by
  unfold Core.next? Core.start
  rw [hg.right_accept]
  rfl

theorem Grammar.WellFormed.rest_start : (Core.start acceptId).rest g = [] := by
  unfold Core.rest Core.start
  rw [hg.right_accept]
  rfl

theorem Grammar.WellFormed.isComplete_advance_start :
    (Core.start acceptId).advance.isComplete g = true := by
  unfold Core.isComplete Core.advance Core.start
  rw [hg.right_accept]
  rfl

end AcceptingItem

/-- The cores that are valid for a string of symbols. -/
inductive ValidCore (g : Grammar) : List SymbolId → Core → Prop
  | start : ValidCore g [] (Core.start acceptId)
  | expand {γ : List SymbolId} {c : Core} {p : Production} : ValidCore g γ c →
      c.next? g = some (.nonterminal p.left) → p ∈ g.productions → ValidCore g γ (Core.start p.id)
  | advance {γ : List SymbolId} {c : Core} {x : SymbolId} : ValidCore g γ c →
      c.next? g = some x → ValidCore g (γ ++ [x]) c.advance

/-- The cores that are valid for a string of symbols with a lookahead. -/
inductive ValidItem (g : Grammar) : List SymbolId → Core → TerminalId → Prop
  | start : ValidItem g [] (Core.start acceptId) endOfInputId
  | first {γ : List SymbolId} {c : Core} {p : Production} {t : TerminalId} : ValidCore g γ c →
      c.next? g = some (.nonterminal p.left) → p ∈ g.productions →
      Begins g.HasRule (c.rest g) (.terminal t) → ValidItem g γ (Core.start p.id) t
  | inherit {γ : List SymbolId} {c : Core} {p : Production} {t : TerminalId} : ValidItem g γ c t →
      c.next? g = some (.nonterminal p.left) → p ∈ g.productions →
      Derives g.HasRule (c.rest g) [] → ValidItem g γ (Core.start p.id) t
  | advance {γ : List SymbolId} {c : Core} {x : SymbolId} {t : TerminalId} : ValidItem g γ c t →
      c.next? g = some x → ValidItem g (γ ++ [x]) c.advance t

variable {γ : List SymbolId} {c : Core} {x : SymbolId} {t : TerminalId}

theorem ValidItem.validCore (h : ValidItem g γ c t) : ValidCore g γ c := by
  induction h with
  | start => exact .start
  | first hcore hnext hp _ => exact .expand hcore hnext hp
  | inherit _ hnext hp _ ih => exact .expand ih hnext hp
  | advance _ hnext ih => exact .advance ih hnext

/-- A core is valid for a longer string only where some core stands before its last symbol. -/
theorem ValidCore.exists_next (h : ValidCore g (γ ++ [x]) c) :
    ∃ d, ValidCore g γ d ∧ d.next? g = some x := by
  generalize hδ : γ ++ [x] = δ at h
  induction h with
  | start => exact absurd hδ (by simp)
  | expand _ _ _ ih => exact ih hδ
  | advance hd hnext _ =>
    obtain ⟨rfl, hx⟩ := List.append_inj' hδ rfl
    obtain rfl := List.singleton_inj.1 hx
    exact ⟨_, hd, hnext⟩

/-- A valid start of a rule is the start of the augmenting rule or was asked for. -/
theorem ValidCore.start_cases {r : RuleId} (h : ValidCore g γ (Core.start r)) :
    (γ = [] ∧ r = acceptId) ∨ ∃ d, ∃ p ∈ g.productions, p.id = r ∧ ValidCore g γ d ∧
      d.next? g = some (.nonterminal p.left) := by
  generalize hc : Core.start r = c at h
  cases h with
  | start => exact Or.inl ⟨rfl, congrArg Core.rule hc⟩
  | @expand _ d p hd hnext hp => exact Or.inr ⟨d, p, hp, congrArg Core.rule hc.symm, hd, hnext⟩
  | advance _ _ => exact absurd (congrArg Core.marker hc) (Nat.succ_ne_zero _).symm

/-- The string ends in the symbols before the marker, and the rule is asked for before them. -/
theorem ValidCore.exists_before (h : ValidCore g γ c) :
    ∃ β, γ = β ++ (g.right c.rule).take c.marker ∧ ValidCore g β (Core.start c.rule) := by
  induction h with
  | start => exact ⟨[], rfl, .start⟩
  | @expand γ _ p hd hnext hp _ => exact ⟨γ, (List.append_nil γ).symm, .expand hd hnext hp⟩
  | @advance γ c x _ hnext ih =>
    obtain ⟨β, rfl, hstart⟩ := ih
    refine ⟨β, ?_, hstart⟩
    rw [List.append_assoc, ← Core.take_advance hnext]

theorem ValidCore.marker_le (h : ValidCore g γ c) : c.marker ≤ (g.right c.rule).length := by
  induction h with
  | start => exact Nat.zero_le _
  | expand _ _ _ _ => exact Nat.zero_le _
  | advance _ hnext _ => exact (List.getElem?_eq_some_iff.1 hnext).1

theorem ValidCore.marker_eq (h : ValidCore g γ c) (hcomplete : c.isComplete g = true) :
    c.marker = (g.right c.rule).length :=
  Nat.le_antisymm h.marker_le (of_decide_eq_true hcomplete)

/-- A completed item ends in the whole right side of its rule. -/
theorem ValidCore.exists_before_right (h : ValidCore g γ c) (hcomplete : c.isComplete g = true) :
    ∃ β, γ = β ++ g.right c.rule ∧ ValidCore g β (Core.start c.rule) := by
  obtain ⟨β, hγ, hstart⟩ := h.exists_before
  rw [List.take_of_length_le (of_decide_eq_true hcomplete)] at hγ
  exact ⟨β, hγ, hstart⟩

/-- A completed valid item is that of a rule, with the marker at its end. -/
theorem ValidCore.exists_rule_of_complete (hg : g.WellFormed) (h : ValidCore g γ c)
    (hcomplete : c.isComplete g = true) (hne : c.rule ≠ acceptId) :
    ∃ p ∈ g.productions, c = ⟨p.id, p.right.length⟩ := by
  obtain ⟨β, -, hstart⟩ := h.exists_before
  rcases hstart.start_cases with ⟨-, haccept⟩ | ⟨d, p, hp, hid, -, -⟩
  · exact absurd haccept hne
  · have hmarker := h.marker_eq hcomplete
    rw [← hid, hg.right_id hp] at hmarker
    exact ⟨p, hp, by rw [← hmarker, hid]⟩

/-- The augmenting rule starts before the empty string only. -/
theorem ValidCore.eq_nil_of_start_accept (hg : g.WellFormed)
    (h : ValidCore g γ (Core.start acceptId)) : γ = [] := by
  rcases h.start_cases with ⟨hγ, -⟩ | ⟨d, p, hp, hid, -, hnext⟩
  · exact hγ
  · exact absurd hid (hg.id_ne_accept hp (List.mem_of_getElem? hnext))

/-- Before the right side of a completed item some item asks for its rule. -/
theorem ValidCore.exists_before_left (hg : g.WellFormed) {p : Production} {β : List SymbolId}
    (hp : p ∈ g.productions) (hne : p.id ≠ acceptId)
    (h : ValidCore g (β ++ p.right) ⟨p.id, p.right.length⟩) :
    ∃ d, ValidCore g β d ∧ d.next? g = some (.nonterminal p.left) := by
  obtain ⟨β', hβ, hstart⟩ := h.exists_before_right (hg.isComplete_end hp)
  rw [hg.right_id hp] at hβ
  obtain rfl := List.append_cancel_right hβ
  rcases hstart.start_cases with ⟨-, haccept⟩ | ⟨d, p', hp', hid, hd, hnext⟩
  · exact absurd haccept hne
  · obtain rfl := hg.eq_of_id_eq hp' hp hid
    exact ⟨d, hd, hnext⟩

/-- Items of the augmenting rule look at the end of input only. -/
theorem ValidItem.eq_end_of_accept (hg : g.WellFormed) (h : ValidItem g γ c t)
    (hc : c.rule = acceptId) : t = endOfInputId := by
  induction h with
  | start => rfl
  | first _ hnext hp _ => exact absurd hc (hg.id_ne_accept hp (List.mem_of_getElem? hnext))
  | inherit _ hnext hp _ _ => exact absurd hc (hg.id_ne_accept hp (List.mem_of_getElem? hnext))
  | advance _ _ ih => exact ih hc

/-! ## Item sets that hold the valid items -/

/-- The item set holds exactly the items that are valid for `γ`. -/
structure Recognizes (g : Grammar) (γ : List SymbolId) (items : ItemSet) : Prop where
  has_iff : ∀ c, items.Has c ↔ ValidCore g γ c
  looks_iff : ∀ c t, items.Looks c t ↔ ValidItem g γ c t

/-- The cores that are valid for a string without any rule being asked for at its end. -/
inductive KernelCore (g : Grammar) : List SymbolId → Core → Prop
  | start : KernelCore g [] (Core.start acceptId)
  | advance {γ : List SymbolId} {c : Core} {x : SymbolId} : ValidCore g γ c →
      c.next? g = some x → KernelCore g (γ ++ [x]) c.advance

inductive KernelItem (g : Grammar) : List SymbolId → Core → TerminalId → Prop
  | start : KernelItem g [] (Core.start acceptId) endOfInputId
  | advance {γ : List SymbolId} {c : Core} {x : SymbolId} {t : TerminalId} : ValidItem g γ c t →
      c.next? g = some x → KernelItem g (γ ++ [x]) c.advance t

/-- The item set is the kernel from which the valid items of `γ` are found. -/
structure Seeds (g : Grammar) (γ : List SymbolId) (kernel : ItemSet) : Prop where
  has_iff : ∀ c, kernel.Has c ↔ KernelCore g γ c
  looks_iff : ∀ c t, kernel.Looks c t ↔ KernelItem g γ c t

theorem KernelCore.validCore (h : KernelCore g γ c) : ValidCore g γ c := by
  cases h with
  | start => exact .start
  | advance hd hnext => exact .advance hd hnext

theorem KernelItem.validItem (h : KernelItem g γ c t) : ValidItem g γ c t := by
  cases h with
  | start => exact .start
  | advance hd hnext => exact .advance hd hnext

theorem kernelCore_append_iff :
    KernelCore g (γ ++ [x]) c ↔ ∃ d, c = d.advance ∧ d.next? g = some x ∧ ValidCore g γ d := by
  constructor
  · intro h
    generalize hδ : γ ++ [x] = δ at h
    cases h with
    | start => exact absurd hδ (by simp)
    | advance hd hnext =>
      obtain ⟨rfl, hx⟩ := List.append_inj' hδ rfl
      obtain rfl := List.singleton_inj.1 hx
      exact ⟨_, rfl, hnext, hd⟩
  · rintro ⟨d, rfl, hnext, hd⟩
    exact .advance hd hnext

theorem kernelItem_append_iff :
    KernelItem g (γ ++ [x]) c t ↔ ∃ d, c = d.advance ∧ d.next? g = some x ∧ ValidItem g γ d t := by
  constructor
  · intro h
    generalize hδ : γ ++ [x] = δ at h
    cases h with
    | start => exact absurd hδ (by simp)
    | advance hd hnext =>
      obtain ⟨rfl, hx⟩ := List.append_inj' hδ rfl
      obtain rfl := List.singleton_inj.1 hx
      exact ⟨_, rfl, hnext, hd⟩
  · rintro ⟨d, rfl, hnext, hd⟩
    exact .advance hd hnext

/-- The kernel has the items that are not at the start of their rule, and the one that starts the
augmenting rule. -/
theorem kernelCore_iff (hg : g.WellFormed) :
    KernelCore g γ c ↔ ValidCore g γ c ∧ (0 < c.marker ∨ c = Core.start acceptId) := by
  constructor
  · intro h
    refine ⟨h.validCore, ?_⟩
    cases h with
    | start => exact Or.inr rfl
    | advance _ _ => exact Or.inl (Nat.succ_pos _)
  · rintro ⟨h, hpos | rfl⟩
    · cases h with
      | start => cases hpos
      | expand _ _ _ => cases hpos
      | advance hd hnext => exact .advance hd hnext
    · rw [h.eq_nil_of_start_accept hg]
      exact .start

theorem kernelItem_iff (hg : g.WellFormed) :
    KernelItem g γ c t ↔ ValidItem g γ c t ∧ (0 < c.marker ∨ c = Core.start acceptId) := by
  constructor
  · intro h
    refine ⟨h.validItem, ?_⟩
    cases h with
    | start => exact Or.inr rfl
    | advance _ _ => exact Or.inl (Nat.succ_pos _)
  · rintro ⟨h, hpos | rfl⟩
    · cases h with
      | start => cases hpos
      | first _ _ _ _ => cases hpos
      | inherit _ _ _ _ => cases hpos
      | advance hd hnext => exact .advance hd hnext
    · rw [h.validCore.eq_nil_of_start_accept hg, h.eq_end_of_accept hg rfl]
      exact .start

theorem seeds_startKernel : Seeds g [] Construction.startKernel where
  has_iff c := by
    rw [Construction.startKernel_has]
    constructor
    · rintro rfl
      exact .start
    · intro h
      generalize hγ : ([] : List SymbolId) = γ at h
      cases h with
      | start => rfl
      | advance _ _ => exact absurd hγ (by simp)
  looks_iff c t := by
    rw [Construction.startKernel_looks]
    constructor
    · rintro ⟨rfl, rfl⟩
      exact .start
    · intro h
      generalize hγ : ([] : List SymbolId) = γ at h
      cases h with
      | start => exact ⟨rfl, rfl⟩
      | advance _ _ => exact absurd hγ (by simp)

/-- A transition over `x` leads from the valid items of `γ` to the kernel of `γ ++ [x]`. -/
theorem seeds_of_transitions {items kernel : ItemSet} (h : Recognizes g γ items)
    (hx : (transitions g items).find? x = some kernel) : Seeds g (γ ++ [x]) kernel where
  has_iff c := by
    rw [has_of_transitions hx, kernelCore_append_iff]
    simp only [h.has_iff]
  looks_iff c t := by
    rw [looks_of_transitions hx, kernelItem_append_iff]
    simp only [h.looks_iff]

theorem Seeds.congr {found kernel : ItemSet} (h : Seeds g γ kernel)
    (hsame : found.same kernel = true) : Seeds g γ found where
  has_iff c := ((ItemSet.same_iff.1 hsame).1 c).trans (h.has_iff c)
  looks_iff c t := ((ItemSet.same_iff.1 hsame).2 c t).trans (h.looks_iff c t)

theorem Seeds.same {kernel kernel' : ItemSet} (h : Seeds g γ kernel) (h' : Seeds g γ kernel') :
    kernel.same kernel' = true :=
  ItemSet.same_iff.2 ⟨fun c => (h.has_iff c).trans (h'.has_iff c).symm,
    fun c t => (h.looks_iff c t).trans (h'.looks_iff c t).symm⟩

theorem Recognizes.same {items items' : ItemSet} (h : Recognizes g γ items)
    (h' : Recognizes g γ items') : items.same items' = true :=
  ItemSet.same_iff.2 ⟨fun c => (h.has_iff c).trans (h'.has_iff c).symm,
    fun c t => (h.looks_iff c t).trans (h'.looks_iff c t).symm⟩

/-- Strings with the same valid items have the same kernel. -/
theorem Seeds.of_recognizes (hg : g.WellFormed) {δ : List SymbolId} {kernel items : ItemSet}
    (h : Seeds g δ kernel) (hδ : Recognizes g δ items) (hγ : Recognizes g γ items) :
    Seeds g γ kernel where
  has_iff c := by
    rw [h.has_iff, kernelCore_iff hg, kernelCore_iff hg, ← hδ.has_iff, ← hγ.has_iff]
  looks_iff c t := by
    rw [h.looks_iff, kernelItem_iff hg, kernelItem_iff hg, ← hδ.looks_iff, ← hγ.looks_iff]

theorem Seeds.validCore_of_closureCore {kernel : ItemSet} (h : Seeds g γ kernel)
    (hc : ClosureCore g kernel c) : ValidCore g γ c := by
  induction hc with
  | base hc => exact ((h.has_iff _).1 hc).validCore
  | expand _ hnext hp ih => exact .expand ih hnext hp

theorem Seeds.closureCore_of_validCore {kernel : ItemSet} (h : Seeds g γ kernel)
    (hc : ValidCore g γ c) : ClosureCore g kernel c := by
  induction hc with
  | start => exact .base ((h.has_iff _).2 .start)
  | expand _ hnext hp ih => exact .expand (ih h) hnext hp
  | advance hd hnext _ => exact .base ((h.has_iff _).2 (.advance hd hnext))

/-- Closing the kernel of a string yields its valid items. -/
theorem Seeds.recognizes (hg : g.WellFormed) (hf : f.Exact g) {kernel : ItemSet}
    (h : Seeds g γ kernel) : Recognizes g γ (closure g f kernel) where
  has_iff c := by
    rw [has_closure_iff hg hf]
    constructor
    · exact h.validCore_of_closureCore
    · exact h.closureCore_of_validCore
  looks_iff c t := by
    rw [looks_closure_iff hg hf]
    constructor
    · intro hc
      induction hc with
      | base hc => exact ((h.looks_iff _ _).1 hc).validItem
      | first hcore hnext hp hbegins => exact .first (h.validCore_of_closureCore hcore) hnext hp hbegins
      | inherit _ hnext hp hnil ih => exact .inherit ih hnext hp hnil
    · intro hc
      induction hc with
      | start => exact .base ((h.looks_iff _ _).2 .start)
      | first hcore hnext hp hbegins => exact .first (h.closureCore_of_validCore hcore) hnext hp hbegins
      | inherit _ hnext hp hnil ih => exact .inherit (ih h) hnext hp hnil
      | advance hd hnext _ => exact .base ((h.looks_iff _ _).2 (.advance hd hnext))

/-! ## Paths of the automaton -/

namespace Automaton

/-- The state that the edges from a state lead to along a string of symbols. -/
def follow? (a : Automaton) (q : StateId) : List SymbolId → Option StateId
  | [] => some q
  | x :: γ => (a.edge? q x).bind fun q => a.follow? q γ

variable {a : Automaton}

theorem follow?_append (a : Automaton) (q : StateId) (γ δ : List SymbolId) :
    a.follow? q (γ ++ δ) = (a.follow? q γ).bind fun q => a.follow? q δ := by
  induction γ generalizing q with
  | nil => rfl
  | cons x γ ih =>
    rw [List.cons_append, follow?, follow?]
    cases a.edge? q x with
    | none => rfl
    | some q => exact ih q

theorem follow?_concat (a : Automaton) (q : StateId) (γ : List SymbolId) (x : SymbolId) :
    a.follow? q (γ ++ [x]) = (a.follow? q γ).bind fun q => a.edge? q x := by
  rw [follow?_append]
  congr 1
  funext q
  rw [follow?]
  cases a.edge? q x <;> rfl

theorem edge?_eq {q : Nat} {node : Node} (h : a.nodes[q]? = some node) (x : SymbolId) :
    a.edge? q x = node.edges.find? x := by
  rw [edge?, h, Option.bind_some]

theorem exists_node_of_kernel? {q : StateId} {kernel : ItemSet} (h : a.kernel? q = some kernel) :
    ∃ node, a.nodes[q]? = some node ∧ node.kernel = kernel := Option.map_eq_some_iff.1 h

section Canonical

variable (hg : g.WellFormed) (hf : f.Exact g) (ha : a.Linked g f .canonical)
include hg hf ha

/-- An edge leads to the valid items of the longer string; where there is none, that string has no
valid item. -/
theorem recognizes_edge {q : Nat} {node : Node} (hq : a.nodes[q]? = some node)
    (hnode : Recognizes g γ node.items) (x : SymbolId) :
    (a.edge? q x = none ∧ ∀ c, ¬ ValidCore g (γ ++ [x]) c) ∨
      ∃ (r : Nat) (next : Node), a.edge? q x = some r ∧ a.nodes[r]? = some next ∧
        Recognizes g (γ ++ [x]) next.items ∧ ∃ c, ValidCore g (γ ++ [x]) c := by
  have hleads := ha.leads hq x
  rw [edge?_eq hq]
  cases hx : (transitions g node.items).find? x with
  | none =>
    rw [hx] at hleads
    refine Or.inl ⟨hleads, fun c hc => ?_⟩
    obtain ⟨d, hd, hnext⟩ := hc.exists_next
    exact find?_transitions_eq_none_iff.1 hx d ((hnode.has_iff d).2 hd) hnext
  | some kernel =>
    rw [hx] at hleads
    obtain ⟨r, found, hedge, hfound, hsame⟩ := hleads
    obtain ⟨next, hr, rfl⟩ := exists_node_of_kernel? hfound
    have hsome : ∃ d, node.items.Has d ∧ d.next? g = some x := by
      by_contra hnot
      have hnone := find?_transitions_eq_none_iff.2 fun d hd hnext => hnot ⟨d, hd, hnext⟩
      rw [hnone] at hx
      cases hx
    obtain ⟨d, hd, hnext⟩ := hsome
    refine Or.inr ⟨r, next, hedge, hr, ?_, d.advance, .advance ((hnode.has_iff d).1 hd) hnext⟩
    rw [ha.items_eq hr]
    exact ((seeds_of_transitions hnode hx).congr hsame).recognizes hg hf

/-- Either a path is labelled with the string and ends in a state of its valid items, or there is
neither a path nor a valid item. -/
theorem recognizes_follow? (γ : List SymbolId) :
    (a.follow? startState γ = none ∧ ∀ c, ¬ ValidCore g γ c) ∨
      ∃ (q : Nat) (node : Node), a.follow? startState γ = some q ∧ a.nodes[q]? = some node ∧
        Recognizes g γ node.items ∧ ∃ c, ValidCore g γ c := by
  induction γ using List.reverseRecOn with
  | nil =>
    obtain ⟨node, hnode, hkernel⟩ := exists_node_of_kernel? ha.start
    refine Or.inr ⟨startState, node, rfl, hnode, ?_, Core.start acceptId, .start⟩
    rw [ha.items_eq hnode, hkernel]
    exact seeds_startKernel.recognizes hg hf
  | append_singleton γ x ih =>
    rw [follow?_concat]
    rcases ih with ⟨hnone, hinvalid⟩ | ⟨q, node, hfollow, hq, hnode, -⟩
    · refine Or.inl ⟨by rw [hnone, Option.bind_none], fun c hc => ?_⟩
      obtain ⟨d, hd, -⟩ := hc.exists_next
      exact hinvalid d hd
    · rw [hfollow, Option.bind_some]
      exact recognizes_edge hg hf ha hq hnode x

variable {q : StateId} (hq : a.follow? startState γ = some q)
include hq

theorem exists_node_of_follow? :
    ∃ node, a.nodes[q]? = some node ∧ Recognizes g γ node.items := by
  rcases recognizes_follow? hg hf ha γ with ⟨hnone, -⟩ | ⟨r, node, hfollow, hr, hnode, -⟩
  · cases hnone.symm.trans hq
  · obtain rfl := Option.some.inj (hfollow.symm.trans hq)
    exact ⟨node, hr, hnode⟩

theorem validItem_of_looks {node : Node} (hnode : a.nodes[q]? = some node)
    (h : node.items.Looks c t) : ValidItem g γ c t := by
  obtain ⟨node', hnode', hvalid⟩ := exists_node_of_follow? hg hf ha hq
  obtain rfl := Option.some.inj (hnode'.symm.trans hnode)
  exact (hvalid.looks_iff c t).1 h

/-- A state has an edge on a symbol when a valid item stands before the symbol. -/
theorem exists_edge_iff : (∃ r, a.edge? q x = some r) ↔ ∃ c, ValidCore g γ c ∧ c.next? g = some x := by
  obtain ⟨node, hnode, hvalid⟩ := exists_node_of_follow? hg hf ha hq
  rcases recognizes_edge hg hf ha hnode hvalid x with ⟨hnone, hinvalid⟩ | ⟨r, next, hedge, -, -, c, hc⟩
  · rw [hnone]
    constructor
    · rintro ⟨r, hr⟩
      cases hr
    · rintro ⟨c, hc, hnext⟩
      exact absurd (.advance hc hnext) (hinvalid c.advance)
  · exact ⟨fun _ => hc.exists_next, fun _ => ⟨r, hedge⟩⟩

end Canonical

end Automaton

/-! ## Built parsers -/

namespace Parser

variable {rules : List Rule} {start : Symbol} {mode : MergeMode} {p s : Parser}

/-- What a parser that was built from rules is made of. -/
structure Built (rules : List Rule) (start : Symbol) (mode : MergeMode) (p : Parser) : Prop where
  wellFormed : p.grammar.WellFormed
  numbers : p.grammar.Numbers rules start
  exact : p.firstSets.Exact p.grammar
  linked : p.automaton.Linked p.grammar p.firstSets mode
  table_eq : p.table = .ofAutomaton p.grammar p.automaton

theorem eq_ofGrammar_of_build (h : build rules start mode = .ok p) :
    Grammar.ofRules rules start = .ok p.grammar ∧ ofGrammar p.grammar mode = p := by
  unfold build at h
  cases hg : Grammar.ofRules rules start with
  | error e =>
    rw [hg] at h
    cases h
  | ok g =>
    rw [hg] at h
    obtain rfl : ofGrammar g mode = p := Except.ok.inj h
    exact ⟨rfl, rfl⟩

/-- Parsers of the same rules have the same grammar, whatever their modes. -/
theorem grammar_eq_of_build {mode' : MergeMode} (hp : build rules start mode = .ok p)
    (hs : build rules start mode' = .ok s) : s.grammar = p.grammar :=
  Except.ok.inj ((eq_ofGrammar_of_build hs).1.symm.trans (eq_ofGrammar_of_build hp).1)

theorem built_of_build (h : build rules start mode = .ok p) : p.Built rules start mode := by
  obtain ⟨hg, hp⟩ := eq_ofGrammar_of_build h
  have hwf := Grammar.wellFormed_of_ofRules hg
  have hexact := FirstSets.exact_ofGrammar hwf
  rw [← hp]
  exact {
    wellFormed := hwf
    numbers := Grammar.numbers_of_ofRules hg
    exact := hexact
    linked := Automaton.linked_ofGrammar hwf hexact
    table_eq := rfl }

/-- A check that a build passes is passed by the parser that was built. -/
theorem exists_of_any_build {check : Parser → Bool}
    (h : (build rules start mode).toOption.any check = true) :
    ∃ p, build rules start mode = .ok p ∧ check p = true :=
  exists_ok_of_any h

/-- The paths of a canonical automaton are the strings with a valid item, and the state at the end
of a path is numbered as it is reached and holds exactly the valid items of the string. -/
theorem canonical_recognizes_valid_items (h : build rules start .canonical = .ok p)
    (γ : List SymbolId) :
    ((∃ q, p.automaton.follow? Automaton.startState γ = some q) ↔ ∃ c, ValidCore p.grammar γ c) ∧
      ∀ q, p.automaton.follow? Automaton.startState γ = some q →
        ∃ node, p.automaton.nodes[q]? = some node ∧ node.id = q ∧
          (∀ c, node.items.Has c ↔ ValidCore p.grammar γ c) ∧
          ∀ c t, node.items.Looks c t ↔ ValidItem p.grammar γ c t := by
  have hp := built_of_build h
  rcases Automaton.recognizes_follow? hp.wellFormed hp.exact hp.linked γ with
    ⟨hnone, hinvalid⟩ | ⟨q, node, hfollow, hq, hnode, hvalid⟩
  · rw [hnone]
    refine ⟨⟨fun ⟨q, hq⟩ => (by cases hq), fun ⟨c, hc⟩ => absurd hc (hinvalid c)⟩, fun q hq => ?_⟩
    cases hq
  · refine ⟨⟨fun _ => hvalid, fun _ => ⟨q, hfollow⟩⟩, fun r hr => ?_⟩
    obtain rfl := Option.some.inj (hfollow.symm.trans hr)
    exact ⟨node, hq, hp.linked.id_eq hq, hnode.has_iff, hnode.looks_iff⟩

/-- Nested pairs: `S -> a S b` and the empty rule. -/
def nested : List Rule :=
  [⟨.nonterminal "S", [.terminal "a", .nonterminal "S", .terminal "b"]⟩, ⟨.nonterminal "S", []⟩]

/-- In the grammar of nested pairs, `a S` has a path, so it has a valid item. -/
theorem canonical_recognizes_valid_items_nested :
    ∃ p, build nested (.nonterminal "S") .canonical = .ok p ∧
      ∃ c, ValidCore p.grammar [.terminal 1, .nonterminal 1] c := by
  obtain ⟨p, hp, hpath⟩ : ∃ p, build nested (.nonterminal "S") .canonical = .ok p ∧
      (p.automaton.follow? Automaton.startState [.terminal 1, .nonterminal 1]).isSome = true :=
    exists_of_any_build (by decide +kernel)
  exact ⟨p, hp, (canonical_recognizes_valid_items hp _).1.1 (Option.isSome_iff_exists.1 hpath)⟩

end Parser

end ShiftReduce
