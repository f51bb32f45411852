import ShiftReduce.Proofs.Cells
import ShiftReduce.Proofs.Contexts
import ShiftReduce.Proofs.Generation

/-!
# Edges in either mode

An edge leads to a state that has the items before its symbol, advanced, with just their
lookaheads; in superset mode the state may have others as well.  So along any path an item that is
carried over is never lost and never gains a lookahead.  A state that `Covers` a string has all
items that are valid for it, and covering goes on along edges: in either mode a state reached along
a string offers all that the valid items of the string ask for, and in superset mode maybe more.

    a.edge? q x = some r → node.items.Has c → c.next? g = some x →
      next.items.Has c.advance ∧ ∀ t, next.items.Looks c.advance t ↔ node.items.Looks c t
                                                                          (Linked.carries)
    a.follow? q δ = some r → Covers g γ node.items → ∃ next, … ∧ Covers g (γ ++ δ) next.items
                                                                   (Linked.covers_follow?)
-/

namespace ShiftReduce

variable {g : Grammar} {f : FirstSets} {mode : MergeMode} {a : Automaton} {γ δ : List SymbolId}

/-- The item set has all items that are valid for the string. -/
structure Covers (g : Grammar) (γ : List SymbolId) (items : ItemSet) : Prop where
  has : ∀ {c}, ValidCore g γ c → items.Has c
  looks : ∀ {c t}, ValidItem g γ c t → items.Looks c t

theorem Recognizes.covers {items : ItemSet} (h : Recognizes g γ items) : Covers g γ items :=
  ⟨fun hc => (h.has_iff _).2 hc, fun hc => (h.looks_iff _ _).2 hc⟩

namespace Automaton

section Linked

variable (hg : g.WellFormed) (hf : f.Exact g) (ha : a.Linked g f mode) {q r : Nat}
  {node next : Node} {x : SymbolId}

/-! ## Items of a state -/

section Closed

include hg hf ha

theorem Linked.has_start (hq : a.nodes[q]? = some node) {c : Core} {p : Production}
    (hc : node.items.Has c) (hnext : c.next? g = some (.nonterminal p.left))
    (hp : p ∈ g.productions) : node.items.Has (Core.start p.id) := by
  rw [ha.items_eq hq, has_closure_iff hg hf] at hc ⊢
  exact .expand hc hnext hp

theorem Linked.looks_first (hq : a.nodes[q]? = some node) {c : Core} {p : Production} {t : TerminalId}
    (hc : node.items.Has c) (hnext : c.next? g = some (.nonterminal p.left))
    (hp : p ∈ g.productions) (hbegins : Begins g.HasRule (c.rest g) (.terminal t)) :
    node.items.Looks (Core.start p.id) t := by
  rw [ha.items_eq hq, has_closure_iff hg hf] at hc
  rw [ha.items_eq hq, looks_closure_iff hg hf]
  exact .first hc hnext hp hbegins

theorem Linked.looks_inherit (hq : a.nodes[q]? = some node) {c : Core} {p : Production}
    {t : TerminalId} (hc : node.items.Looks c t) (hnext : c.next? g = some (.nonterminal p.left))
    (hp : p ∈ g.productions) (hnil : Derives g.HasRule (c.rest g) []) :
    node.items.Looks (Core.start p.id) t := by
  rw [ha.items_eq hq, looks_closure_iff hg hf] at hc ⊢
  exact .inherit hc hnext hp hnil

/-- A completed item of a state is that of a rule, with the marker at its end. -/
theorem Linked.exists_rule_of_complete (hq : a.nodes[q]? = some node) {c : Core}
    (hc : node.items.Has c) (hcomplete : c.isComplete g = true) :
    ∃ rule ∈ g.productions, c = ⟨rule.id, rule.right.length⟩ := by
  have hrange := ha.inRange_items hg hf hq
  have hrule := Array.getElem?_eq_getElem (hrange.rule_lt hc)
  have hmarker := hrange.marker_eq hc hcomplete
  refine ⟨_, Array.getElem_mem (hrange.rule_lt hc), ?_⟩
  rw [hg.id_eq hrule, ← Grammar.right_eq hrule, ← hmarker]

end Closed

/-! ## Edges -/

section Edges

include ha

/-- An edge leads to a state whose kernel matches the transition. -/
theorem Linked.exists_next (hq : a.nodes[q]? = some node) (hedge : a.edge? q x = some r) :
    ∃ next kernel, a.nodes[r]? = some next ∧ (transitions g node.items).find? x = some kernel ∧
      mode.Matches next.kernel kernel := by
  have hleads := ha.leads hq x
  rw [edge?_eq hq] at hedge
  cases hx : (transitions g node.items).find? x with
  | none =>
    rw [hx] at hleads
    cases hedge.symm.trans hleads
  | some kernel =>
    rw [hx] at hleads
    obtain ⟨target, found, htarget, hfound, hmatches⟩ := hleads
    obtain rfl := Option.some.inj (htarget.symm.trans hedge)
    obtain ⟨next, hnext, rfl⟩ := exists_node_of_kernel? hfound
    exact ⟨next, kernel, hnext, rfl, hmatches⟩

/-- A state has an edge on a symbol when an item stands before the symbol. -/
theorem Linked.exists_edge_iff (hq : a.nodes[q]? = some node) :
    (∃ r, a.edge? q x = some r) ↔ ∃ c, node.items.Has c ∧ c.next? g = some x := by
  have hleads := ha.leads hq x
  rw [edge?_eq hq]
  cases hx : (transitions g node.items).find? x with
  | none =>
    rw [hx] at hleads
    rw [hleads]
    constructor
    · rintro ⟨r, hr⟩
      cases hr
    · rintro ⟨c, hc, hnext⟩
      exact absurd hnext (find?_transitions_eq_none_iff.1 hx c hc)
  | some kernel =>
    rw [hx] at hleads
    obtain ⟨target, -, htarget, -, -⟩ := hleads
    obtain ⟨c, hc⟩ := exists_has_of_transitions hx
    obtain ⟨d, -, hnext, hd⟩ := (has_of_transitions hx).1 hc
    exact ⟨fun _ => ⟨d, hd, hnext⟩, fun _ => ⟨target, htarget⟩⟩

theorem Linked.exists_node_of_follow? (hq : a.nodes[q]? = some node)
    (hfollow : a.follow? q δ = some r) : ∃ next, a.nodes[r]? = some next := by
  induction δ generalizing q node with
  | nil =>
    obtain rfl := Option.some.inj hfollow
    exact ⟨node, hq⟩
  | cons x δ ih =>
    obtain ⟨s, hedge, hfollow⟩ := Option.bind_eq_some_iff.1 hfollow
    obtain ⟨next, -, hs, -, -⟩ := ha.exists_next hq hedge
    exact ih hs hfollow

theorem Linked.exists_node (hfollow : a.follow? startState γ = some q) :
    ∃ node, a.nodes[q]? = some node := by
  obtain ⟨node, hnode, -⟩ := exists_node_of_kernel? ha.start
  exact ha.exists_node_of_follow? hnode hfollow

/-- The end of input stands after no marker, so no edge is on it. -/
theorem Linked.edge?_end (hg : g.WellFormed) (hq : a.nodes[q]? = some node) :
    a.edge? q (.terminal endOfInputId) = none := by
  cases hedge : a.edge? q (.terminal endOfInputId) with
  | none => rfl
  | some r =>
    obtain ⟨c, -, hnext⟩ := (ha.exists_edge_iff hq).1 ⟨r, hedge⟩
    exact absurd (List.mem_of_getElem? hnext) (hg.end_not_mem_right_id _)

/-- The kernel that an edge leads to takes over the items before the symbol of the edge, with just
their lookaheads. -/
theorem Linked.kernel_carries (hq : a.nodes[q]? = some node) (hr : a.nodes[r]? = some next)
    (hedge : a.edge? q x = some r) {c : Core} (hc : node.items.Has c) (hx : c.next? g = some x) :
    next.kernel.Has c.advance ∧ ∀ t, next.kernel.Looks c.advance t ↔ node.items.Looks c t := by
  obtain ⟨next', kernel, hr', htransition, hmatches⟩ := ha.exists_next hq hedge
  obtain rfl := Option.some.inj (hr'.symm.trans hr)
  have hkernel : kernel.Has c.advance := (has_of_transitions htransition).2 ⟨c, rfl, hx, hc⟩
  obtain ⟨hhas, hlooks⟩ := ItemSet.contains_iff.1 hmatches.contains c.advance hkernel
  refine ⟨hhas, fun t => (hlooks t).trans ?_⟩
  rw [looks_of_transitions htransition]
  constructor
  · rintro ⟨d, hd, -, hlook⟩
    rwa [Core.advance_injective hd]
  · intro hlook
    exact ⟨c, rfl, hx, hlook⟩

end Edges

section Carrying

include hg hf ha

/-- An edge carries the items before its symbol over, with just their lookaheads. -/
theorem Linked.carries (hq : a.nodes[q]? = some node) (hr : a.nodes[r]? = some next)
    (hedge : a.edge? q x = some r) {c : Core} (hc : node.items.Has c) (hx : c.next? g = some x) :
    next.items.Has c.advance ∧ ∀ t, next.items.Looks c.advance t ↔ node.items.Looks c t := by
  obtain ⟨hhas, hlooks⟩ := ha.kernel_carries hq hr hedge hc hx
  rw [ha.items_eq hr]
  constructor
  · exact (has_closure_iff hg hf).2 (.base hhas)
  · intro t
    rw [looks_closure_iff hg hf, ← hlooks t]
    exact ⟨fun hlook => hlook.looks_of_marker_pos (Nat.succ_pos _), .base⟩

/-- Along a path that goes on as its rule does, an item is carried over with just its lookaheads. -/
theorem Linked.carries_follow? (hq : a.nodes[q]? = some node) (hr : a.nodes[r]? = some next)
    (hfollow : a.follow? q δ = some r) {c : Core} (hc : node.items.Has c) {after : List SymbolId}
    (hδ : (g.right c.rule).drop c.marker = δ ++ after) :
    next.items.Has ⟨c.rule, c.marker + δ.length⟩ ∧
      ∀ t, next.items.Looks ⟨c.rule, c.marker + δ.length⟩ t ↔ node.items.Looks c t := by
  induction δ generalizing q node c with
  | nil =>
    obtain rfl := Option.some.inj hfollow
    obtain rfl := Option.some.inj (hq.symm.trans hr)
    exact ⟨hc, fun _ => Iff.rfl⟩
  | cons x δ ih =>
    obtain ⟨s, hedge, hfollow⟩ := Option.bind_eq_some_iff.1 hfollow
    obtain ⟨mid, -, hmid, -, -⟩ := ha.exists_next hq hedge
    obtain ⟨hx, hrest⟩ := Core.next?_of_drop hδ
    obtain ⟨hhas, hlooks⟩ := ha.carries hg hf hq hmid hedge hc hx
    obtain ⟨hhas', hlooks'⟩ := ih hmid hfollow hhas hrest
    have hmarker : (⟨c.advance.rule, c.advance.marker + δ.length⟩ : Core) =
        ⟨c.rule, c.marker + (x :: δ).length⟩ := by
      rw [List.length_cons, Nat.add_comm δ.length 1, ← Nat.add_assoc]
      rfl
    rw [← hmarker]
    exact ⟨hhas', fun t => (hlooks' t).trans (hlooks t)⟩

/-- The string of a state ends in the symbol of every edge into the state. -/
theorem Linked.exists_eq_concat (hq : a.nodes[q]? = some node) (hr : a.nodes[r]? = some next)
    (hedge : a.edge? q x = some r) (hδ : Recognizes g δ next.items) : ∃ ε, δ = ε ++ [x] := by
  obtain ⟨c, hc, hx⟩ := (ha.exists_edge_iff hq).1 ⟨r, hedge⟩
  have hvalid := (hδ.has_iff _).1 (ha.carries hg hf hq hr hedge hc hx).1
  obtain ⟨β, rfl, -⟩ := hvalid.exists_before
  exact ⟨β ++ (g.right c.rule).take c.marker, by rw [Core.take_advance hx, List.append_assoc]⟩

/-- A completed item of the state at the end of a path has the last symbol of the path before its
marker, though in superset mode perhaps not the symbols before that. -/
theorem Linked.getLast?_right (hpath : a.follow? startState γ = some q)
    (hq : a.nodes[q]? = some node) (hvalid : Recognizes g δ node.items) {c : Core}
    (hc : node.items.Has c) (hcomplete : c.isComplete g = true) (hpos : g.right c.rule ≠ [])
    (hγ : γ ≠ []) : (g.right c.rule).getLast? = γ.getLast? := by
  obtain ⟨γ, x, rfl⟩ := (List.eq_nil_or_concat γ).resolve_left hγ
  rw [List.concat_eq_append] at hpath ⊢
  rw [follow?_concat] at hpath
  obtain ⟨r, hr, hedge⟩ := Option.bind_eq_some_iff.1 hpath
  obtain ⟨below, hbelow⟩ := ha.exists_node hr
  obtain ⟨ε, rfl⟩ := ha.exists_eq_concat hg hf hbelow hq hedge hvalid
  obtain ⟨β, hβ, -⟩ := ((hvalid.has_iff c).1 hc).exists_before_right hcomplete
  have hlast := congrArg List.getLast? hβ
  rw [List.getLast?_append_of_ne_nil _ hpos] at hlast
  rw [← hlast, List.getLast?_concat, List.getLast?_concat]

/-! ## Covering -/

variable (hq : a.nodes[q]? = some node) (hr : a.nodes[r]? = some next)
  (hedge : a.edge? q x = some r) (h : Covers g γ node.items)
include hq hr hedge h

theorem Linked.has_of_validCore {c : Core} (hc : ValidCore g (γ ++ [x]) c) : next.items.Has c := by
  generalize hγ : γ ++ [x] = γ' at hc
  induction hc with
  | start => exact absurd hγ (by simp)
  | expand _ hnext hp ih => exact ha.has_start hg hf hr (ih hγ) hnext hp
  | advance hd hnext _ =>
    obtain ⟨rfl, hx⟩ := List.append_inj' hγ rfl
    obtain rfl := List.singleton_inj.1 hx
    exact (ha.carries hg hf hq hr hedge (h.has hd) hnext).1

theorem Linked.looks_of_validItem {c : Core} {t : TerminalId} (hc : ValidItem g (γ ++ [x]) c t) :
    next.items.Looks c t := by
  generalize hγ : γ ++ [x] = γ' at hc
  induction hc with
  | start => exact absurd hγ (by simp)
  | first hd hnext hp hbegins =>
    rw [← hγ] at hd
    exact ha.looks_first hg hf hr (ha.has_of_validCore hg hf hq hr hedge h hd) hnext hp hbegins
  | inherit _ hnext hp hnil ih => exact ha.looks_inherit hg hf hr (ih hγ) hnext hp hnil
  | advance hd hnext _ =>
    obtain ⟨rfl, hx⟩ := List.append_inj' hγ rfl
    obtain rfl := List.singleton_inj.1 hx
    have hcarried := ha.carries hg hf hq hr hedge (h.has hd.validCore) hnext
    exact (hcarried.2 _).2 (h.looks hd)

/-- Covering goes on along an edge. -/
theorem Linked.covers_edge : Covers g (γ ++ [x]) next.items :=
  ⟨ha.has_of_validCore hg hf hq hr hedge h, ha.looks_of_validItem hg hf hq hr hedge h⟩

omit hr hedge in
theorem Linked.covers_follow? (hfollow : a.follow? q δ = some r) :
    ∃ next, a.nodes[r]? = some next ∧ Covers g (γ ++ δ) next.items := by
  induction δ generalizing q node γ with
  | nil =>
    obtain rfl := Option.some.inj hfollow
    rw [List.append_nil]
    exact ⟨node, hq, h⟩
  | cons x δ ih =>
    obtain ⟨s, hs, hfollow⟩ := Option.bind_eq_some_iff.1 hfollow
    obtain ⟨mid, -, hmid, -, -⟩ := ha.exists_next hq hs
    have hcovers := ih hmid (ha.covers_edge hg hf hq hmid hs h) hfollow
    rwa [List.append_assoc, List.singleton_append] at hcovers

end Carrying

section Paths

include hg hf ha

/-- The state at the end of a path covers the string of the path. -/
theorem Linked.covers (hfollow : a.follow? startState γ = some q) :
    ∃ node, a.nodes[q]? = some node ∧ Covers g γ node.items := by
  obtain ⟨node, hnode, hkernel⟩ := exists_node_of_kernel? ha.start
  have hstart : Covers g [] node.items := by
    rw [ha.items_eq hnode, hkernel]
    exact (seeds_startKernel.recognizes hg hf).covers
  exact ha.covers_follow? hg hf hnode hstart hfollow

/-- In either mode a string with a valid item labels a path. -/
theorem Linked.exists_follow? {c : Core} (hc : ValidCore g γ c) :
    ∃ q, a.follow? startState γ = some q := by
  induction γ using List.reverseRecOn generalizing c with
  | nil => exact ⟨startState, rfl⟩
  | append_singleton γ x ih =>
    obtain ⟨d, hd, hnext⟩ := hc.exists_next
    obtain ⟨q, hq⟩ := ih hd
    obtain ⟨node, hnode, hcovers⟩ := ha.covers hg hf hq
    obtain ⟨r, hedge⟩ := (ha.exists_edge_iff hnode).2 ⟨d, hcovers.has hd, hnext⟩
    exact ⟨r, by rw [follow?_concat, hq, Option.bind_some, hedge]⟩

end Paths

end Linked

/-! ## States that hold the valid items of a string -/

/-- The state at the end of every path holds the valid items of some string, though in superset mode
not always of the string of the path. -/
def Faithful (g : Grammar) (a : Automaton) : Prop :=
  ∀ (γ : List SymbolId) (q : Nat) (node : Node), a.follow? startState γ = some q →
    a.nodes[q]? = some node → ∃ δ, Recognizes g δ node.items

theorem Recognizing.faithful (ha : a.Recognizing g) : a.Faithful g := by
  intro γ q node _ hnode
  obtain ⟨δ, hδ, -⟩ := ha q node hnode
  exact ⟨δ, hδ⟩

theorem Linked.faithful (hg : g.WellFormed) (hf : f.Exact g) (ha : a.Linked g f .canonical) :
    a.Faithful g := by
  intro γ q node hq hnode
  obtain ⟨node', hnode', hvalid⟩ := Automaton.exists_node_of_follow? hg hf ha hq
  obtain rfl := Option.some.inj (hnode'.symm.trans hnode)
  exact ⟨γ, hvalid⟩

end Automaton

/-! ## Offers of a state -/

namespace Parser

section Offers

variable {rules : List Rule} {start : Symbol} {p : Parser} (hp : p.Built rules start mode) {q : Nat}
  {node : Node}
include hp

/-- Only the cells of a state have actions. -/
theorem exists_node_of_actions {x : SymbolId} (h : p.table.actions q x ≠ []) :
    ∃ node, p.automaton.nodes[q]? = some node := by
  rw [hp.table_eq] at h
  exact ParseTable.exists_node_of_actions h

theorem nodup_actions (q : StateId) (x : SymbolId) : (p.table.actions q x).Nodup := by
  by_cases hempty : p.table.actions q x = []
  · rw [hempty]
    exact List.nodup_nil
  · obtain ⟨node, hq⟩ := exists_node_of_actions hp hempty
    rw [hp.table_eq]
    exact ParseTable.nodup_actions hp.wellFormed hp.exact hp.linked hq x

variable (hq : p.automaton.nodes[q]? = some node)
include hq

theorem mem_actions_iff {x : SymbolId} {action : Action} : action ∈ p.table.actions q x ↔
    (∃ r, p.automaton.edge? q x = some r ∧ action = edgeAction x r) ∨
      ∃ c t, x = .terminal t ∧ node.items.Looks c t ∧ c.isComplete p.grammar = true ∧
        action = c.completion := by
  rw [hp.table_eq, ParseTable.mem_actions_iff hq, Automaton.edge?_eq hq]

theorem actions_nonterminal {n : NonterminalId} : p.table.actions q (.nonterminal n) =
    ((p.automaton.edge? q (.nonterminal n)).map Action.goto).toList := by
  rw [hp.table_eq, ParseTable.actions_nonterminal hq, Automaton.edge?_eq hq]

variable {x : TerminalId}

/-- A rule is reduced for its completed item. -/
theorem looks_of_reduce {rule : Production} (hrule : rule ∈ p.grammar.productions)
    (h : Action.reduce rule.id ∈ p.table.actions q (.terminal x)) :
    node.items.Looks ⟨rule.id, rule.right.length⟩ x := by
  rcases (mem_actions_iff hp hq).1 h with ⟨r, -, heq⟩ | ⟨c, y, hy, hlooks, hcomplete, heq⟩
  · cases heq
  · obtain rfl := SymbolId.terminal.inj hy
    obtain ⟨rule', hrule', rfl⟩ := hp.linked.exists_rule_of_complete hp.wellFormed hp.exact hq
      hlooks.has hcomplete
    unfold Core.completion at heq
    split at heq
    · cases heq
    · obtain rfl := hp.wellFormed.eq_of_id_eq hrule hrule' (Action.reduce.inj heq)
      exact hlooks

/-- A state that covers a string offers the action that a string fitting it dictates. -/
theorem dictated_offer (hcovers : Covers p.grammar γ node.items) {m : Nat} {v : List SymbolId}
    (h : Fits p.grammar m γ (.terminal x :: v)) :
    (∃ r, Action.shift r ∈ p.table.actions q (.terminal x) ∧
      Fits p.grammar m (γ ++ [.terminal x]) v) ∨
    (∃ rule ∈ p.grammar.productions, rule.id ≠ acceptId ∧
      Action.reduce rule.id ∈ p.table.actions q (.terminal x) ∧
      ∃ β m', γ = β ++ rule.right ∧ m = m' + 1 ∧
        Fits p.grammar m' (β ++ [.nonterminal rule.left]) (.terminal x :: v)) ∨
    Action.accept ∈ p.table.actions q (.terminal x) := by
  have hg := hp.wellFormed
  rcases h.dictates hg with ⟨c, hc, hnext, hfits⟩ | ⟨rule, hrule, hne, hitem, β, m', hγ, hm, hfits⟩ |
    ⟨c, hitem, hcomplete, hrule⟩
  · obtain ⟨r, hedge⟩ := (hp.linked.exists_edge_iff hq).2 ⟨c, hcovers.has hc, hnext⟩
    exact Or.inl ⟨r, (mem_actions_iff hp hq).2 (Or.inl ⟨r, hedge, rfl⟩), hfits⟩
  · refine Or.inr (Or.inl ⟨rule, hrule, hne, ?_, β, m', hγ, hm, hfits⟩)
    refine (mem_actions_iff hp hq).2
      (Or.inr ⟨_, x, rfl, hcovers.looks hitem, hg.isComplete_end hrule, ?_⟩)
    exact (if_neg hne).symm
  · refine Or.inr (Or.inr ?_)
    refine (mem_actions_iff hp hq).2 (Or.inr ⟨c, x, rfl, hcovers.looks hitem, hcomplete, ?_⟩)
    exact (if_pos hrule).symm

/-- A state offers an action only on terminals that some string fitting it begins with. -/
theorem exists_fits_of_actions (hvalid : Recognizes p.grammar γ node.items)
    (hne : p.table.actions q (.terminal x) ≠ []) :
    ∃ m v, Fits p.grammar m γ (.terminal x :: v) := by
  obtain ⟨action, hmem⟩ := List.exists_mem_of_ne_nil _ hne
  rcases (mem_actions_iff hp hq).1 hmem with ⟨r, hedge, -⟩ | ⟨c, y, hy, hlooks, hcomplete, -⟩
  · obtain ⟨c, hc, hnext⟩ := (hp.linked.exists_edge_iff hq).1 ⟨r, hedge⟩
    exact ((hvalid.has_iff c).1 hc).exists_fits hnext
  · obtain rfl := SymbolId.terminal.inj hy
    exact ((hvalid.looks_iff c x).1 hlooks).exists_fits_of_complete hcomplete

end Offers

end Parser

end ShiftReduce
