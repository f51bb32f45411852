import ShiftReduce.ParseTable
import ShiftReduce.Proofs.Construction

/-!
# The cells of the parse table

A state offers an action for each of its edges and one for each lookahead of a completed item.
The row of the state lists the offers by symbol, in the order in which they are made, and has a
cell for each symbol of the grammar in order, also where nothing is offered.

    (ofAutomaton g a).actions q x = ((node.offers g).filter (·.1 = x)).map (·.2)
                                                                         (actions_ofAutomaton)
    … = ((node.edges.find? x).map (edgeAction x)).toList ++ node.completions g x
                                                                           (actions_eq_append)
    (ofAutomaton g a).expectedTerminals q =
      (List.range g.terminals.size).filter fun t => actions q (.terminal t) ≠ []
                                                               (expectedTerminals_ofAutomaton)
    k ∈ t.conflicts ↔ k.actions = t.actions k.state k.symbol ∧ 2 ≤ k.actions.length
                                                                            (mem_conflicts_iff)
-/

namespace ShiftReduce

variable {g : Grammar} {f : FirstSets} {mode : MergeMode} {a : Automaton}

/-! ## Offers -/

/-- The action of an edge. -/
def edgeAction : SymbolId → StateId → Action
  | .terminal _, q => .shift q
  | .nonterminal _, q => .goto q

/-- The action of a completed item. -/
def Core.completion (c : Core) : Action := if c.rule = acceptId then .accept else .reduce c.rule

/-- What a completed item offers, on each of its lookaheads. -/
def itemOffers (g : Grammar) (item : Core × TerminalSet) : List (SymbolId × Action) :=
  if item.1.isComplete g then item.2.toList.map fun t => (.terminal t, item.1.completion) else []

theorem mem_itemOffers {item : Core × TerminalSet} {x : SymbolId} {action : Action}
    (h : (x, action) ∈ itemOffers g item) :
    item.1.isComplete g = true ∧ action = item.1.completion := by
  unfold itemOffers at h
  split at h
  · next hcomplete =>
    obtain ⟨t, -, heq⟩ := List.mem_map.1 h
    exact ⟨hcomplete, (Prod.mk.inj heq).2.symm⟩
  · cases h

/-- What a state offers, in the order in which its row is filled. -/
def Node.offers (g : Grammar) (node : Node) : List (SymbolId × Action) :=
  (node.edges.entries.map fun e => (e.1, edgeAction e.1 e.2)) ++
    node.items.entries.flatMap (itemOffers g)

/-- An offer is that of an edge or that of a completed item on one of its lookaheads. -/
theorem mem_offers_iff {node : Node} {x : SymbolId} {action : Action} :
    (x, action) ∈ node.offers g ↔
      (∃ q, node.edges.find? x = some q ∧ action = edgeAction x q) ∨
      ∃ c t, x = .terminal t ∧ node.items.Looks c t ∧ c.isComplete g = true ∧
        action = c.completion := by
  unfold Node.offers
  rw [List.mem_append, List.mem_map, List.mem_flatMap]
  constructor
  · rintro (⟨⟨y, q⟩, he, heq⟩ | ⟨⟨c, lookaheads⟩, he, hmem⟩)
    · obtain ⟨rfl, rfl⟩ := Prod.mk.inj heq
      exact Or.inl ⟨q, OrderedMap.find?_eq_some_iff.2 he, rfl⟩
    · unfold itemOffers at hmem
      split at hmem
      · next hcomplete =>
        obtain ⟨t, ht, heq⟩ := List.mem_map.1 hmem
        obtain ⟨rfl, rfl⟩ := Prod.mk.inj heq
        exact Or.inr ⟨c, t, rfl, ⟨lookaheads, OrderedMap.find?_eq_some_iff.2 he, ht⟩, hcomplete, rfl⟩
      · cases hmem
  · rintro (⟨q, hq, rfl⟩ | ⟨c, t, rfl, ⟨lookaheads, hfind, ht⟩, hcomplete, rfl⟩)
    · exact Or.inl ⟨(x, q), OrderedMap.find?_eq_some_iff.1 hq, rfl⟩
    · refine Or.inr ⟨(c, lookaheads), OrderedMap.find?_eq_some_iff.1 hfind, ?_⟩
      unfold itemOffers
      rw [if_pos hcomplete]
      exact List.mem_map.2 ⟨t, ht, rfl⟩

theorem filter_entries_eq {κ ν : Type} [DecidableEq κ] (m : OrderedMap κ ν) (k : κ) :
    m.entries.filter (·.1 = k) = ((m.find? k).map fun v => (k, v)).toList := by
  obtain ⟨l, hnodup⟩ := m
  show l.filter (·.1 = k) = ((bindingOf? k l).map fun v => (k, v)).toList
  induction l with
  | nil => rfl
  | cons e l ih =>
    obtain ⟨j, v⟩ := e
    rw [List.map_cons, List.nodup_cons] at hnodup
    by_cases hj : j = k
    · subst hj
      have hrest : l.filter (·.1 = j) = [] := List.filter_eq_nil_iff.2 fun e he heq =>
        hnodup.1 (List.mem_map.2 ⟨e, he, of_decide_eq_true heq⟩)
      simp [bindingOf?, hrest]
    · simp only [bindingOf?, if_neg hj, ← ih hnodup.2]
      simp [hj]

/-- The actions of the completed items that look at a symbol, one for each item, in order. -/
def Node.completions (g : Grammar) (node : Node) : SymbolId → List Action
  | .terminal t =>
    (node.items.entries.filter fun e => e.1.isComplete g ∧ t ∈ e.2).map fun e => e.1.completion
  | .nonterminal _ => []

/-- A completed item that looks at a terminal makes one offer on it. -/
theorem filter_itemOffers_terminal (item : Core × TerminalSet) (t : TerminalId) :
    (itemOffers g item).filter (·.1 = .terminal t) =
      if item.1.isComplete g ∧ t ∈ item.2 then [(.terminal t, item.1.completion)] else [] := by
  unfold itemOffers
  by_cases hcomplete : item.1.isComplete g = true
  · have hlooks : item.2.toList.filter (fun u => decide (SymbolId.terminal u = .terminal t)) =
        List.replicate (item.2.toList.count t) t := by
      rw [← List.filter_beq]
      exact List.filter_congr fun u _ => by simp [beq_eq_decide]
    rw [if_pos hcomplete, List.filter_map]
    show (item.2.toList.filter fun u => decide (SymbolId.terminal u = .terminal t)).map _ = _
    rw [hlooks, item.2.nodup.count]
    by_cases ht : t ∈ item.2
    · rw [if_pos (OrderedSet.mem_def.1 ht), if_pos ⟨hcomplete, ht⟩]
      rfl
    · rw [if_neg fun hmem => ht (OrderedSet.mem_def.2 hmem), if_neg fun h => ht h.2]
      rfl
  · rw [if_neg hcomplete, if_neg fun h => hcomplete h.1]
    rfl

theorem filter_itemOffers_nonterminal (item : Core × TerminalSet) (n : NonterminalId) :
    (itemOffers g item).filter (·.1 = .nonterminal n) = [] := by
  refine List.filter_eq_nil_iff.2 fun e he heq => ?_
  unfold itemOffers at he
  split at he
  · obtain ⟨t, -, rfl⟩ := List.mem_map.1 he
    exact absurd (of_decide_eq_true heq) (by simp)
  · cases he

theorem flatMap_ite_singleton {α β : Type} (l : List α) (P : α → Prop) [DecidablePred P]
    (f : α → β) : l.flatMap (fun a => if P a then [f a] else []) = (l.filter P).map f := by
  induction l with
  | nil => rfl
  | cons a l ih =>
    rw [List.flatMap_cons, ih]
    by_cases ha : P a <;> simp [ha]

/-- On a symbol a state offers the action of its edge, then those of its completed items. -/
theorem map_filter_offers (node : Node) (x : SymbolId) :
    ((node.offers g).filter (·.1 = x)).map (·.2) =
      ((node.edges.find? x).map (edgeAction x)).toList ++ node.completions g x := by
  have hedges : (node.edges.entries.map fun e => (e.1, edgeAction e.1 e.2)).filter (·.1 = x) =
      (node.edges.entries.filter (·.1 = x)).map fun e => (e.1, edgeAction e.1 e.2) := by
    rw [List.filter_map]
    rfl
  unfold Node.offers
  rw [List.filter_append, List.map_append, hedges, filter_entries_eq, List.filter_flatMap]
  congr 1
  · cases node.edges.find? x <;> rfl
  · cases x with
    | terminal t =>
      simp only [filter_itemOffers_terminal, flatMap_ite_singleton, List.map_map]
      rfl
    | nonterminal n =>
      simp only [filter_itemOffers_nonterminal]
      simp [Node.completions]

/-- The completed items of one rule offer the same, those of different rules do not. -/
theorem completion_eq_iff {c d : Core} : c.completion = d.completion ↔ c.rule = d.rule := by
  unfold Core.completion
  constructor
  · intro h
    split at h <;> split at h
    · next hc hd => rw [hc, hd]
    · cases h
    · cases h
    · exact Action.reduce.inj h
  · intro h
    rw [h]

theorem nodup_itemOffers (g : Grammar) (e : Core × TerminalSet) : (itemOffers g e).Nodup := by
  unfold itemOffers
  split
  · exact e.2.nodup.map fun t t' h => SymbolId.terminal.inj (Prod.mk.inj h).1
  · exact List.nodup_nil

/-- A state offers nothing twice. -/
theorem nodup_offers {node : Node} (hrange : node.items.InRange g) : (node.offers g).Nodup := by
  have hedges : (node.edges.entries.map fun e => (e.1, edgeAction e.1 e.2)).Nodup := by
    refine List.Nodup.of_map Prod.fst ?_
    rw [List.map_map]
    exact node.edges.nodup_keys
  have hkeys : node.items.entries.Pairwise fun e e' => e.1 ≠ e'.1 :=
    List.pairwise_map.1 node.items.nodup_keys
  have hitems : (node.items.entries.flatMap (itemOffers g)).Nodup := by
    refine List.nodup_flatMap.2 ⟨fun e _ => nodup_itemOffers g e,
      hkeys.imp_of_mem fun {e e'} he he' hne => ?_⟩
    rintro ⟨x, action⟩ hx hx'
    obtain ⟨hcomplete, haction⟩ := mem_itemOffers hx
    obtain ⟨hcomplete', haction'⟩ := mem_itemOffers hx'
    exact hne (hrange.eq_of_complete (ItemSet.has_of_mem_entries he)
      (ItemSet.has_of_mem_entries he') hcomplete hcomplete'
      (completion_eq_iff.1 (haction.symm.trans haction')))
  refine List.nodup_append.2 ⟨hedges, hitems, ?_⟩
  rintro ⟨x, action⟩ hx _ hx' rfl
  obtain ⟨⟨y, q⟩, -, heq⟩ := List.mem_map.1 hx
  obtain ⟨e, -, hmem⟩ := List.mem_flatMap.1 hx'
  obtain ⟨-, haction⟩ := mem_itemOffers hmem
  obtain ⟨rfl, rfl⟩ := Prod.mk.inj heq
  unfold Core.completion at haction
  cases y <;> split at haction <;> cases haction

/-! ## Filling a row -/

namespace Row

/-- The actions in a cell; no cell, no actions. -/
def cell (row : Row) (x : SymbolId) : List Action := (row.find? x).getD []

/-- Adds each offer at the end of its cell. -/
def pushAll (row : Row) (offers : List (SymbolId × Action)) : Row :=
  offers.foldl (fun row e => row.push e.1 e.2) row

theorem ofNode_eq_pushAll (g : Grammar) (blank : Row) (node : Node) :
    ofNode g blank node = blank.pushAll (node.offers g) := by
  have hedges : ∀ row : Row, node.edges.entries.foldl pushEdge row =
      row.pushAll (node.edges.entries.map fun e => (e.1, edgeAction e.1 e.2)) := by
    intro row
    rw [pushAll, List.foldl_map]
    congr 1
    funext row e
    obtain ⟨x, q⟩ := e
    cases x <;> rfl
  have hitem : ∀ (row : Row) (item : Core × TerminalSet),
      pushItem g row item = row.pushAll (itemOffers g item) := by
    intro row item
    unfold pushItem itemOffers pushAll
    split
    · rw [List.foldl_map]
      rfl
    · rfl
  unfold ofNode Node.offers pushAll
  rw [List.foldl_append, List.foldl_flatMap, hedges]
  congr 1
  funext row item
  exact hitem row item

theorem cell_push (row : Row) (x y : SymbolId) (action : Action) :
    (row.push x action).cell y = if x = y then row.cell y ++ [action] else row.cell y := by
  unfold cell push
  rw [OrderedMap.find?_upsert]
  by_cases h : x = y
  · subst h
    simp
  · have hyx : ¬ y = x := fun e => h e.symm
    simp [h, hyx]

theorem cell_pushAll (row : Row) (offers : List (SymbolId × Action)) (x : SymbolId) :
    (row.pushAll offers).cell x = row.cell x ++ (offers.filter (·.1 = x)).map (·.2) := by
  induction offers generalizing row with
  | nil => simp [pushAll]
  | cons e offers ih =>
    have hcons : row.pushAll (e :: offers) = (row.push e.1 e.2).pushAll offers := rfl
    rw [hcons, ih, cell_push]
    by_cases h : e.1 = x <;> simp [h]

theorem keys_pushAll {row : Row} {offers : List (SymbolId × Action)}
    (h : ∀ e ∈ offers, e.1 ∈ row.keys) : (row.pushAll offers).keys = row.keys := by
  induction offers generalizing row with
  | nil => rfl
  | cons e offers ih =>
    have hcons : row.pushAll (e :: offers) = (row.push e.1 e.2).pushAll offers := rfl
    have hkeys : (row.push e.1 e.2).keys = row.keys := by
      unfold push
      rw [OrderedMap.keys_upsert, if_pos (h e List.mem_cons_self)]
    rw [hcons, ih fun e' he' => hkeys ▸ h e' (List.mem_cons_of_mem e he'), hkeys]

/-! ## The blank row -/

theorem nodup_symbolIds (g : Grammar) : g.symbolIds.Nodup := by
  unfold Grammar.symbolIds
  rw [List.nodup_append]
  refine ⟨?_, ?_, ?_⟩
  · exact List.nodup_range.map fun _ _ h => SymbolId.terminal.inj h
  · exact List.nodup_range.map fun _ _ h => SymbolId.nonterminal.inj h
  · intro x hx y hy heq
    obtain ⟨t, -, rfl⟩ := List.mem_map.1 hx
    obtain ⟨n, -, rfl⟩ := List.mem_map.1 hy
    cases heq

theorem keys_foldl_insert {l : List SymbolId} {row : Row} (h : (row.keys ++ l).Nodup) :
    (l.foldl (·.insert · []) row).keys = row.keys ++ l := by
  induction l generalizing row with
  | nil => simp
  | cons x l ih =>
    have hx : x ∉ row.keys := fun hmem =>
      (List.nodup_append.1 h).2.2 x hmem x List.mem_cons_self rfl
    have hkeys : (row.insert x []).keys = row.keys ++ [x] := by
      unfold OrderedMap.insert
      rw [OrderedMap.keys_upsert, if_neg hx]
    rw [List.foldl_cons, ih (by rw [hkeys]; simpa using h), hkeys]
    simp

theorem keys_blank (g : Grammar) : (blank g).keys = g.symbolIds := by
  have hnodup : ((OrderedMap.empty : Row).keys ++ g.symbolIds).Nodup := nodup_symbolIds g
  exact keys_foldl_insert hnodup

theorem cell_foldl_insert {l : List SymbolId} {row : Row} (h : ∀ x, row.cell x = [])
    (x : SymbolId) : (l.foldl (·.insert · []) row : Row).cell x = [] := by
  induction l generalizing row with
  | nil => exact h x
  | cons y l ih =>
    refine ih fun z => ?_
    unfold cell
    rw [OrderedMap.find?_insert]
    split
    · rfl
    · exact h z

theorem cell_blank (g : Grammar) (x : SymbolId) : (blank g).cell x = [] :=
  cell_foldl_insert (fun _ => rfl) x

/-! ## Expected terminals -/

theorem entries_eq_map (row : Row) : row.entries = row.keys.map fun x => (x, row.cell x) := by
  unfold OrderedMap.keys
  rw [List.map_map]
  conv => lhs; rw [← List.map_id row.entries]
  refine List.map_congr_left fun e he => ?_
  have hfind : row.find? e.1 = some e.2 := OrderedMap.find?_eq_some_iff.2 he
  simp [cell, hfind]

/-- The terminal of an entry whose cell offers an action. -/
def offering? : SymbolId × List Action → Option TerminalId
  | (.terminal t, _ :: _) => some t
  | _ => none

theorem expected_eq_filterMap (row : Row) : row.expected = row.entries.filterMap offering? := rfl

/-- The expected terminals of a row with a cell for each symbol are those with an action. -/
theorem expected_eq_filter {row : Row} (h : row.keys = g.symbolIds) :
    row.expected = (List.range g.terminals.size).filter fun t => row.cell (.terminal t) ≠ [] := by
  rw [expected_eq_filterMap, entries_eq_map, h, Grammar.symbolIds, List.map_append,
    List.filterMap_append, List.map_map, List.map_map, List.filterMap_map, List.filterMap_map,
    ← List.filterMap_eq_filter]
  have hterminal : ∀ t : TerminalId, offering? (.terminal t, row.cell (.terminal t)) =
      Option.guard (fun t => row.cell (.terminal t) ≠ []) t := by
    intro t
    cases hcell : row.cell (.terminal t) <;> simp [Option.guard, offering?, hcell]
  have hnonterminals : ∀ l : List NonterminalId,
      l.filterMap (fun n => offering? (.nonterminal n, row.cell (.nonterminal n))) = [] :=
    fun l => List.filterMap_eq_nil_iff.2 fun _ _ => rfl
  have hjoin := hnonterminals (List.range g.nonterminals.size)
  rw [← List.append_nil (List.filterMap (Option.guard _) _), ← hjoin]
  congr 2
  funext t
  exact hterminal t

end Row

/-! ## The table of an automaton -/

namespace ParseTable

theorem getElem?_rows {q : Nat} {node : Node} (h : a.nodes[q]? = some node) :
    (ofAutomaton g a).rows[q]? = some ((Row.blank g).pushAll (node.offers g)) := by
  unfold ofAutomaton
  simp only [Array.getElem?_map, h, Option.map_some, Row.ofNode_eq_pushAll]

/-- A cell lists what its state offers on its symbol. -/
theorem actions_ofAutomaton {q : Nat} {node : Node} (h : a.nodes[q]? = some node) (x : SymbolId) :
    (ofAutomaton g a).actions q x = ((node.offers g).filter (·.1 = x)).map (·.2) := by
  have hcell : (ofAutomaton g a).actions q x = ((Row.blank g).pushAll (node.offers g)).cell x := by
    unfold actions
    rw [getElem?_rows h]
    rfl
  rw [hcell, Row.cell_pushAll, Row.cell_blank, List.nil_append]

theorem mem_actions_iff {q : Nat} {node : Node} (h : a.nodes[q]? = some node) {x : SymbolId}
    {action : Action} : action ∈ (ofAutomaton g a).actions q x ↔
      (∃ r, node.edges.find? x = some r ∧ action = edgeAction x r) ∨
      ∃ c t, x = .terminal t ∧ node.items.Looks c t ∧ c.isComplete g = true ∧
        action = c.completion := by
  rw [actions_ofAutomaton h, ← mem_offers_iff, List.mem_map]
  constructor
  · rintro ⟨⟨y, b⟩, hfilter, rfl⟩
    obtain ⟨he, hy⟩ := List.mem_filter.1 hfilter
    obtain rfl : y = x := of_decide_eq_true hy
    exact he
  · intro he
    exact ⟨(x, action), List.mem_filter.2 ⟨he, decide_eq_true rfl⟩, rfl⟩

/-- A cell lists the action of an edge, then those of completed items. -/
theorem actions_eq_append {q : Nat} {node : Node} (h : a.nodes[q]? = some node) (x : SymbolId) :
    (ofAutomaton g a).actions q x =
      ((node.edges.find? x).map (edgeAction x)).toList ++ node.completions g x := by
  rw [actions_ofAutomaton h, map_filter_offers]

theorem actions_nonterminal {q : Nat} {node : Node} (h : a.nodes[q]? = some node)
    (n : NonterminalId) : (ofAutomaton g a).actions q (.nonterminal n) =
      ((node.edges.find? (.nonterminal n)).map Action.goto).toList := by
  rw [actions_eq_append h]
  exact List.append_nil _

/-- Only the cells of a state of the automaton have actions. -/
theorem exists_node_of_actions {q : StateId} {x : SymbolId}
    (h : (ofAutomaton g a).actions q x ≠ []) : ∃ node, a.nodes[q]? = some node := by
  by_contra hnone
  have hnode : a.nodes[q]? = none := Option.eq_none_iff_forall_ne_some.2 fun node heq =>
    hnone ⟨node, heq⟩
  refine h ?_
  simp [actions, ofAutomaton, hnode]

/-- The report of conflicts lists the cells with several actions. -/
theorem mem_conflicts_iff {t : ParseTable} {k : Conflict} : k ∈ t.conflicts ↔
    k.actions = t.actions k.state k.symbol ∧ 2 ≤ k.actions.length := by
  obtain ⟨q, x, actions⟩ := k
  unfold conflicts Row.conflicts ParseTable.actions
  constructor
  · intro h
    obtain ⟨⟨row, q'⟩, hrow, h⟩ := List.mem_flatMap.1 h
    obtain ⟨⟨y, actions'⟩, hentry, hsome⟩ := List.mem_filterMap.1 h
    rw [List.mem_zipIdx_iff_getElem?, Array.getElem?_toList] at hrow
    have hcell : row.find? y = some actions' := OrderedMap.find?_eq_some_iff.2 hentry
    simp only at hsome
    split at hsome
    · next hlong =>
      obtain ⟨rfl, rfl, rfl⟩ := Conflict.mk.inj (Option.some.inj hsome)
      refine ⟨?_, hlong⟩
      simp only [hrow, Option.bind_some, hcell, Option.getD_some]
    · cases hsome
  · rintro ⟨hactions, hlong⟩
    simp only at hactions hlong
    cases hrow : t.rows[q]? with
    | none => simp [hactions, hrow] at hlong
    | some row =>
      cases hcell : row.find? x with
      | none => simp [hactions, hrow, hcell] at hlong
      | some cell =>
        simp only [hrow, Option.bind_some, hcell, Option.getD_some] at hactions
        subst hactions
        refine List.mem_flatMap.2 ⟨(row, q), ?_, ?_⟩
        · rw [List.mem_zipIdx_iff_getElem?, Array.getElem?_toList]
          exact hrow
        · refine List.mem_filterMap.2 ⟨(x, actions), OrderedMap.find?_eq_some_iff.1 hcell, ?_⟩
          exact if_pos hlong

/-- The report lists no cell twice. -/
theorem nodup_conflicts (t : ParseTable) : t.conflicts.Nodup := by
  unfold conflicts
  rw [List.nodup_flatMap]
  constructor
  · rintro ⟨row, q⟩ -
    have hentries : row.entries.Nodup := List.Nodup.of_map _ row.nodup_keys
    refine hentries.filterMap ?_
    rintro ⟨x, actions⟩ ⟨y, actions'⟩ k hk hk'
    simp only [Option.mem_def, Option.ite_none_right_eq_some] at hk hk'
    obtain ⟨-, rfl, rfl⟩ := Conflict.mk.inj (Option.some.inj (hk.2.trans hk'.2.symm))
    rfl
  · have hplaces : (t.rows.toList.zipIdx.map Prod.snd).Nodup := by
      rw [List.zipIdx_map_snd]
      exact List.nodup_range'
    refine (List.pairwise_map.1 hplaces).imp ?_
    rintro ⟨row, q⟩ ⟨row', q'⟩ hne k hk hk'
    obtain ⟨_, -, hk⟩ := List.mem_filterMap.1 hk
    obtain ⟨_, -, hk'⟩ := List.mem_filterMap.1 hk'
    simp only [Option.ite_none_right_eq_some] at hk hk'
    obtain ⟨rfl, -, -⟩ := Conflict.mk.inj (Option.some.inj (hk.2.trans hk'.2.symm))
    exact hne rfl

theorem hasConflicts_iff {t : ParseTable} :
    t.hasConflicts = true ↔ ∃ q x, 2 ≤ (t.actions q x).length := by
  unfold hasConflicts
  rw [Bool.not_eq_true', List.isEmpty_eq_false_iff_exists_mem]
  constructor
  · rintro ⟨⟨q, x, actions⟩, hmem⟩
    obtain ⟨hactions, hlong⟩ := mem_conflicts_iff.1 hmem
    exact ⟨q, x, hactions ▸ hlong⟩
  · rintro ⟨q, x, hlong⟩
    exact ⟨⟨q, x, t.actions q x⟩, mem_conflicts_iff.2 ⟨rfl, hlong⟩⟩

/-- Without a conflict no cell holds two actions. -/
theorem length_actions_le_of_hasConflicts {t : ParseTable} (h : t.hasConflicts = false)
    (q : StateId) (x : SymbolId) : (t.actions q x).length ≤ 1 := by
  by_contra hlong
  have hconflict : t.hasConflicts = true := hasConflicts_iff.2 ⟨q, x, by omega⟩
  exact absurd (h.symm.trans hconflict) Bool.false_ne_true

section Linked

variable (hg : g.WellFormed) (hf : f.Exact g) (ha : a.Linked g f mode)
include hg hf ha

/-- No cell lists an action twice. -/
theorem nodup_actions {q : Nat} {node : Node} (h : a.nodes[q]? = some node) (x : SymbolId) :
    ((ofAutomaton g a).actions q x).Nodup := by
  rw [actions_ofAutomaton h]
  refine ((nodup_offers (ha.inRange_items hg hf h)).filter _).map_on fun e he e' he' heq => ?_
  have hx : e.1 = x := of_decide_eq_true (List.mem_filter.1 he).2
  have hx' : e'.1 = x := of_decide_eq_true (List.mem_filter.1 he').2
  exact Prod.ext (hx.trans hx'.symm) heq

/-- Every symbol with an offer is in the grammar. -/
theorem mem_symbolIds_of_mem_offers {q : Nat} {node : Node} (h : a.nodes[q]? = some node)
    {e : SymbolId × Action} (he : e ∈ node.offers g) : e.1 ∈ g.symbolIds := by
  obtain ⟨x, action⟩ := e
  have hrange := ha.inRange_items hg hf h
  have hx : g.Has x := by
    rcases mem_offers_iff.1 he with ⟨r, hr, -⟩ | ⟨c, t, rfl, hlooks, -, -⟩
    · have hleads := ha.leads h x
      cases hfind : (transitions g node.items).find? x with
      | none =>
        rw [hfind] at hleads
        cases hr.symm.trans hleads
      | some kernel =>
        by_contra hnot
        have hnone : (transitions g node.items).find? x = none :=
          find?_transitions_eq_none_iff.2 fun c _ hnext =>
            hnot (hg.has_of_mem_right_id (List.mem_of_getElem? hnext))
        cases hfind.symm.trans hnone
    · exact hrange.lookahead_lt hlooks
  exact Grammar.mem_symbolIds_iff.2 hx

/-- The row of a state has one cell for each symbol of the grammar. -/
theorem keys_row {q : Nat} {node : Node} (h : a.nodes[q]? = some node) :
    ((Row.blank g).pushAll (node.offers g)).keys = g.symbolIds := by
  rw [Row.keys_pushAll, Row.keys_blank]
  intro e he
  rw [Row.keys_blank]
  exact mem_symbolIds_of_mem_offers hg hf ha h he

/-- The terminals that a state expects are those on which it has an action, in order. -/
theorem expectedTerminals_ofAutomaton {q : Nat} {node : Node} (h : a.nodes[q]? = some node) :
    (ofAutomaton g a).expectedTerminals q = (List.range g.terminals.size).filter fun t =>
      (ofAutomaton g a).actions q (.terminal t) ≠ [] := by
  unfold expectedTerminals actions
  rw [getElem?_rows h]
  exact Row.expected_eq_filter (keys_row hg hf ha h)

end Linked

end ParseTable

end ShiftReduce
