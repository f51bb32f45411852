import ShiftReduce.Proofs.Edges

/-!
# Breadth-first numbers

States are expanded in the order of their numbers, and a state that is created gets the next one.
So a state other than the first was created for a transition of a state before it, its origin, and
no state before the origin leads to it or to any state behind it.  Hence a path of `n` edges ends
in no state that was created after more than `n` transitions in a row.  Each of these advanced the
items by one symbol: no marker of a state is beyond the length of any path into the state, in
superset mode too, where the path need not be labelled with the symbols before the marker.

    Breadth g f (ofGrammar g f mode).nodes.toList                           (breadth_ofGrammar)
    a.follow? startState γ = some q → node.items.Has c → c.marker ≤ γ.length      (marker_le)
-/

namespace ShiftReduce

variable {g : Grammar} {f : FirstSets} {mode : MergeMode}

/-! ## Origins -/

/-- The state `s` was created for a transition of the state `r`, and no state before `r` leads to `s`
or to a state behind it. -/
structure Origin (g : Grammar) (f : FirstSets) (nodes : List Node) (s r : Nat) : Prop where
  lt : r < s
  created : ∃ (parent node : Node) (x : SymbolId), nodes[r]? = some parent ∧
    nodes[s]? = some node ∧ parent.edges.find? x = some s ∧
    (transitions g (closure g f parent.kernel)).find? x = some node.kernel
  first : ∀ {i t : Nat} {node : Node} {x : SymbolId}, nodes[i]? = some node →
    node.edges.find? x = some t → s ≤ t → r ≤ i

/-- Every state but the first has an origin. -/
def Breadth (g : Grammar) (f : FirstSets) (nodes : List Node) : Prop :=
  ∀ s, 0 < s → s < nodes.length → ∃ r, Origin g f nodes s r

namespace Construction

variable {c d : Construction}

theorem kernel?_isSome_iff {i : StateId} :
    (∃ kernel, c.kernel? i = some kernel) ↔ i < c.allNodes.length := by
  simp only [kernel?, Option.map_eq_some_iff, List.getElem?_eq_some_iff]
  constructor
  · rintro ⟨_, _, ⟨hi, -⟩, -⟩
    exact hi
  · intro hi
    exact ⟨_, _, ⟨hi, rfl⟩, rfl⟩

/-- Every state that is created while transitions are linked has the kernel of one of them, which is
linked to it. -/
theorem exists_transition_of_created (mode : MergeMode) (hg : g.WellFormed) (hf : f.Exact g)
    {l : List (SymbolId × ItemSet)} (hnodup : (l.map Prod.fst).Nodup)
    (hl : ∀ e ∈ l, e.2.Advanced ∧ e.2.InRange g) (hc : c.Numbered g f)
    (edges : OrderedMap SymbolId StateId) {s : StateId} (hs : c.allNodes.length ≤ s)
    (hlt : s < (l.foldl (link mode) (c, edges)).1.allNodes.length) :
    ∃ e ∈ l, (l.foldl (link mode) (c, edges)).2.find? e.1 = some s ∧
      (l.foldl (link mode) (c, edges)).1.kernel? s = some e.2 := by
  induction l generalizing c edges with
  | nil => exact absurd hlt (Nat.not_lt.2 hs)
  | cons e l ih =>
    obtain ⟨x, kernel⟩ := e
    rw [List.map_cons, List.nodup_cons] at hnodup
    obtain ⟨hkernel, hrange⟩ := hl (x, kernel) List.mem_cons_self
    have hl' : ∀ e ∈ l, e.2.Advanced ∧ e.2.InRange g := fun e he => hl e (List.mem_cons_of_mem _ he)
    obtain ⟨hc', -, -⟩ := link_spec mode hg hf hc hkernel hrange edges x
    rw [List.foldl_cons] at hlt ⊢
    have hbehind := ih hnodup.2 hl' hc' (link mode (c, edges) (x, kernel)).2
    cases hfind : c.findNode mode kernel with
    | some target =>
      have hlink : link mode (c, edges) (x, kernel) = (c, edges.insert x target) := by
        simp [link, hfind]
      rw [hlink] at hbehind hlt ⊢
      obtain ⟨e, he, hedge, hfound⟩ := hbehind hs hlt
      exact ⟨e, List.mem_cons_of_mem _ he, hedge, hfound⟩
    | none =>
      have hlink : link mode (c, edges) (x, kernel) =
          ((c.create kernel).1, edges.insert x c.allNodes.length) := by
        simp [link, hfind, create_snd]
      rw [hlink] at hbehind hlt hc' ⊢
      rcases Nat.eq_or_lt_of_le hs with rfl | hs
      · -- The state was created here, and the transitions that follow leave its edge alone.
        obtain ⟨-, hgrows, hother, -⟩ := foldl_link mode hg hf hnodup.2 hl' hc'
          (edges.insert x c.allNodes.length)
        refine ⟨(x, kernel), List.mem_cons_self, ?_, hgrows.kernel? ?_⟩
        · rw [hother x hnodup.1, OrderedMap.find?_insert, if_pos rfl]
        · rw [kernel?_create, if_pos rfl]
      · have hlength : (c.create kernel).1.allNodes.length ≤ s := by
          rw [allNodes_create, List.length_append, List.length_singleton]
          exact hs
        obtain ⟨e, he, hedge, hfound⟩ := hbehind hlength hlt
        exact ⟨e, List.mem_cons_of_mem _ he, hedge, hfound⟩

/-- Only states that have been expanded have edges. -/
theorem Progress.lt_of_edge {k : Nat} (hc : c.Progress g f mode k) {i : Nat} {node : Node}
    (hnode : c.allNodes[i]? = some node) {x : SymbolId} {t : StateId}
    (hedge : node.edges.find? x = some t) : i < k := by
  by_contra hle
  rw [hc.unclosed (Nat.le_of_not_lt hle) hnode] at hedge
  cases hedge

/-- Edges lead to states that are there. -/
theorem Progress.target_lt {k : Nat} (hc : c.Progress g f mode k) {i : Nat} {node : Node}
    (hnode : c.allNodes[i]? = some node) {x : SymbolId} {t : StateId}
    (hedge : node.edges.find? x = some t) : t < c.allNodes.length := by
  have hleads := hc.leads (hc.lt_of_edge hnode hedge) hnode x
  cases hx : (transitions g node.items).find? x with
  | none =>
    rw [hx] at hleads
    cases hedge.symm.trans hleads
  | some kernel =>
    rw [hx] at hleads
    obtain ⟨target, found, htarget, hfound, -⟩ := hleads
    obtain rfl := Option.some.inj (htarget.symm.trans hedge)
    exact kernel?_isSome_iff.1 ⟨found, hfound⟩

/-- What the expansion of the state `k` does: the other states stay, and for each new state the state
`k` has an edge to it, on the symbol of the transition that it was created for. -/
structure Expands (g : Grammar) (f : FirstSets) (c : Construction) (k : Nat) (d : Construction) :
    Prop where
  keeps : ∀ {i : Nat} {node : Node}, i ≠ k → c.allNodes[i]? = some node → d.allNodes[i]? = some node
  before : ∀ {i : Nat} {node : Node}, i < k → d.allNodes[i]? = some node → c.allNodes[i]? = some node
  kernel? : ∀ {i : StateId} {kernel : ItemSet}, c.kernel? i = some kernel → d.kernel? i = some kernel
  created : ∀ {s : Nat}, c.allNodes.length ≤ s → s < d.allNodes.length →
    ∃ (parent node : Node) (x : SymbolId), d.allNodes[k]? = some parent ∧
      d.allNodes[s]? = some node ∧ parent.edges.find? x = some s ∧
      (transitions g (closure g f parent.kernel)).find? x = some node.kernel

section Expanding

variable (hg : g.WellFormed) (hf : f.Exact g)
include hg hf

theorem Progress.expands {k : Nat} (hc : c.Progress g f mode k) (hk : k < c.nodes.size) :
    Expands g f c k (Construction.expand g f mode c k) := by
  have hmine := getElem?_allNodes_eq_some hk
  have hitems := hc.items_eq_kernel hmine
  have hrange := hc.inRange_closure hg hf hk
  have hentries : ∀ e ∈ (transitions g (closure g f c.nodes[k].items)).entries,
      e.2.Advanced ∧ e.2.InRange g := by
    rintro ⟨x, kernel⟩ he
    have hx := OrderedMap.find?_eq_some_iff.2 he
    exact ⟨ItemSet.advanced_of_transitions hx, ItemSet.inRange_of_transitions hrange hx⟩
  obtain ⟨-, hgrows, -⟩ := foldl_link_transitions mode hg hf (hc.numbered_close hk) hrange
  have hcreated := fun s => exists_transition_of_created mode hg hf
    (transitions g (closure g f c.nodes[k].items)).nodup_keys hentries (hc.numbered_close hk) .empty
    (s := s)
  rw [expand_eq (Array.getElem?_eq_getElem hk)]
  simp only
  generalize (transitions g (closure g f c.nodes[k].items)).entries.foldl (link mode)
    (c.close g f k, .empty) = acc at hgrows hcreated ⊢
  have hsize : k < acc.1.nodes.size := by rwa [hgrows.nodes_eq, size_close]
  have hkernel := kernel?_modify (h := fun node => { node with edges := acc.2 }) hsize
    fun _ => by rfl
  constructor
  case keeps =>
    intro i node hi hnode
    rw [getElem?_allNodes_modify hsize, if_neg hi]
    exact hgrows.old (by rwa [getElem?_close hk, if_neg hi])
  case before =>
    intro i node hi hnode
    rw [getElem?_allNodes_modify hsize, if_neg (Nat.ne_of_lt hi)] at hnode
    exact hgrows.getElem?_before hk hi hnode
  case kernel? =>
    intro i kernel hi
    rw [hkernel]
    exact hgrows.kernel?_closed hk hi
  case created =>
    intro s hle hlt
    have hlength : (c.close g f k).allNodes.length = c.allNodes.length := by
      rw [length_allNodes, length_allNodes, size_close]
      rfl
    have hs := kernel?_isSome_iff.2 hlt
    rw [hkernel] at hs
    obtain ⟨⟨x, made⟩, he, hedge, hmade⟩ :=
      hcreated s (hlength.symm ▸ hle) (kernel?_isSome_iff.1 hs)
    rw [← hkernel] at hmade
    obtain ⟨node, hnode, rfl⟩ := kernel?_eq_some_iff.1 hmade
    refine ⟨{ c.nodes[k] with items := closure g f c.nodes[k].items, edges := acc.2 }, node, x, ?_,
      hnode, hedge, ?_⟩
    · rw [getElem?_allNodes_modify hsize, if_pos rfl,
        hgrows.old (by rw [getElem?_close hk, if_pos rfl, hmine, Option.map_some]), Option.map_some]
    · rw [← hitems]
      exact OrderedMap.find?_eq_some_iff.2 he

/-- An expansion makes its state the origin of the states that it creates, and no other origin
changes. -/
theorem breadth_expand {k : Nat} (hc : c.Progress g f mode k) (hk : k < c.nodes.size)
    (h : Breadth g f c.allNodes) : Breadth g f (expand g f mode c k).allNodes := by
  have hexpands := hc.expands hg hf hk
  have hd := (hc.expand hg hf hk).1
  intro s hpos hlt
  by_cases hold : s < c.allNodes.length
  · obtain ⟨r, hrs, ⟨parent, node, x, hr, hs, hedge, hx⟩, hfirst⟩ := h s hpos hold
    have hrk := hc.lt_of_edge hr hedge
    obtain ⟨node', hs', hkernel⟩ :=
      kernel?_eq_some_iff.1 (hexpands.kernel? (kernel?_eq_some_iff.2 ⟨node, hs, rfl⟩))
    rw [← hkernel] at hx
    refine ⟨r, hrs, ⟨parent, node', x, hexpands.keeps (Nat.ne_of_lt hrk) hr, hs', hedge, hx⟩, ?_⟩
    intro i t other y hi hother hst
    rcases Nat.lt_or_eq_of_le (Nat.le_of_lt_succ (hd.lt_of_edge hi hother)) with hik | rfl
    · exact hfirst (hexpands.before hik hi) hother hst
    · exact Nat.le_of_lt hrk
  · have hle := Nat.le_of_not_lt hold
    have hks : k < s := by
      rw [length_allNodes] at hle
      omega
    refine ⟨k, hks, hexpands.created hle hlt, ?_⟩
    intro i t other y hi hother hst
    rcases Nat.lt_or_eq_of_le (Nat.le_of_lt_succ (hd.lt_of_edge hi hother)) with hik | rfl
    · -- The edges of the states before `k` lead to states that were there.
      exact absurd (hc.target_lt (hexpands.before hik hi) hother) (Nat.not_lt.2 (hle.trans hst))
    · exact Nat.le_refl _

theorem lasting_breadth : Lasting g f mode fun c => Breadth g f c.allNodes where
  expand hc hk h := breadth_expand hg hf hc hk h
  commit {c} h := by rwa [allNodes_commit]

end Expanding

end Construction

/-! ## The length of paths -/

namespace Automaton

theorem breadth_ofGrammar (hg : g.WellFormed) (hf : f.Exact g) :
    Breadth g f (ofGrammar g f mode).nodes.toList := by
  have hinitial : Breadth g f Construction.initial.allNodes := by
    intro s hpos hs
    have hone : Construction.initial.allNodes.length = 1 := rfl
    omega
  have hlasting : Construction.Lasting g f mode fun c => Breadth g f c.allNodes :=
    Construction.lasting_breadth hg hf
  obtain ⟨d, passes, heq, -, hcreated, h⟩ := exists_construction hg hf hlasting hinitial
  have hnodes : d.allNodes = d.nodes.toList := by simp [Construction.allNodes, hcreated]
  rw [heq, ← hnodes]
  exact h

section Paths

variable {a : Automaton} (hg : g.WellFormed) (hf : f.Exact g) (ha : a.Linked g f mode)
include hg hf ha

/-- Closing an item set adds no item beyond the start of its rule. -/
theorem Linked.marker_le_of_kernel {q : Nat} {node : Node} (hq : a.nodes[q]? = some node) {n : Nat}
    (h : ∀ c, node.kernel.Has c → c.marker ≤ n) {c : Core} (hc : node.items.Has c) :
    c.marker ≤ n := by
  rw [ha.items_eq hq, has_closure_iff hg hf] at hc
  rcases Nat.eq_zero_or_pos c.marker with hzero | hpos
  · omega
  · exact h c (hc.has_of_marker_pos hpos)

/-- Up to the state at the end of a path, no marker is beyond the length of the path. -/
theorem Linked.kernel_marker_le (hbreadth : Breadth g f a.nodes.toList) {γ : List SymbolId}
    {q : StateId} (hq : a.follow? startState γ = some q) {s : Nat} (hs : s ≤ q) {node : Node}
    (hnode : a.nodes[s]? = some node) {c : Core} (hc : node.kernel.Has c) :
    c.marker ≤ γ.length := by
  induction γ using List.reverseRecOn generalizing q s node c with
  | nil =>
    obtain rfl : startState = q := Option.some.inj hq
    obtain rfl : s = 0 := Nat.le_zero.1 hs
    obtain ⟨first, hfirst, hkernel⟩ := exists_node_of_kernel? ha.start
    obtain rfl := Option.some.inj (hfirst.symm.trans hnode)
    rw [hkernel, Construction.startKernel_has] at hc
    rw [hc]
    exact Nat.le_refl 0
  | append_singleton γ x ih =>
    rw [follow?_concat] at hq
    obtain ⟨i, hi, hedge⟩ := Option.bind_eq_some_iff.1 hq
    rw [List.length_append, List.length_singleton]
    rcases Nat.eq_zero_or_pos s with rfl | hpos
    · obtain ⟨first, hfirst, hkernel⟩ := exists_node_of_kernel? ha.start
      obtain rfl := Option.some.inj (hfirst.symm.trans hnode)
      rw [hkernel, Construction.startKernel_has] at hc
      rw [hc]
      exact Nat.zero_le _
    · have hlt := (Array.getElem?_eq_some_iff.1 hnode).1
      obtain ⟨r, -, ⟨parent, made, y, hr, hmade, -, hy⟩, hfirst⟩ :=
        hbreadth s hpos (by rwa [Array.length_toList])
      rw [Array.getElem?_toList] at hr hmade
      obtain rfl := Option.some.inj (hmade.symm.trans hnode)
      -- The origin is not behind the last state but one, so its markers are within the shorter path.
      obtain ⟨below, hbelow⟩ := ha.exists_node hi
      have hri : r ≤ i := hfirst (by rw [Array.getElem?_toList]; exact hbelow)
        (by rw [← edge?_eq hbelow]; exact hedge) hs
      rw [← ha.items_eq hr] at hy
      obtain ⟨before, rfl, -, hbefore⟩ := (has_of_transitions hy).1 hc
      exact Nat.succ_le_succ
        (ha.marker_le_of_kernel hg hf hr (fun c hc => ih hi hri hr hc) hbefore)

/-- No marker of a state is beyond the length of a path into the state. -/
theorem Linked.marker_le (hbreadth : Breadth g f a.nodes.toList) {γ : List SymbolId} {q : Nat}
    (hq : a.follow? startState γ = some q) {node : Node} (hnode : a.nodes[q]? = some node) {c : Core}
    (hc : node.items.Has c) : c.marker ≤ γ.length :=
  ha.marker_le_of_kernel hg hf hnode
    (fun _ hc => ha.kernel_marker_le hg hf hbreadth hq (Nat.le_refl q) hnode hc) hc

end Paths

end Automaton

theorem Parser.breadth_of_build {rules : List Rule} {start : Symbol} {p : Parser}
    (h : Parser.build rules start mode = .ok p) :
    Breadth p.grammar p.firstSets p.automaton.nodes.toList := by
  obtain ⟨hg, hp⟩ := eq_ofGrammar_of_build h
  have hwf := Grammar.wellFormed_of_ofRules hg
  rw [← hp]
  exact Automaton.breadth_ofGrammar hwf (FirstSets.exact_ofGrammar hwf)

end ShiftReduce
