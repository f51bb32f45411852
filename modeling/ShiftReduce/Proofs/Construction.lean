import ShiftReduce.Proofs.Kernels

/-!
# The construction of the automaton

The kernel of a state never changes once the state is there, and what a state is matched by
depends on its kernel alone, whether the state has been closed or not.  So the construction is
read through the list of its kernels: creating a state appends a kernel that no state had, and
closing and linking leave the list alone.  The states closed so far are an initial segment, each
linked to states whose kernels match; as no two kernels are the same and there are finitely many,
the passes end with all states closed.

    c.findNode mode K = some i → ∃ kernel, c.kernel? i = some kernel ∧ mode.Matches kernel K
                                                                        (matches_of_findNode)
    Linked g f mode (Automaton.ofGrammar g f mode)                         (linked_ofGrammar)
-/

namespace ShiftReduce

variable {g : Grammar} {f : FirstSets} {mode : MergeMode}

/-! ## Numbered states -/

namespace Construction

variable {c d : Construction}

/-- The kernel of a state. -/
def kernel? (c : Construction) (i : StateId) : Option ItemSet := (c.allNodes[i]?).map (·.kernel)

theorem kernel?_eq_some_iff {i : StateId} {kernel : ItemSet} :
    c.kernel? i = some kernel ↔ ∃ node, c.allNodes[i]? = some node ∧ node.kernel = kernel :=
  Option.map_eq_some_iff

theorem node?_eq (c : Construction) (i : StateId) : c.node? i = c.allNodes[i]? := by
  unfold node? allNodes
  split
  · next h =>
    rw [List.getElem?_append_left (by simpa using h), Array.getElem?_toList]
  · next h =>
    rw [List.getElem?_append_right (by simpa using h), Array.getElem?_toList, Array.length_toList]

theorem length_allNodes (c : Construction) : c.allNodes.length = c.nodes.size + c.created.size := by
  simp [allNodes]

/-- The states are numbered in order and indexed by their cores, no two have the same kernel, and
each has the items of its kernel or of the closure of its kernel. -/
structure Numbered (g : Grammar) (f : FirstSets) (c : Construction) : Prop where
  id_eq : ∀ {i : Nat} {node : Node}, c.allNodes[i]? = some node → node.id = i
  items_eq : ∀ {i : Nat} {node : Node}, c.allNodes[i]? = some node →
    node.items = node.kernel ∨ node.items = closure g f node.kernel
  mem_sameCores : ∀ {cores i}, i ∈ c.sameCores.getD cores [] ↔
    ∃ kernel, c.kernel? i = some kernel ∧ kernel.sortedCores = cores
  distinct : ∀ {i j} {a b : ItemSet}, c.kernel? i = some a → c.kernel? j = some b →
    a.same b = true → i = j
  inRange : ∀ {i} {kernel : ItemSet}, c.kernel? i = some kernel → kernel.InRange g

/-- `d` has the states of `c` as they are, and others that are not closed yet. -/
structure Grows (c d : Construction) : Prop where
  nodes_eq : d.nodes = c.nodes
  old : ∀ {i : Nat} {node : Node}, c.allNodes[i]? = some node → d.allNodes[i]? = some node
  new : ∀ {i : Nat} {node : Node}, d.allNodes[i]? = some node →
    c.allNodes[i]? = some node ∨ node = .unclosed i node.kernel

theorem Grows.refl (c : Construction) : Grows c c := ⟨rfl, fun h => h, fun h => Or.inl h⟩

theorem Grows.trans {e : Construction} (h : Grows c d) (h' : Grows d e) : Grows c e where
  nodes_eq := h'.nodes_eq.trans h.nodes_eq
  old hi := h'.old (h.old hi)
  new hi := by
    rcases h'.new hi with hi | hi
    · exact h.new hi
    · exact Or.inr hi

theorem Grows.kernel? (h : Grows c d) {i : StateId} {kernel : ItemSet}
    (hi : c.kernel? i = some kernel) : d.kernel? i = some kernel := by
  obtain ⟨node, hnode, rfl⟩ := kernel?_eq_some_iff.1 hi
  exact kernel?_eq_some_iff.2 ⟨node, h.old hnode, rfl⟩

/-! ## Finding a state -/

theorem Numbered.contains_items_iff (hg : g.WellFormed) (hf : f.Exact g) (hc : c.Numbered g f)
    {kernel : ItemSet} (hkernel : kernel.Advanced) {i : StateId} {node : Node}
    (hnode : c.allNodes[i]? = some node) :
    node.items.contains kernel = true ↔ node.kernel.contains kernel = true := by
  rcases hc.items_eq hnode with heq | heq
  · rw [heq]
  · rw [heq, ItemSet.contains_closure_iff hg hf hkernel]

/-- The state that is found in canonical mode has the kernel. -/
theorem same_of_findNode {kernel : ItemSet} {i : StateId}
    (h : c.findNode .canonical kernel = some i) :
    ∃ found, c.kernel? i = some found ∧ found.same kernel = true := by
  have hsame := List.find?_some h
  rw [node?_eq] at hsame
  cases hnode : c.allNodes[i]? with
  | none => simp [hnode] at hsame
  | some node =>
    simp only [hnode] at hsame
    exact ⟨node.kernel, kernel?_eq_some_iff.2 ⟨node, hnode, rfl⟩, hsame⟩

/-- Where no state is found in canonical mode, none has the kernel. -/
theorem Numbered.not_same_of_findNode (hc : c.Numbered g f) {kernel : ItemSet}
    (h : c.findNode .canonical kernel = none) {i : StateId} {found : ItemSet}
    (hi : c.kernel? i = some found) : ¬ found.same kernel = true := by
  intro hsame
  obtain ⟨node, hnode, rfl⟩ := kernel?_eq_some_iff.1 hi
  have hmem := hc.mem_sameCores.2 ⟨node.kernel, hi, ItemSet.sortedCores_eq_of_same hsame⟩
  have hnot := List.find?_eq_none.1 h i hmem
  rw [node?_eq, hnode] at hnot
  exact hnot hsame

section Finding

variable (hg : g.WellFormed) (hf : f.Exact g) (hc : c.Numbered g f) {kernel : ItemSet}
  (hkernel : kernel.Advanced)
include hg hf hc hkernel

/-- The state that is found matches the kernel. -/
theorem matches_of_findNode {i : StateId} (h : c.findNode mode kernel = some i) :
    ∃ found, c.kernel? i = some found ∧ mode.Matches found kernel := by
  cases mode with
  | canonical => exact same_of_findNode h
  | superset =>
    obtain ⟨node, hfind, rfl⟩ := Option.map_eq_some_iff.1 h
    obtain ⟨i, hnode⟩ := List.mem_iff_getElem?.1 (List.mem_of_find?_eq_some hfind)
    have hcontains := List.find?_some hfind
    rw [hc.id_eq hnode]
    exact ⟨node.kernel, kernel?_eq_some_iff.2 ⟨node, hnode, rfl⟩,
      (hc.contains_items_iff hg hf hkernel hnode).1 hcontains⟩

/-- Where no state is found, none matches. -/
theorem not_matches_of_findNode (h : c.findNode mode kernel = none) {i : StateId}
    {found : ItemSet} (hi : c.kernel? i = some found) : ¬ mode.Matches found kernel := by
  intro hmatches
  cases mode with
  | canonical => exact hc.not_same_of_findNode h hi hmatches
  | superset =>
    obtain ⟨node, hnode, rfl⟩ := kernel?_eq_some_iff.1 hi
    have hnot := List.find?_eq_none.1 (Option.map_eq_none_iff.1 h) node
      (List.mem_iff_getElem?.2 ⟨i, hnode⟩)
    exact hnot ((hc.contains_items_iff hg hf hkernel hnode).2 hmatches)

/-- In superset mode the first state that matches is found. -/
theorem not_contains_of_findNode {i : StateId} (h : c.findNode .superset kernel = some i)
    {j : StateId} (hj : j < i) {found : ItemSet} (hfound : c.kernel? j = some found) :
    ¬ found.contains kernel = true := by
  obtain ⟨node, hfind, rfl⟩ := Option.map_eq_some_iff.1 h
  obtain ⟨-, k, hk, rfl, hbefore⟩ := List.find?_eq_some_iff_getElem.1 hfind
  rw [hc.id_eq (List.getElem?_eq_getElem hk)] at hj
  obtain ⟨node, hnode, rfl⟩ := kernel?_eq_some_iff.1 hfound
  intro hcontains
  have hnot := hbefore j hj
  rw [Option.some.inj ((List.getElem?_eq_getElem (Nat.lt_trans hj hk)).symm.trans hnode),
    (hc.contains_items_iff hg hf hkernel hnode).2 hcontains] at hnot
  cases hnot

end Finding

/-! ## Creating a state -/

theorem create_snd (c : Construction) (kernel : ItemSet) :
    (c.create kernel).2 = c.allNodes.length :=
  c.length_allNodes.symm

theorem allNodes_create (c : Construction) (kernel : ItemSet) :
    (c.create kernel).1.allNodes = c.allNodes ++ [.unclosed c.allNodes.length kernel] := by
  rw [length_allNodes]
  simp [allNodes, create]

theorem getElem?_allNodes_create (c : Construction) (kernel : ItemSet) (i : Nat) :
    (c.create kernel).1.allNodes[i]? =
      if i = c.allNodes.length then some (.unclosed i kernel) else c.allNodes[i]? := by
  rw [allNodes_create]
  by_cases h : i = c.allNodes.length
  · subst h
    simp
  · rw [if_neg h]
    by_cases hlt : i < c.allNodes.length
    · rw [List.getElem?_append_left hlt]
    · rw [List.getElem?_eq_none (by simp; omega), List.getElem?_eq_none (by omega)]

theorem kernel?_create (c : Construction) (kernel : ItemSet) (i : StateId) :
    (c.create kernel).1.kernel? i =
      if i = c.allNodes.length then some kernel else c.kernel? i := by
  unfold kernel?
  rw [getElem?_allNodes_create]
  by_cases h : i = c.allNodes.length
  · simp [h, Node.unclosed]
  · simp [h]

theorem grows_create (c : Construction) (kernel : ItemSet) : Grows c (c.create kernel).1 where
  nodes_eq := rfl
  old {i node} hi := by
    have hlt := (List.getElem?_eq_some_iff.1 hi).1
    rw [getElem?_allNodes_create, if_neg (by omega)]
    exact hi
  new {i node} hi := by
    rw [getElem?_allNodes_create] at hi
    split at hi
    · obtain rfl := Option.some.inj hi
      exact Or.inr rfl
    · exact Or.inl hi

theorem mem_sameCores_create {c : Construction} {kernel : ItemSet} {cores : List Core}
    {i : StateId} : i ∈ (c.create kernel).1.sameCores.getD cores [] ↔
      i ∈ c.sameCores.getD cores [] ∨ (i = c.allNodes.length ∧ kernel.sortedCores = cores) := by
  show i ∈ (c.sameCores.insert kernel.sortedCores _).getD cores [] ↔ _
  rw [Std.TreeMap.getD_insert]
  by_cases h : kernel.sortedCores = cores
  · subst h
    simp [length_allNodes]
  · have hcompare : ¬ compare kernel.sortedCores cores = .eq :=
      fun e => h (Std.LawfulEqOrd.eq_of_compare e)
    simp [h]

/-- A state may be created for a kernel that no state has. -/
theorem Numbered.create (hc : c.Numbered g f) {kernel : ItemSet} (hrange : kernel.InRange g)
    (hfresh : ∀ {i found}, c.kernel? i = some found → ¬ found.same kernel = true) :
    (c.create kernel).1.Numbered g f where
  id_eq {i node} hi := by
    rw [getElem?_allNodes_create] at hi
    split at hi
    · obtain rfl := Option.some.inj hi
      rfl
    · exact hc.id_eq hi
  items_eq {i node} hi := by
    rw [getElem?_allNodes_create] at hi
    split at hi
    · obtain rfl := Option.some.inj hi
      exact Or.inl rfl
    · exact hc.items_eq hi
  mem_sameCores {cores i} := by
    rw [mem_sameCores_create, hc.mem_sameCores, kernel?_create]
    by_cases h : i = c.allNodes.length
    · have hnone : c.kernel? i = none := by simp [kernel?, h]
      simp only [h, if_true, true_and, Option.some.injEq, exists_eq_left']
      rw [← h, hnone]
      simp
    · simp [h]
  distinct {i j a b} hi hj hsame := by
    rw [kernel?_create] at hi hj
    split at hi <;> split at hj
    · next hi' hj' => rw [hi', hj']
    · obtain rfl := Option.some.inj hi
      exact absurd (ItemSet.same_symm hsame) (hfresh hj)
    · obtain rfl := Option.some.inj hj
      exact absurd hsame (hfresh hi)
    · exact hc.distinct hi hj hsame
  inRange {i found} hi := by
    rw [kernel?_create] at hi
    split at hi
    · exact Option.some.inj hi ▸ hrange
    · exact hc.inRange hi

/-! ## Linking transitions -/

/-- Where a transition leads: nowhere without a kernel, else to a state that the kernel matches. -/
def Leads (mode : MergeMode) (kernel? : StateId → Option ItemSet) (target? : Option StateId) :
    Option ItemSet → Prop
  | none => target? = none
  | some kernel => ∃ target found,
    target? = some target ∧ kernel? target = some found ∧ mode.Matches found kernel

theorem Leads.mono {target? : Option StateId} {kernel : Option ItemSet} (hgrows : Grows c d)
    (h : Leads mode c.kernel? target? kernel) : Leads mode d.kernel? target? kernel := by
  cases kernel with
  | none => exact h
  | some kernel =>
    obtain ⟨target, found, htarget, hfound, hmatches⟩ := h
    exact ⟨target, found, htarget, hgrows.kernel? hfound, hmatches⟩

theorem matches_of_same {found kernel : ItemSet} (h : found.same kernel = true) :
    mode.Matches found kernel := by
  cases mode with
  | canonical => exact h
  | superset => exact ItemSet.contains_of_same h

section Linking

variable (mode) (hg : g.WellFormed) (hf : f.Exact g)
include hg hf

theorem link_spec (hc : c.Numbered g f) {kernel : ItemSet} (hkernel : kernel.Advanced)
    (hrange : kernel.InRange g) (edges : OrderedMap SymbolId StateId) (x : SymbolId) :
    let acc := link mode (c, edges) (x, kernel)
    acc.1.Numbered g f ∧ Grows c acc.1 ∧ ∃ target found, acc.2 = edges.insert x target ∧
      acc.1.kernel? target = some found ∧ mode.Matches found kernel := by
  intro acc
  cases hfind : c.findNode mode kernel with
  | some target =>
    have hacc : acc = (c, edges.insert x target) := by simp [acc, link, hfind]
    obtain ⟨found, hfound, hmatches⟩ := matches_of_findNode hg hf hc hkernel hfind
    rw [hacc]
    exact ⟨hc, .refl c, target, found, rfl, hfound, hmatches⟩
  | none =>
    have hacc : acc = ((c.create kernel).1, edges.insert x (c.create kernel).2) := by
      simp [acc, link, hfind]
    rw [hacc]
    refine ⟨hc.create hrange fun {i found} hi hsame => ?_, grows_create c kernel,
      (c.create kernel).2, kernel, rfl, ?_, matches_of_same kernel.same_refl⟩
    · exact not_matches_of_findNode hg hf hc hkernel hfind hi (matches_of_same hsame)
    · rw [create_snd, kernel?_create, if_pos rfl]

/-- Linking the transitions of a list gives each of its symbols a state that its kernel matches,
and leaves the edges on other symbols. -/
theorem foldl_link {l : List (SymbolId × ItemSet)} (hnodup : (l.map Prod.fst).Nodup)
    (hl : ∀ e ∈ l, e.2.Advanced ∧ e.2.InRange g) (hc : c.Numbered g f)
    (edges : OrderedMap SymbolId StateId) :
    let acc := l.foldl (link mode) (c, edges)
    acc.1.Numbered g f ∧ Grows c acc.1 ∧
      (∀ x, x ∉ l.map Prod.fst → acc.2.find? x = edges.find? x) ∧
      ∀ e ∈ l, Leads mode acc.1.kernel? (acc.2.find? e.1) (some e.2) := by
  induction l generalizing c edges with
  | nil => exact ⟨hc, .refl c, fun _ _ => rfl, fun e he => by cases he⟩
  | cons e l ih =>
    obtain ⟨x, kernel⟩ := e
    rw [List.map_cons, List.nodup_cons] at hnodup
    obtain ⟨hkernel, hrange⟩ := hl (x, kernel) List.mem_cons_self
    obtain ⟨hc', hgrows, target, found, hedges, hfound, hmatches⟩ :=
      link_spec mode hg hf hc hkernel hrange edges x
    obtain ⟨hd, hgrows', hother, hlinked⟩ :=
      ih hnodup.2 (fun e he => hl e (List.mem_cons_of_mem _ he)) hc'
        (link mode (c, edges) (x, kernel)).2
    refine ⟨hd, hgrows.trans hgrows', ?_, ?_⟩
    · intro y hy
      rw [List.map_cons, List.mem_cons, not_or] at hy
      rw [List.foldl_cons, hother y hy.2, hedges, OrderedMap.find?_insert, if_neg hy.1]
    · intro e he
      rcases List.mem_cons.1 he with rfl | he
      · refine ⟨target, found, ?_, hgrows'.kernel? hfound, hmatches⟩
        rw [List.foldl_cons, hother x hnodup.1, hedges, OrderedMap.find?_insert, if_pos rfl]
      · exact hlinked e he

/-- All transitions of a state in range are linked. -/
theorem foldl_link_transitions (hc : c.Numbered g f) {items : ItemSet} (hrange : items.InRange g) :
    let acc := (transitions g items).entries.foldl (link mode) (c, .empty)
    acc.1.Numbered g f ∧ Grows c acc.1 ∧
      ∀ x, Leads mode acc.1.kernel? (acc.2.find? x) ((transitions g items).find? x) := by
  have hentries : ∀ e ∈ (transitions g items).entries, e.2.Advanced ∧ e.2.InRange g := by
    rintro ⟨x, kernel⟩ he
    have hx := OrderedMap.find?_eq_some_iff.2 he
    exact ⟨ItemSet.advanced_of_transitions hx, ItemSet.inRange_of_transitions hrange hx⟩
  obtain ⟨hd, hgrows, hother, hlinked⟩ :=
    foldl_link mode hg hf (transitions g items).nodup_keys hentries hc .empty
  refine ⟨hd, hgrows, fun x => ?_⟩
  cases hx : (transitions g items).find? x with
  | none => exact hother x (OrderedMap.find?_eq_none_iff.1 hx)
  | some kernel => exact hlinked (x, kernel) (OrderedMap.find?_eq_some_iff.1 hx)

end Linking

/-! ## Expanding a state -/

/-- Changes one state. -/
def modify (c : Construction) (k : StateId) (h : Node → Node) : Construction :=
  { c with nodes := c.nodes.modify k h }

theorem size_modify (c : Construction) (k : StateId) (h : Node → Node) :
    (c.modify k h).nodes.size = c.nodes.size := Array.size_modify

theorem getElem?_allNodes_modify {k : Nat} (hk : k < c.nodes.size) (h : Node → Node) (i : Nat) :
    (c.modify k h).allNodes[i]? =
      if i = k then (c.allNodes[i]?).map h else c.allNodes[i]? := by
  simp only [allNodes, modify, Array.toList_modify]
  by_cases hi : i < c.nodes.toList.length
  · rw [List.getElem?_append_left (by simpa using hi), List.getElem?_append_left hi,
      List.getElem?_modify]
    by_cases hik : i = k
    · simp [hik]
    · have hki : ¬ k = i := fun e => hik e.symm
      simp [hik, hki]
  · have hne : ¬ i = k := by
      rw [Array.length_toList] at hi
      omega
    rw [if_neg hne, List.getElem?_append_right (by simpa using hi),
      List.getElem?_append_right (by simpa using hi), List.length_modify]

theorem kernel?_modify {k : Nat} (hk : k < c.nodes.size) {h : Node → Node}
    (hkernel : ∀ node, (h node).kernel = node.kernel) (i : StateId) :
    (c.modify k h).kernel? i = c.kernel? i := by
  unfold kernel?
  rw [getElem?_allNodes_modify hk]
  split
  · rw [Option.map_map]
    congr 1
    funext node
    exact hkernel node
  · rfl

theorem Numbered.modify (hc : c.Numbered g f) {k : Nat} (hk : k < c.nodes.size) {h : Node → Node}
    (hid : ∀ node, (h node).id = node.id) (hkernel : ∀ node, (h node).kernel = node.kernel)
    (hitems : ∀ {node}, c.allNodes[k]? = some node →
      (h node).items = node.kernel ∨ (h node).items = closure g f node.kernel) :
    (c.modify k h).Numbered g f where
  id_eq {i node} hi := by
    rw [getElem?_allNodes_modify hk] at hi
    split at hi
    · obtain ⟨old, hold, rfl⟩ := Option.map_eq_some_iff.1 hi
      rw [hid]
      exact hc.id_eq hold
    · exact hc.id_eq hi
  items_eq {i node} hi := by
    rw [getElem?_allNodes_modify hk] at hi
    split at hi
    · next hik =>
      obtain ⟨old, hold, rfl⟩ := Option.map_eq_some_iff.1 hi
      rw [hkernel]
      exact hitems (hik ▸ hold)
    · exact hc.items_eq hi
  mem_sameCores {cores i} := by
    rw [kernel?_modify hk hkernel]
    exact hc.mem_sameCores
  distinct {i j a b} hi hj := by
    rw [kernel?_modify hk hkernel] at hi hj
    exact hc.distinct hi hj
  inRange {i kernel} hi := by
    rw [kernel?_modify hk hkernel] at hi
    exact hc.inRange hi

/-- The kernel of the state in which every run starts. -/
def startKernel : ItemSet := OrderedMap.empty.insert (Core.start acceptId) (.singleton endOfInputId)

/-- The states before `k` are closed and linked, the others are as they were created. -/
structure Progress (g : Grammar) (f : FirstSets) (mode : MergeMode) (c : Construction) (k : Nat) :
    Prop extends c.Numbered g f where
  start : c.kernel? Automaton.startState = some startKernel
  items_eq_closure : ∀ {i : Nat} {node : Node}, i < k → c.allNodes[i]? = some node →
    node.items = closure g f node.kernel
  leads : ∀ {i : Nat} {node : Node}, i < k → c.allNodes[i]? = some node → ∀ x,
    Leads mode c.kernel? (node.edges.find? x) ((transitions g node.items).find? x)
  unclosed : ∀ {i : Nat} {node : Node}, k ≤ i → c.allNodes[i]? = some node →
    node = .unclosed i node.kernel

theorem getElem?_allNodes_of_lt {i : Nat} (hi : i < c.nodes.size) :
    c.allNodes[i]? = c.nodes[i]? := by
  rw [allNodes, List.getElem?_append_left (by simpa using hi), Array.getElem?_toList]

theorem getElem?_allNodes_eq_some {i : Nat} (hi : i < c.nodes.size) :
    c.allNodes[i]? = some c.nodes[i] := by
  rw [getElem?_allNodes_of_lt hi, Array.getElem?_eq_getElem hi]

theorem expand_eq {k : StateId} {node : Node} (hnode : c.nodes[k]? = some node) :
    expand g f mode c k =
      let acc := (transitions g (closure g f node.items)).entries.foldl (link mode)
        (c.close g f k, .empty)
      acc.1.modify k fun node => { node with edges := acc.2 } := by
  have hclosed : (c.close g f k).nodes[k]? = some { node with items := closure g f node.items } := by
    simp only [close, Array.getElem?_modify, if_true, hnode, Option.map_some]
  simp only [expand, hclosed, modify]

theorem close_eq_modify (c : Construction) (k : StateId) : c.close g f k =
    c.modify k fun node => { node with items := closure g f node.items } := rfl

theorem size_close (c : Construction) (k : StateId) :
    (c.close g f k).nodes.size = c.nodes.size := c.size_modify k _

theorem getElem?_close {k : Nat} (hk : k < c.nodes.size) (i : Nat) :
    (c.close g f k).allNodes[i]? =
      if i = k then (c.allNodes[i]?).map fun node => { node with items := closure g f node.items }
      else c.allNodes[i]? :=
  getElem?_allNodes_modify hk _ i

theorem kernel?_close {k : Nat} (hk : k < c.nodes.size) (i : StateId) :
    (c.close g f k).kernel? i = c.kernel? i := by
  rw [close_eq_modify]
  exact kernel?_modify hk (fun _ => by rfl) i

/-! The construction `d` has grown from `c` after the state `k` was closed. -/

section Entering

variable {k : Nat} (hk : k < c.nodes.size) (hgrows : Grows (c.close g f k) d)
include hk hgrows

/-- The states before `k` are as they were. -/
theorem Grows.getElem?_before {i : Nat} {node : Node} (hi : i < k)
    (hnode : d.allNodes[i]? = some node) : c.allNodes[i]? = some node := by
  have hold := getElem?_allNodes_eq_some (c := c) (i := i) (by omega)
  have hsame := hgrows.old (i := i) (by rw [getElem?_close hk, if_neg (by omega)]; exact hold)
  obtain rfl := Option.some.inj (hsame.symm.trans hnode)
  exact hold

/-- The states behind `k` are as they were, or not closed yet. -/
theorem Grows.getElem?_behind {i : Nat} {node : Node} (hi : k < i)
    (hnode : d.allNodes[i]? = some node) :
    c.allNodes[i]? = some node ∨ node = .unclosed i node.kernel := by
  rcases hgrows.new hnode with hnode | hnode
  · rw [getElem?_close hk, if_neg (by omega)] at hnode
    exact Or.inl hnode
  · exact Or.inr hnode

theorem Grows.kernel?_closed {i : StateId} {kernel : ItemSet} (hi : c.kernel? i = some kernel) :
    d.kernel? i = some kernel :=
  hgrows.kernel? (by rw [kernel?_close hk]; exact hi)

theorem Leads.mono_closed {target? : Option StateId} {kernel : Option ItemSet}
    (h : Leads mode c.kernel? target? kernel) : Leads mode d.kernel? target? kernel := by
  have hclose : c.kernel? = (c.close g f k).kernel? := funext fun i => (kernel?_close hk i).symm
  rw [hclose] at h
  exact h.mono hgrows

/-- The edges of one state are entered after its transitions have been linked. -/
theorem Progress.enter {node : Node} {edges : OrderedMap SymbolId StateId}
    (hc : c.Progress g f mode k) (hnode : c.allNodes[k]? = some node) (hd : d.Numbered g f)
    (hleads : ∀ x, Leads mode d.kernel? (edges.find? x)
      ((transitions g (closure g f node.items)).find? x)) :
    (d.modify k fun node => { node with edges }).Progress g f mode (k + 1) := by
  have hsize : d.nodes.size = c.nodes.size := by rw [hgrows.nodes_eq, size_close]
  have hkd : k < d.nodes.size := by omega
  have hmine : d.allNodes[k]? = some { node with items := closure g f node.items } :=
    hgrows.old (by rw [getElem?_close hk, if_pos rfl, hnode, Option.map_some])
  have hitems : node.items = node.kernel := by
    rw [hc.unclosed (Nat.le_refl k) hnode]
    rfl
  have hkernel?_enter : (d.modify k fun node => { node with edges }).kernel? = d.kernel? :=
    funext (kernel?_modify hkd fun _ => by rfl)
  have hnumbered : (d.modify k fun node => { node with edges }).Numbered g f := by
    refine hd.modify hkd (fun _ => by rfl) (fun _ => by rfl) fun hn => ?_
    have hitems := hd.items_eq hn
    exact hitems
  refine { hnumbered with
    start := ?start, items_eq_closure := ?items, leads := ?leads, unclosed := ?unclosed }
  case start =>
    rw [hkernel?_enter]
    exact hgrows.kernel?_closed hk hc.start
  case items =>
    intro i n hi hn
    rw [getElem?_allNodes_modify hkd] at hn
    split at hn
    · next hik =>
      rw [hik, hmine] at hn
      obtain rfl := Option.some.inj hn
      exact congrArg (closure g f) hitems
    · exact hc.items_eq_closure (by omega) (hgrows.getElem?_before hk (by omega) hn)
  case leads =>
    intro i n hi hn x
    rw [hkernel?_enter]
    rw [getElem?_allNodes_modify hkd] at hn
    split at hn
    · next hik =>
      rw [hik, hmine] at hn
      obtain rfl := Option.some.inj hn
      exact hleads x
    · exact (hc.leads (by omega) (hgrows.getElem?_before hk (by omega) hn) x).mono_closed hk hgrows
  case unclosed =>
    intro i n hi hn
    rw [getElem?_allNodes_modify hkd, if_neg (by omega)] at hn
    rcases hgrows.getElem?_behind hk (by omega) hn with hn | hn
    · exact hc.unclosed (by omega) hn
    · exact hn

end Entering

section Expanding

variable {k : Nat}

/-- A state that is not closed yet has the items of its kernel. -/
theorem Progress.items_eq_kernel (hc : c.Progress g f mode k) {node : Node}
    (hnode : c.allNodes[k]? = some node) : node.items = node.kernel := by
  rw [hc.unclosed (Nat.le_refl k) hnode]
  rfl

theorem Progress.numbered_close (hc : c.Progress g f mode k) (hk : k < c.nodes.size) :
    (c.close g f k).Numbered g f := by
  rw [close_eq_modify]
  refine hc.toNumbered.modify hk (fun _ => rfl) (fun _ => rfl) fun {node} hnode => ?_
  exact Or.inr (congrArg (closure g f) (hc.items_eq_kernel hnode))

variable (hg : g.WellFormed) (hf : f.Exact g)
include hg hf

theorem Progress.inRange_closure (hc : c.Progress g f mode k) (hk : k < c.nodes.size) :
    (closure g f c.nodes[k].items).InRange g := by
  have hnode := getElem?_allNodes_eq_some hk
  rw [hc.items_eq_kernel hnode]
  exact ItemSet.inRange_closure hg hf (hc.inRange (kernel?_eq_some_iff.2 ⟨_, hnode, rfl⟩))

/-- Expanding the first state that is not closed closes and links it. -/
theorem Progress.expand (hc : c.Progress g f mode k) (hk : k < c.nodes.size) :
    (expand g f mode c k).Progress g f mode (k + 1) ∧
      (Construction.expand g f mode c k).nodes.size = c.nodes.size := by
  obtain ⟨hlinked, hgrows, hleads⟩ := foldl_link_transitions mode hg hf (hc.numbered_close hk)
    (hc.inRange_closure hg hf hk)
  rw [expand_eq (Array.getElem?_eq_getElem hk)]
  refine ⟨hc.enter hk hgrows (getElem?_allNodes_eq_some hk) hlinked hleads, ?_⟩
  rw [size_modify, hgrows.nodes_eq, size_close]

end Expanding

/-- A property of constructions that expanding a state and ending a pass keep. -/
structure Lasting (g : Grammar) (f : FirstSets) (mode : MergeMode) (P : Construction → Prop) : Prop where
  expand : ∀ {c : Construction} {k : Nat}, c.Progress g f mode k → k < c.nodes.size → P c →
    P (Construction.expand g f mode c k)
  commit : ∀ {c : Construction}, P c → P c.commit

theorem lasting_true : Lasting g f mode fun _ => True := ⟨fun _ _ _ => trivial, fun _ => trivial⟩

theorem Progress.foldl_expand (hg : g.WellFormed) (hf : f.Exact g) {P : Construction → Prop}
    (hP : Lasting g f mode P) {k n : Nat} (hc : c.Progress g f mode k) (hn : k + n ≤ c.nodes.size)
    (h : P c) :
    ((List.range' k n).foldl (Construction.expand g f mode) c).Progress g f mode (k + n) ∧
      ((List.range' k n).foldl (Construction.expand g f mode) c).nodes.size = c.nodes.size ∧
      P ((List.range' k n).foldl (Construction.expand g f mode) c) := by
  induction n generalizing c k with
  | zero => exact ⟨hc, rfl, h⟩
  | succ n ih =>
    obtain ⟨hnext, hsize⟩ := hc.expand hg hf (by omega)
    obtain ⟨hdone, hsame, hlast⟩ := ih hnext (by omega) (hP.expand hc (by omega) h)
    rw [List.range'_succ, List.foldl_cons]
    have hcount : k + 1 + n = k + (n + 1) := by omega
    rw [hcount] at hdone
    exact ⟨hdone, hsame.trans hsize, hlast⟩

/-! ## Passes -/

theorem allNodes_commit (c : Construction) : c.commit.allNodes = c.allNodes := by
  simp [allNodes, commit]

/-- What is asked of the states does not depend on which of them are buffered. -/
theorem Numbered.congr (hc : c.Numbered g f) (hnodes : d.allNodes = c.allNodes)
    (hcores : d.sameCores = c.sameCores) : d.Numbered g f := by
  have hkernels : d.kernel? = c.kernel? := by
    unfold kernel?
    rw [hnodes]
  refine ⟨?_, ?_, ?_, ?_, ?_⟩
  · simpa only [hnodes] using @hc.id_eq
  · simpa only [hnodes] using @hc.items_eq
  · simpa only [hkernels, hcores] using @hc.mem_sameCores
  · simpa only [hkernels] using @hc.distinct
  · simpa only [hkernels] using @hc.inRange

theorem Progress.congr {k : Nat} (hc : c.Progress g f mode k) (hnodes : d.allNodes = c.allNodes)
    (hcores : d.sameCores = c.sameCores) : d.Progress g f mode k := by
  have hkernels : d.kernel? = c.kernel? := by
    unfold kernel?
    rw [hnodes]
  refine ⟨hc.toNumbered.congr hnodes hcores, ?_, ?_, ?_, ?_⟩
  · simpa only [hkernels] using @hc.start
  · simpa only [hnodes] using @hc.items_eq_closure
  · simpa only [hnodes, hkernels] using @hc.leads
  · simpa only [hnodes] using @hc.unclosed

theorem Progress.commit {k : Nat} (hc : c.Progress g f mode k) : c.commit.Progress g f mode k :=
  hc.congr c.allNodes_commit rfl

theorem size_commit (c : Construction) : c.commit.nodes.size = c.allNodes.length := by
  simp [commit, length_allNodes]

/-- The states buffered are numbered on from the others. -/
theorem Numbered.map_id_created (hc : c.Numbered g f) :
    c.created.toList.map (·.id) = List.range' c.nodes.size c.created.size := by
  refine List.ext_getElem (by simp) fun i hi _ => ?_
  rw [List.length_map, Array.length_toList] at hi
  have hnode : c.allNodes[c.nodes.size + i]? = some c.created[i] := by
    rw [allNodes, List.getElem?_append_right (by simp), Array.length_toList,
      Nat.add_sub_cancel_left, Array.getElem?_toList, Array.getElem?_eq_getElem hi]
  rw [List.getElem_map, Array.getElem_toList, hc.id_eq hnode, List.getElem_range', Nat.one_mul]

theorem Progress.pass (hg : g.WellFormed) (hf : f.Exact g) {P : Construction → Prop}
    (hP : Lasting g f mode P) {k n : Nat} (hc : c.Progress g f mode k) (hn : k + n = c.nodes.size)
    (h : P c) : ∃ d, c.pass g f mode (List.range' k n) =
        (d, List.range' c.nodes.size (d.nodes.size - c.nodes.size)) ∧
      d.Progress g f mode c.nodes.size ∧ c.nodes.size ≤ d.nodes.size ∧ d.created = #[] ∧ P d := by
  obtain ⟨hdone, hsize, hlast⟩ := hc.foldl_expand hg hf hP (Nat.le_of_eq hn) h
  rw [hn] at hdone
  unfold Construction.pass
  generalize (List.range' k n).foldl (Construction.expand g f mode) c = d at hdone hsize hlast
  have hcount : d.commit.nodes.size = c.nodes.size + d.created.size := by
    rw [size_commit, length_allNodes, hsize]
  refine ⟨d.commit, ?_, hdone.commit, by omega, rfl, hP.commit hlast⟩
  simp only
  rw [hdone.map_id_created, hsize, hcount, Nat.add_sub_cancel_left]

theorem Progress.size_le (hg : g.WellFormed) {k : Nat} (hc : c.Progress g f mode k) :
    c.nodes.size ≤ Automaton.passLimit g := by
  have hkernels : ∀ {i : Nat} {kernel : ItemSet}, (c.allNodes.map (·.kernel))[i]? = some kernel →
      c.kernel? i = some kernel := fun h => by rwa [List.getElem?_map] at h
  have hlength : (c.allNodes.map (·.kernel)).length ≤ Automaton.passLimit g := length_kernels_le hg
    (fun kernel hkernel => by
      obtain ⟨i, hi⟩ := List.mem_iff_getElem?.1 hkernel
      exact hc.inRange (hkernels hi))
    (List.pairwise_iff_getElem.2 fun i j hi hj hij hsame => by
      exact absurd (hc.distinct (hkernels (List.getElem?_eq_getElem hi))
        (hkernels (List.getElem?_eq_getElem hj)) hsame) (Nat.ne_of_lt hij))
  rw [List.length_map, length_allNodes] at hlength
  omega

end Construction

/-! ## The automaton of a grammar -/

namespace Automaton

/-- The kernel of a state. -/
def kernel? (a : Automaton) (i : StateId) : Option ItemSet := (a.nodes[i]?).map (·.kernel)

/-- Every state is the closure of its kernel, with an edge for each of its transitions to a state
whose kernel matches, and no two states have the same kernel. -/
structure Linked (g : Grammar) (f : FirstSets) (mode : MergeMode) (a : Automaton) : Prop where
  id_eq : ∀ {i : Nat} {node : Node}, a.nodes[i]? = some node → node.id = i
  start : a.kernel? startState = some Construction.startKernel
  distinct : ∀ {i j} {k l : ItemSet}, a.kernel? i = some k → a.kernel? j = some l →
    k.same l = true → i = j
  inRange : ∀ {i} {kernel : ItemSet}, a.kernel? i = some kernel → kernel.InRange g
  items_eq : ∀ {i : Nat} {node : Node}, a.nodes[i]? = some node →
    node.items = closure g f node.kernel
  leads : ∀ {i : Nat} {node : Node}, a.nodes[i]? = some node → ∀ x,
    Construction.Leads mode a.kernel? (node.edges.find? x) ((transitions g node.items).find? x)

theorem Linked.inRange_items {a : Automaton} (hg : g.WellFormed) (hf : f.Exact g)
    (ha : a.Linked g f mode) {q : Nat} {node : Node} (hq : a.nodes[q]? = some node) :
    node.items.InRange g := by
  have hkernel : a.kernel? q = some node.kernel := by rw [kernel?, hq, Option.map_some]
  rw [ha.items_eq hq]
  exact ItemSet.inRange_closure hg hf (ha.inRange hkernel)

end Automaton

namespace Construction

variable {c : Construction}

theorem Progress.linked (hc : c.Progress g f mode c.nodes.size) (hcreated : c.created = #[])
    (passes : List Nat) : Automaton.Linked g f mode ⟨c.nodes, passes⟩ := by
  have hnodes : ∀ i : Nat, c.allNodes[i]? = c.nodes[i]? := fun i => by simp [allNodes, hcreated]
  have hkernels : c.kernel? = Automaton.kernel? ⟨c.nodes, passes⟩ := funext fun i => by
    unfold kernel? Automaton.kernel?
    rw [hnodes]
  have hlt : ∀ {i : Nat} {node : Node}, c.nodes[i]? = some node → i < c.nodes.size := fun hi =>
    (Array.getElem?_eq_some_iff.1 hi).1
  refine ⟨?_, ?_, ?_, ?_, ?_, ?_⟩
  · simpa only [hnodes] using @hc.id_eq
  · simpa only [hkernels] using @hc.start
  · simpa only [hkernels] using @hc.distinct
  · simpa only [hkernels] using @hc.inRange
  · intro i node hi
    exact hc.items_eq_closure (hlt hi) ((hnodes i).trans hi)
  · intro i node hi x
    rw [← hkernels]
    exact hc.leads (hlt hi) ((hnodes i).trans hi) x

/-- Each pass closes a state or is the last, so the limit on passes is not reached before all
states are closed, and what the passes keep holds of the construction that they end in. -/
theorem Progress.run (hg : g.WellFormed) (hf : f.Exact g) {P : Construction → Prop}
    (hP : Lasting g f mode P) {k n fuel : Nat} (hc : c.Progress g f mode k)
    (hn : k + n = c.nodes.size) (hcreated : c.created = #[])
    (enough : Automaton.passLimit g ≤ k + fuel) (h : P c) (passes : List Nat) :
    ∃ d passes', Construction.run g f mode fuel c (List.range' k n) passes = ⟨d.nodes, passes'⟩ ∧
      d.Progress g f mode d.nodes.size ∧ d.created = #[] ∧ P d := by
  induction fuel generalizing c k n passes with
  | zero =>
    have hsize := hc.size_le hg
    have hk : k = c.nodes.size := by omega
    exact ⟨c, passes, rfl, hk ▸ hc, hcreated, h⟩
  | succ fuel ih =>
    unfold Construction.run
    cases n with
    | zero => exact ⟨c, passes, rfl, (show k = c.nodes.size from hn) ▸ hc, hcreated, h⟩
    | succ n =>
      obtain ⟨d, hpass, hd, hle, hempty, hlast⟩ := hc.pass hg hf hP hn h
      simp only [List.isEmpty_iff, List.range'_eq_nil_iff, Nat.succ_ne_zero, if_false, hpass]
      exact ih hd (by omega) hempty (by omega) hlast _

theorem numbered_empty : Numbered g f ⟨#[], #[], ∅⟩ where
  id_eq hi := by simp [allNodes] at hi
  items_eq hi := by simp [allNodes] at hi
  mem_sameCores := by simp [kernel?, allNodes]
  distinct hi := by simp [kernel?, allNodes] at hi
  inRange hi := by simp [kernel?, allNodes] at hi

theorem startKernel_has {c : Core} : startKernel.Has c ↔ c = Core.start acceptId := by
  unfold ItemSet.Has startKernel
  rw [OrderedMap.find?_insert]
  by_cases h : c = Core.start acceptId <;> simp [h]

theorem startKernel_looks {c : Core} {t : TerminalId} :
    startKernel.Looks c t ↔ c = Core.start acceptId ∧ t = endOfInputId := by
  unfold ItemSet.Looks startKernel
  rw [OrderedMap.find?_insert]
  by_cases h : c = Core.start acceptId <;> simp [h]

theorem startKernel_inRange (hg : g.WellFormed) : startKernel.InRange g where
  rule_lt hc := by
    rw [startKernel_has.1 hc]
    exact (Array.getElem?_eq_some_iff.1 hg.accepting).1
  marker_le hc := by
    rw [startKernel_has.1 hc]
    exact Nat.zero_le _
  lookahead_lt hc := by
    rw [(startKernel_looks.1 hc).2]
    exact hg.end_lt

theorem progress_initial (hg : g.WellFormed) :
    Construction.initial.Progress g f mode 0 := by
  refine Progress.commit ?_
  have hcreated := numbered_empty.create (g := g) (f := f) (startKernel_inRange hg)
    fun {i found} hi => by simp [kernel?, allNodes] at hi
  refine { hcreated with
    start := rfl
    items_eq_closure := fun hi => by omega
    leads := fun hi => by omega
    unclosed := fun {i node} _ hi => ?_ }
  rcases (grows_create _ _).new hi with hi | hi
  · simp [allNodes] at hi
  · exact hi

end Construction

/-- The construction ends with all states closed, and with all that its passes keep. -/
theorem Automaton.exists_construction (hg : g.WellFormed) (hf : f.Exact g) {P : Construction → Prop}
    (hP : Construction.Lasting g f mode P) (h : P .initial) :
    ∃ d passes, ofGrammar g f mode = ⟨d.nodes, passes⟩ ∧ d.Progress g f mode d.nodes.size ∧
      d.created = #[] ∧ P d := by
  have hsize : 0 + 1 = Construction.initial.nodes.size := rfl
  exact (Construction.progress_initial hg).run hg hf hP hsize rfl
    (Nat.le_of_eq (Nat.zero_add _).symm) h []

theorem Automaton.linked_ofGrammar (hg : g.WellFormed) (hf : f.Exact g) :
    Linked g f mode (ofGrammar g f mode) := by
  obtain ⟨d, passes, heq, hd, hcreated, -⟩ := exists_construction hg hf Construction.lasting_true trivial
  rw [heq]
  exact hd.linked hcreated passes

end ShiftReduce
