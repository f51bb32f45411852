import ShiftReduce.Proofs.ValidItems

/-!
# How the states come about

A state is created for a transition of a state that is there, when no state matches its kernel; so
the kernels of an automaton, in order, are generated from the kernel of the first state.  From this
alone it follows that in either mode every state holds exactly the valid items of some string, the
one along which it was created, and that no state is matched by a state behind it.

    Generated g f mode ((Automaton.ofGrammar g f mode).nodes.toList.map (·.kernel))
                                                                       (generated_ofGrammar)
    Generated g f mode kernels → kernel ∈ kernels → ∃ γ, Seeds g γ kernel ∧ …
                                                                  (Generated.exists_seeds)
-/

namespace ShiftReduce

variable {g : Grammar} {f : FirstSets} {mode : MergeMode}

/-- Kernels in the order in which they come about: the first is that of the start, and each other
is a transition of a state before it, made while no state matched it. -/
inductive Generated (g : Grammar) (f : FirstSets) (mode : MergeMode) : List ItemSet → Prop
  | start : Generated g f mode [Construction.startKernel]
  | create {kernels : List ItemSet} {parent kernel : ItemSet} {x : SymbolId} :
      Generated g f mode kernels → parent ∈ kernels →
      (transitions g (closure g f parent)).find? x = some kernel →
      (∀ found ∈ kernels, ¬ mode.Matches found kernel) → Generated g f mode (kernels ++ [kernel])

namespace Generated

variable {kernels : List ItemSet}

/-- Each kernel is the one of some string with a valid item. -/
theorem exists_seeds (hg : g.WellFormed) (hf : f.Exact g) (h : Generated g f mode kernels)
    {kernel : ItemSet} (hkernel : kernel ∈ kernels) :
    ∃ γ, Seeds g γ kernel ∧ ∃ c, ValidCore g γ c := by
  induction h generalizing kernel with
  | start =>
    rw [List.mem_singleton.1 hkernel]
    exact ⟨[], seeds_startKernel, _, .start⟩
  | @create _ parent made x _ hparent hx _ ih =>
    rcases List.mem_append.1 hkernel with hkernel | hkernel
    · exact ih hkernel
    · obtain ⟨γ, hseeds, -⟩ := ih hparent
      have hmade : Seeds g (γ ++ [x]) made := seeds_of_transitions (hseeds.recognizes hg hf) hx
      obtain ⟨c, hc⟩ := exists_has_of_transitions hx
      rw [List.mem_singleton.1 hkernel]
      exact ⟨γ ++ [x], hmade, c, ((hmade.has_iff c).1 hc).validCore⟩

/-- No kernel matches one behind it. -/
theorem pairwise (h : Generated g f mode kernels) :
    kernels.Pairwise fun found kernel => ¬ mode.Matches found kernel := by
  induction h with
  | start => exact List.pairwise_singleton _ _
  | create _ _ _ hfresh ih =>
    refine List.pairwise_append.2 ⟨ih, List.pairwise_singleton _ _, fun found hfound kernel hkernel => ?_⟩
    rw [List.mem_singleton.1 hkernel]
    exact hfresh found hfound

end Generated

/-! ## The kernels of a construction -/

namespace Construction

variable {c d : Construction}

def kernels (c : Construction) : List ItemSet := c.allNodes.map (·.kernel)

theorem getElem?_kernels (c : Construction) (i : StateId) : c.kernels[i]? = c.kernel? i :=
  List.getElem?_map

theorem mem_kernels {kernel : ItemSet} :
    kernel ∈ c.kernels ↔ ∃ i : StateId, c.kernel? i = some kernel := by
  simp only [List.mem_iff_getElem?, getElem?_kernels]

theorem kernel_mem_kernels {k : Nat} (hk : k < c.nodes.size) : c.nodes[k].kernel ∈ c.kernels :=
  mem_kernels.2 ⟨k, kernel?_eq_some_iff.2 ⟨_, getElem?_allNodes_eq_some hk, rfl⟩⟩

theorem kernels_create (c : Construction) (kernel : ItemSet) :
    (c.create kernel).1.kernels = c.kernels ++ [kernel] := by
  rw [kernels, allNodes_create, List.map_append]
  rfl

theorem kernels_modify (c : Construction) (k : Nat) {h : Node → Node}
    (hkernel : ∀ node, (h node).kernel = node.kernel) : (c.modify k h).kernels = c.kernels := by
  have hnodes : (c.nodes.toList.modify k h).map (·.kernel) = c.nodes.toList.map (·.kernel) := by
    refine List.ext_getElem? fun i => ?_
    rw [List.getElem?_map, List.getElem?_map, List.getElem?_modify]
    cases c.nodes.toList[i]? with
    | none => rfl
    | some node => by_cases hik : k = i <;> simp [hik, hkernel]
  simp only [kernels, allNodes, modify, Array.toList_modify, List.map_append, hnodes]

theorem kernels_close (c : Construction) (k : StateId) : (c.close g f k).kernels = c.kernels :=
  c.kernels_modify k fun _ => rfl

theorem kernels_expand {k : StateId} {node : Node} (hnode : c.nodes[k]? = some node) :
    (expand g f mode c k).kernels = ((transitions g (closure g f node.items)).entries.foldl
      (link mode) (c.close g f k, .empty)).1.kernels := by
  rw [expand_eq hnode]
  exact kernels_modify _ k fun _ => rfl

theorem kernels_commit (c : Construction) : c.commit.kernels = c.kernels := by
  rw [kernels, allNodes_commit, kernels]

theorem kernels_of_created {c : Construction} (hcreated : c.created = #[]) :
    c.kernels = c.nodes.toList.map (·.kernel) := by
  rw [kernels, allNodes, hcreated]
  simp

/-- States that are there keep their kernels. -/
theorem Grows.kernels_prefix (h : Grows c d) : c.kernels <+: d.kernels := by
  refine List.prefix_iff_getElem?.2 fun i hi => ?_
  have hget : c.kernel? i = some c.kernels[i] := by
    rw [← getElem?_kernels, List.getElem?_eq_getElem hi]
  rw [getElem?_kernels]
  exact h.kernel? hget

section Generating

variable (hg : g.WellFormed) (hf : f.Exact g)
include hg hf

theorem generated_link (hc : c.Numbered g f) (h : Generated g f mode c.kernels)
    {parent kernel : ItemSet} (hparent : parent ∈ c.kernels) {x : SymbolId}
    (hx : (transitions g (closure g f parent)).find? x = some kernel)
    (edges : OrderedMap SymbolId StateId) :
    Generated g f mode (link mode (c, edges) (x, kernel)).1.kernels := by
  unfold link
  cases hfind : c.findNode mode kernel with
  | some target => simpa only [hfind] using h
  | none =>
    simp only [hfind, kernels_create]
    refine .create h hparent hx fun found hfound => ?_
    obtain ⟨i, hi⟩ := mem_kernels.1 hfound
    exact not_matches_of_findNode hg hf hc (ItemSet.advanced_of_transitions hx) hfind hi

/-- Linking the transitions of a state that is there. -/
theorem generated_foldl_link (hc : c.Numbered g f) (h : Generated g f mode c.kernels)
    {parent : ItemSet} (hparent : parent ∈ c.kernels) :
    Generated g f mode ((transitions g (closure g f parent)).entries.foldl (link mode)
      (c, .empty)).1.kernels := by
  obtain ⟨i, hi⟩ := mem_kernels.1 hparent
  have hrange := ItemSet.inRange_closure hg hf (hc.inRange hi)
  -- The construction stays numbered, and the state stays there.
  let I : Construction × OrderedMap SymbolId StateId → Prop := fun acc =>
    acc.1.Numbered g f ∧ parent ∈ acc.1.kernels ∧ Generated g f mode acc.1.kernels
  have hlast : I ((transitions g (closure g f parent)).entries.foldl (link mode) (c, .empty)) := by
    refine foldl_keeps I (fun acc e he hacc => ?_) ⟨hc, hparent, h⟩
    obtain ⟨d, edges⟩ := acc
    obtain ⟨x, kernel⟩ := e
    obtain ⟨hd, hmem, hgenerated⟩ := hacc
    have hx := OrderedMap.find?_eq_some_iff.2 he
    obtain ⟨hd', hgrows, -⟩ := link_spec mode hg hf hd (ItemSet.advanced_of_transitions hx)
      (ItemSet.inRange_of_transitions hrange hx) edges x
    exact ⟨hd', hgrows.kernels_prefix.subset hmem, generated_link hg hf hd hgenerated hmem hx edges⟩
  exact hlast.2.2

theorem generated_expand {k : Nat} (hc : c.Progress g f mode k) (hk : k < c.nodes.size)
    (h : Generated g f mode c.kernels) : Generated g f mode (expand g f mode c k).kernels := by
  rw [kernels_expand (Array.getElem?_eq_getElem hk),
    hc.items_eq_kernel (getElem?_allNodes_eq_some hk)]
  refine generated_foldl_link hg hf (hc.numbered_close hk) ?_ ?_
  · rwa [kernels_close]
  · rw [kernels_close]
    exact kernel_mem_kernels hk

theorem lasting_generated : Lasting g f mode fun c => Generated g f mode c.kernels where
  expand hc hk h := generated_expand hg hf hc hk h
  commit {c} h := by rwa [kernels_commit]

end Generating

end Construction

/-! ## The states of an automaton -/

namespace Automaton

/-- Every state holds the valid items of some string. -/
def Recognizing (g : Grammar) (a : Automaton) : Prop :=
  ∀ (q : Nat) (node : Node), a.nodes[q]? = some node →
    ∃ γ, Recognizes g γ node.items ∧ Seeds g γ node.kernel ∧ ∃ c, ValidCore g γ c

variable (hg : g.WellFormed) (hf : f.Exact g)
include hg hf

theorem generated_ofGrammar :
    Generated g f mode ((ofGrammar g f mode).nodes.toList.map (·.kernel)) := by
  have hlasting : Construction.Lasting g f mode fun c => Generated g f mode c.kernels :=
    Construction.lasting_generated hg hf
  obtain ⟨d, passes, heq, -, hcreated, h⟩ := exists_construction hg hf hlasting .start
  rw [heq, ← Construction.kernels_of_created hcreated]
  exact h

theorem recognizing_ofGrammar : (ofGrammar g f mode).Recognizing g := by
  intro q node hq
  have hmem : node.kernel ∈ (ofGrammar g f mode).nodes.toList.map (·.kernel) :=
    List.mem_map_of_mem (Array.mem_toList_iff.2 (Array.mem_of_getElem? hq))
  obtain ⟨γ, hseeds, hvalid⟩ := (generated_ofGrammar hg hf).exists_seeds hg hf hmem
  refine ⟨γ, ?_, hseeds, hvalid⟩
  rw [(linked_ofGrammar hg hf).items_eq hq]
  exact hseeds.recognizes hg hf

omit hf in
/-- No two states hold the valid items of one string. -/
theorem Recognizing.eq_of_recognizes {a : Automaton} (ha : a.Linked g f mode)
    (hpaths : a.Recognizing g) {q r : Nat} {node other : Node} (hq : a.nodes[q]? = some node)
    (hr : a.nodes[r]? = some other) {γ : List SymbolId} (hγ : Recognizes g γ node.items)
    (hγ' : Recognizes g γ other.items) : q = r := by
  obtain ⟨δ, hδ, hseeds, -⟩ := hpaths q node hq
  obtain ⟨ε, hε, hseeds', -⟩ := hpaths r other hr
  have hsame := (hseeds.of_recognizes hg hδ hγ).same (hseeds'.of_recognizes hg hε hγ')
  exact ha.distinct (congrArg (Option.map Node.kernel) hq) (congrArg (Option.map Node.kernel) hr)
    hsame

end Automaton

theorem Parser.recognizing_of_build {rules : List Rule} {start : Symbol} {p : Parser}
    (h : Parser.build rules start mode = .ok p) : p.automaton.Recognizing p.grammar := by
  obtain ⟨hg, hp⟩ := eq_ofGrammar_of_build h
  have hwf := Grammar.wellFormed_of_ofRules hg
  rw [← hp]
  exact Automaton.recognizing_ofGrammar hwf (FirstSets.exact_ofGrammar hwf)

end ShiftReduce
