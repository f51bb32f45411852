import Mathlib.Data.Fintype.EquivFin
import ShiftReduce.Proofs.Generation

/-!
# Merged states

Every state of the superset automaton is a state of the canonical automaton, for the string along
which it was created: superset mode leaves states out, it does not make other ones.  If it leaves
none out, then each kernel that comes up in its construction is the kernel of one of its states.  No
state before that one contains the kernel, so both modes find the same state, or neither finds one,
and the two constructions go the same way.

    nodes[i]? = some node → ∃ j twin, …nodes[j]? = some twin ∧ node.kernel.same twin.kernel = true ∧ …
                                                                             (exists_twin)
    Unmerged g f kernels → c.kernels <+: kernels →
      c.findNode .superset kernel = c.findNode .canonical kernel        (Unmerged.findNode_eq)
    (ofGrammar g f .superset).size = (ofGrammar g f .canonical).size →
      ofGrammar g f .superset = ofGrammar g f .canonical             (eq_canonical_of_size_eq)
-/

namespace ShiftReduce

variable {g : Grammar} {f : FirstSets} {mode : MergeMode} {γ : List SymbolId}

/-! ## Twins -/

namespace Automaton

section Twins

variable (hg : g.WellFormed) (hf : f.Exact g)
include hg hf

/-- The canonical automaton has a state for each string with a valid item. -/
theorem exists_canonical {c : Core} (hc : ValidCore g γ c) : ∃ (q : Nat) (node : Node),
    (ofGrammar g f .canonical).nodes[q]? = some node ∧ Recognizes g γ node.items ∧
      Seeds g γ node.kernel := by
  rcases recognizes_follow? hg hf (linked_ofGrammar hg hf) γ with
    ⟨-, hinvalid⟩ | ⟨q, node, -, hnode, hγ, -⟩
  · exact absurd hc (hinvalid c)
  · obtain ⟨δ, hδ, hseeds, -⟩ := recognizing_ofGrammar hg hf q node hnode
    exact ⟨q, node, hnode, hγ, hseeds.of_recognizes hg hδ hγ⟩

/-- Every state has the kernel and the items of a canonical state. -/
theorem exists_twin {i : Nat} {node : Node} (hi : (ofGrammar g f mode).nodes[i]? = some node) :
    ∃ (j : Nat) (twin : Node), (ofGrammar g f .canonical).nodes[j]? = some twin ∧
      node.kernel.same twin.kernel = true ∧ node.items.same twin.items = true := by
  obtain ⟨γ, hγ, hseeds, c, hc⟩ := recognizing_ofGrammar hg hf i node hi
  obtain ⟨j, twin, hj, hγ', hseeds'⟩ := exists_canonical hg hf hc
  exact ⟨j, twin, hj, hseeds.same hseeds', hγ.same hγ'⟩

/-- Different states have different twins. -/
theorem exists_twins : ∃ twin : Fin (ofGrammar g f mode).nodes.size →
      Fin (ofGrammar g f .canonical).nodes.size, Function.Injective twin ∧
    ∀ i : Fin (ofGrammar g f mode).nodes.size, ∃ a b, (ofGrammar g f mode).kernel? i = some a ∧
      (ofGrammar g f .canonical).kernel? (twin i) = some b ∧ a.same b = true := by
  have htwin : ∀ i : Fin (ofGrammar g f mode).nodes.size,
      ∃ j : Fin (ofGrammar g f .canonical).nodes.size, ∃ a b,
        (ofGrammar g f mode).kernel? i = some a ∧
        (ofGrammar g f .canonical).kernel? j = some b ∧ a.same b = true := by
    intro i
    have hi := Array.getElem?_eq_getElem i.isLt
    obtain ⟨j, twin, hj, hsame, -⟩ := exists_twin hg hf hi
    exact ⟨⟨j, (Array.getElem?_eq_some_iff.1 hj).1⟩, _, _, congrArg (Option.map Node.kernel) hi,
      congrArg (Option.map Node.kernel) hj, hsame⟩
  choose twin htwin using htwin
  refine ⟨twin, fun i j hij => Fin.ext ?_, htwin⟩
  obtain ⟨a, b, ha, hb, hsame⟩ := htwin i
  obtain ⟨a', b', ha', hb', hsame'⟩ := htwin j
  rw [hij, hb'] at hb
  obtain rfl := Option.some.inj hb
  exact (linked_ofGrammar hg hf).distinct ha ha'
    (ItemSet.same_trans hsame (ItemSet.same_symm hsame'))

theorem size_le_canonical : (ofGrammar g f mode).size ≤ (ofGrammar g f .canonical).size := by
  obtain ⟨twin, hinjective, -⟩ := @exists_twins g f mode hg hf
  have hcard := Fintype.card_le_of_injective twin hinjective
  rwa [Fintype.card_fin, Fintype.card_fin] at hcard

/-- With as many states as the canonical automaton, every canonical state is a twin. -/
theorem exists_same_of_size_eq (hsize : (ofGrammar g f mode).size = (ofGrammar g f .canonical).size)
    {j : Nat} {kernel : ItemSet} (hj : (ofGrammar g f .canonical).kernel? j = some kernel) :
    ∃ i found, (ofGrammar g f mode).kernel? i = some found ∧ found.same kernel = true := by
  obtain ⟨twin, hinjective, htwin⟩ := @exists_twins g f mode hg hf
  have hcard : Fintype.card (Fin (ofGrammar g f mode).nodes.size) =
      Fintype.card (Fin (ofGrammar g f .canonical).nodes.size) := by
    rw [Fintype.card_fin, Fintype.card_fin]
    exact hsize
  have hsurjective := ((Fintype.bijective_iff_injective_and_card twin).2 ⟨hinjective, hcard⟩).2
  obtain ⟨node, hnode, -⟩ := exists_node_of_kernel? hj
  obtain ⟨i, hi⟩ := hsurjective ⟨j, (Array.getElem?_eq_some_iff.1 hnode).1⟩
  obtain ⟨a, b, ha, hb, hsame⟩ := htwin i
  rw [hi, hj] at hb
  obtain rfl := Option.some.inj hb
  exact ⟨i, a, ha, hsame⟩

end Twins

end Automaton

/-! ## Constructions that merge nothing -/

/-- No kernel contains one behind it, and where the states of the kernels lead, there is one of the
kernels as well. -/
structure Unmerged (g : Grammar) (f : FirstSets) (kernels : List ItemSet) : Prop where
  pairwise : kernels.Pairwise fun found kernel => ¬ found.contains kernel = true
  closed : ∀ parent ∈ kernels, ∀ x kernel,
    (transitions g (closure g f parent)).find? x = some kernel →
      ∃ found ∈ kernels, found.same kernel = true

theorem unmerged_of_size_eq (hg : g.WellFormed) (hf : f.Exact g)
    (hsize : (Automaton.ofGrammar g f .superset).size = (Automaton.ofGrammar g f .canonical).size) :
    Unmerged g f ((Automaton.ofGrammar g f .superset).nodes.toList.map (·.kernel)) where
  pairwise := by
    have hgenerated : Generated g f .superset _ := Automaton.generated_ofGrammar hg hf
    exact hgenerated.pairwise
  closed := by
    intro parent hparent x kernel hx
    obtain ⟨γ, hseeds, -⟩ := (Automaton.generated_ofGrammar hg hf).exists_seeds hg hf hparent
    have hkernel := seeds_of_transitions (hseeds.recognizes hg hf) hx
    obtain ⟨c, hc⟩ := exists_has_of_transitions hx
    obtain ⟨j, node, hj, -, hnode⟩ :=
      Automaton.exists_canonical hg hf ((hkernel.has_iff c).1 hc).validCore
    obtain ⟨i, found, hi, hsame⟩ := Automaton.exists_same_of_size_eq hg hf hsize
      (congrArg (Option.map Node.kernel) hj)
    obtain ⟨node', hnode', rfl⟩ := Automaton.exists_node_of_kernel? hi
    exact ⟨_, List.mem_map_of_mem (Array.mem_toList_iff.2 (Array.mem_of_getElem? hnode')),
      ItemSet.same_trans hsame (hnode.same hkernel)⟩

theorem Unmerged.not_contains {kernels : List ItemSet} (h : Unmerged g f kernels) {i j : Nat}
    {a b : ItemSet} (hi : kernels[i]? = some a) (hj : kernels[j]? = some b) (hij : i < j) :
    ¬ a.contains b = true := by
  obtain ⟨hlt, rfl⟩ := List.getElem?_eq_some_iff.1 hi
  obtain ⟨hlt', rfl⟩ := List.getElem?_eq_some_iff.1 hj
  exact List.pairwise_iff_getElem.1 h.pairwise i j hlt hlt' hij

namespace Construction

variable {c : Construction} {kernels : List ItemSet} {kernel : ItemSet}

theorem getElem?_of_kernel? (hbegins : c.kernels <+: kernels) {i : Nat} {a : ItemSet}
    (hi : c.kernel? i = some a) : kernels[i]? = some a := by
  rw [← getElem?_kernels] at hi
  obtain ⟨hlt, rfl⟩ := List.getElem?_eq_some_iff.1 hi
  exact List.prefix_iff_getElem?.1 hbegins i hlt

theorem kernel?_of_le (hbegins : c.kernels <+: kernels) {i j : Nat} {a b : ItemSet}
    (hi : c.kernel? i = some a) (hij : j ≤ i) (hj : kernels[j]? = some b) :
    c.kernel? j = some b := by
  rw [← getElem?_kernels] at hi ⊢
  obtain ⟨hlt, -⟩ := List.getElem?_eq_some_iff.1 hi
  have hlt' : j < c.kernels.length := by omega
  rw [List.getElem?_eq_getElem hlt', ← List.prefix_iff_getElem?.1 hbegins j hlt', hj]

end Construction

section Agreeing

open Construction

variable {c : Construction} {kernels : List ItemSet} {kernel : ItemSet}

variable (hg : g.WellFormed) (hf : f.Exact g) (hkernels : Unmerged g f kernels)
  (hc : c.Numbered g f) (hbegins : c.kernels <+: kernels)
include hg hf hkernels hc hbegins

/-- The state that is found for one of the kernels has its place among them. -/
theorem Unmerged.eq_of_findNode (hkernel : kernel.Advanced) {i j : Nat}
    {found : ItemSet} (hj : kernels[j]? = some found) (hsame : found.same kernel = true)
    (hfind : c.findNode mode kernel = some i) : i = j := by
  obtain ⟨target, hi, hmatches⟩ := matches_of_findNode hg hf hc hkernel hfind
  have htarget := getElem?_of_kernel? hbegins hi
  rcases Nat.lt_trichotomy i j with hlt | heq | hlt
  · have hcontains := (ItemSet.contains_congr hsame).2 hmatches.contains
    exact absurd hcontains (hkernels.not_contains htarget hj hlt)
  · exact heq
  · cases mode with
    | canonical =>
      have hback := ItemSet.same_trans hsame (ItemSet.same_symm hmatches)
      exact absurd (ItemSet.contains_of_same hback) (hkernels.not_contains hj htarget hlt)
    | superset =>
      have hthere := kernel?_of_le hbegins hi (Nat.le_of_lt hlt) hj
      exact absurd (ItemSet.contains_of_same hsame)
        (not_contains_of_findNode hg hf hc hkernel hfind hlt hthere)

/-- For one of the kernels both modes find the same state, or none. -/
theorem Unmerged.findNode_eq (hkernel : kernel.Advanced)
    (hmem : ∃ found ∈ kernels, found.same kernel = true) :
    c.findNode .superset kernel = c.findNode .canonical kernel := by
  obtain ⟨found, hmem, hsame⟩ := hmem
  obtain ⟨j, hj⟩ := List.mem_iff_getElem?.1 hmem
  cases hsuperset : c.findNode .superset kernel with
  | none =>
    cases hcanonical : c.findNode .canonical kernel with
    | none => rfl
    | some i =>
      obtain ⟨target, hi, hmatches⟩ := matches_of_findNode hg hf hc hkernel hcanonical
      exact absurd hmatches.contains (not_matches_of_findNode hg hf hc hkernel hsuperset hi)
  | some i =>
    obtain rfl := hkernels.eq_of_findNode hg hf hc hbegins hkernel hj hsame hsuperset
    cases hcanonical : c.findNode .canonical kernel with
    | none =>
      obtain ⟨target, hi, -⟩ := matches_of_findNode hg hf hc hkernel hsuperset
      have hthere := kernel?_of_le hbegins hi (Nat.le_refl _) hj
      exact absurd hsame (not_matches_of_findNode hg hf hc hkernel hcanonical hthere)
    | some i' => rw [hkernels.eq_of_findNode hg hf hc hbegins hkernel hj hsame hcanonical]

end Agreeing

/-! ## The same construction -/

namespace Construction

variable {c : Construction} {kernels : List ItemSet}

/-- The kernels that are there first stay there. -/
theorem lasting_front (hg : g.WellFormed) (hf : f.Exact g) (front : List ItemSet) :
    Lasting g f mode fun c => front <+: c.kernels where
  expand {c k} hc hk h := by
    have hnode : c.nodes[k]? = some c.nodes[k] := Array.getElem?_eq_getElem hk
    obtain ⟨-, hgrows, -⟩ := foldl_link_transitions mode hg hf (hc.numbered_close hk)
      (hc.inRange_closure hg hf hk)
    rw [kernels_expand hnode]
    rw [← kernels_close (g := g) (f := f) c k] at h
    exact h.trans hgrows.kernels_prefix
  commit {c} h := by rwa [kernels_commit]

section Agreeing

variable (hg : g.WellFormed) (hf : f.Exact g) (hkernels : Unmerged g f kernels)
include hg hf hkernels

/-- Transitions are linked in the same way when none of their kernels is merged. -/
theorem foldl_link_eq (hc : c.Numbered g f) {l : List (SymbolId × ItemSet)}
    (hnodup : (l.map Prod.fst).Nodup) (hl : ∀ e ∈ l, e.2.Advanced ∧ e.2.InRange g)
    (hmem : ∀ e ∈ l, ∃ found ∈ kernels, found.same e.2 = true)
    (edges : OrderedMap SymbolId StateId)
    (hbegins : (l.foldl (link .superset) (c, edges)).1.kernels <+: kernels) :
    l.foldl (link .superset) (c, edges) = l.foldl (link .canonical) (c, edges) := by
  induction l generalizing c edges with
  | nil => rfl
  | cons e l ih =>
    obtain ⟨-, hgrows, -⟩ := foldl_link .superset hg hf hnodup hl hc edges
    obtain ⟨x, kernel⟩ := e
    obtain ⟨hkernel, hrange⟩ := hl (x, kernel) List.mem_cons_self
    have hfind := hkernels.findNode_eq hg hf hc (hgrows.kernels_prefix.trans hbegins) hkernel
      (hmem (x, kernel) List.mem_cons_self)
    have hlink : link .superset (c, edges) (x, kernel) = link .canonical (c, edges) (x, kernel) := by
      simp only [link, hfind]
    obtain ⟨hc', -, -⟩ := link_spec .superset hg hf hc hkernel hrange edges x
    rw [List.foldl_cons] at hbegins
    rw [List.foldl_cons, List.foldl_cons, ← hlink]
    exact ih hc' (List.nodup_cons.1 hnodup).2 (fun e he => hl e (List.mem_cons_of_mem _ he))
      (fun e he => hmem e (List.mem_cons_of_mem _ he)) _ hbegins

theorem expand_eq_canonical {k : Nat} (hc : c.Progress g f .superset k) (hk : k < c.nodes.size)
    (hbegins : (expand g f .superset c k).kernels <+: kernels) :
    expand g f .superset c k = expand g f .canonical c k := by
  have hnode : c.nodes[k]? = some c.nodes[k] := Array.getElem?_eq_getElem hk
  have hitems := hc.items_eq_kernel (getElem?_allNodes_eq_some hk)
  have hrange := hc.inRange_closure hg hf hk
  have hfront := (lasting_front hg hf c.kernels).expand hc hk List.prefix_rfl
  have hparent := (hfront.trans hbegins).subset (kernel_mem_kernels hk)
  rw [kernels_expand hnode] at hbegins
  rw [expand_eq hnode, expand_eq hnode, foldl_link_eq hg hf hkernels (hc.numbered_close hk)
    (transitions g (closure g f c.nodes[k].items)).nodup_keys ?_ ?_ .empty hbegins]
  · rintro ⟨x, kernel⟩ he
    have hx := OrderedMap.find?_eq_some_iff.2 he
    exact ⟨ItemSet.advanced_of_transitions hx, ItemSet.inRange_of_transitions hrange hx⟩
  · rintro ⟨x, kernel⟩ he
    rw [hitems] at he
    exact hkernels.closed _ hparent x kernel (OrderedMap.find?_eq_some_iff.2 he)

theorem foldl_expand_eq {k n : Nat} (hc : c.Progress g f .superset k) (hn : k + n ≤ c.nodes.size)
    (hbegins : ((List.range' k n).foldl (expand g f .superset) c).kernels <+: kernels) :
    (List.range' k n).foldl (expand g f .superset) c =
      (List.range' k n).foldl (expand g f .canonical) c := by
  induction n generalizing c k with
  | zero => rfl
  | succ n ih =>
    rw [List.range'_succ, List.foldl_cons] at hbegins
    rw [List.range'_succ, List.foldl_cons, List.foldl_cons]
    obtain ⟨hnext, hsize⟩ := hc.expand hg hf (by omega)
    obtain ⟨-, -, hfront⟩ := hnext.foldl_expand hg hf (lasting_front hg hf _) (n := n) (by omega)
      List.prefix_rfl
    rw [← expand_eq_canonical hg hf hkernels hc (by omega) (hfront.trans hbegins)]
    exact ih hnext (by omega) hbegins

theorem pass_eq {k n : Nat} (hc : c.Progress g f .superset k) (hn : k + n = c.nodes.size)
    (hbegins : (c.pass g f .superset (List.range' k n)).1.kernels <+: kernels) :
    c.pass g f .superset (List.range' k n) = c.pass g f .canonical (List.range' k n) := by
  have hfold := foldl_expand_eq hg hf hkernels hc (Nat.le_of_eq hn) (by
    rwa [← kernels_commit])
  unfold Construction.pass
  rw [hfold]

/-- The runs of both modes are the same when the superset run ends among the kernels. -/
theorem run_eq {k n fuel : Nat} (hc : c.Progress g f .superset k) (hn : k + n = c.nodes.size)
    (hcreated : c.created = #[]) (enough : Automaton.passLimit g ≤ k + fuel) (passes : List Nat)
    (hbegins : (Construction.run g f .superset fuel c (List.range' k n) passes).nodes.toList.map
      (·.kernel) <+: kernels) :
    Construction.run g f .superset fuel c (List.range' k n) passes =
      Construction.run g f .canonical fuel c (List.range' k n) passes := by
  induction fuel generalizing c k n passes with
  | zero => rfl
  | succ fuel ih =>
    cases n with
    | zero => simp only [Construction.run, List.range'_zero, List.isEmpty_nil, if_true]
    | succ n =>
      obtain ⟨d, hpass, hd, hle, hempty, -⟩ := hc.pass hg hf lasting_true hn trivial
      have hpending : (List.range' k (n + 1)).isEmpty = false := rfl
      have enough' : Automaton.passLimit g ≤ c.nodes.size + fuel := by omega
      simp only [Construction.run, hpending, hpass, Bool.false_eq_true, if_false] at hbegins ⊢
      -- The kernels after this pass stay, so they too are a beginning of the kernels.
      obtain ⟨e, passes', hrun, -, hempty', hfront⟩ := hd.run hg hf (lasting_front hg hf d.kernels)
        (n := d.nodes.size - c.nodes.size) (by omega) hempty enough' List.prefix_rfl
        (passes ++ [(List.range' k (n + 1)).length])
      have hlast : e.kernels <+: kernels := by
        rw [kernels_of_created hempty']
        rwa [hrun] at hbegins
      have hsame := pass_eq hg hf hkernels hc hn (by
        rw [hpass]
        exact hfront.trans hlast)
      rw [← hsame, hpass]
      exact ih hd (by omega) hempty enough' _ hbegins

end Agreeing

end Construction

/-- With as many states as the canonical automaton, the superset automaton is the same. -/
theorem Automaton.eq_canonical_of_size_eq (hg : g.WellFormed) (hf : f.Exact g)
    (hsize : (ofGrammar g f .superset).size = (ofGrammar g f .canonical).size) :
    ofGrammar g f .superset = ofGrammar g f .canonical :=
  Construction.run_eq hg hf (unmerged_of_size_eq hg hf hsize) (Construction.progress_initial hg)
    (k := 0) (n := 1) rfl rfl (Nat.le_of_eq (Nat.zero_add _).symm) [] List.prefix_rfl

/-! ## Built parsers -/

namespace Parser

variable {rules : List Rule} {start : Symbol} {c s : Parser}

/-- No two states of the superset automaton have the same kernel, and each has the kernel and the
items of a canonical state; so there are no more states than in the canonical automaton, and as many
only if the automata are one and the same. -/
theorem superset_states_canonical (hc : build rules start .canonical = .ok c)
    (hs : build rules start .superset = .ok s) :
    (∀ (i j : Nat) (a b : Node), s.automaton.nodes[i]? = some a → s.automaton.nodes[j]? = some b →
      a.kernel.same b.kernel = true → i = j) ∧
    (∀ (i : Nat) (node : Node), s.automaton.nodes[i]? = some node →
      ∃ (j : Nat) (twin : Node), c.automaton.nodes[j]? = some twin ∧
        node.kernel.same twin.kernel = true ∧ node.items.same twin.items = true) ∧
    s.automaton.size ≤ c.automaton.size ∧
    (s.automaton.size = c.automaton.size → s.automaton = c.automaton) := by
  have hbuilt := built_of_build hs
  have hgrammar : c.grammar = s.grammar := grammar_eq_of_build hs hc
  have hwf := hbuilt.wellFormed
  have hexact := FirstSets.exact_ofGrammar hwf
  have hcanonical : c.automaton =
      .ofGrammar s.grammar (.ofGrammar s.grammar) .canonical := by
    rw [← (eq_ofGrammar_of_build hc).2, hgrammar]
    rfl
  have hsuperset : s.automaton = .ofGrammar s.grammar (.ofGrammar s.grammar) .superset :=
    congrArg Parser.automaton (eq_ofGrammar_of_build hs).2.symm
  refine ⟨fun i j a b hi hj hsame => ?_, ?_, ?_, ?_⟩
  · exact hbuilt.linked.distinct (congrArg (Option.map Node.kernel) hi)
      (congrArg (Option.map Node.kernel) hj) hsame
  · rw [hcanonical, hsuperset]
    exact fun i node hi => Automaton.exists_twin hwf hexact hi
  · rw [hcanonical, hsuperset]
    exact Automaton.size_le_canonical hwf hexact
  · rw [hcanonical, hsuperset]
    exact Automaton.eq_canonical_of_size_eq hwf hexact

/-- After `x`, both `A -> x` and `B -> x` are complete; after `d x` only `A -> x` is. -/
def merging : List Rule :=
  [⟨.nonterminal "S", [.nonterminal "C"]⟩,
    ⟨.nonterminal "S", [.terminal "d", .nonterminal "A"]⟩,
    ⟨.nonterminal "C", [.nonterminal "A"]⟩,
    ⟨.nonterminal "C", [.nonterminal "B"]⟩,
    ⟨.nonterminal "A", [.terminal "x"]⟩,
    ⟨.nonterminal "B", [.terminal "x"]⟩]

/-- The superset automaton leaves out the state after `d x`; it leaves out none for nested pairs. -/
theorem superset_states_canonical_merging :
    (∃ c s, build merging (.nonterminal "S") .canonical = .ok c ∧
      build merging (.nonterminal "S") .superset = .ok s ∧
      s.automaton.size + 1 = c.automaton.size ∧
      ∀ (i : Nat) (node : Node), s.automaton.nodes[i]? = some node →
        ∃ (j : Nat) (twin : Node), c.automaton.nodes[j]? = some twin ∧
          node.kernel.same twin.kernel = true ∧ node.items.same twin.items = true) ∧
    ∃ c s, build nested (.nonterminal "S") .canonical = .ok c ∧
      build nested (.nonterminal "S") .superset = .ok s ∧ s.automaton = c.automaton := by
  constructor
  · obtain ⟨c, hc, hcsize⟩ : ∃ c, build merging (.nonterminal "S") .canonical = .ok c ∧
        decide (c.automaton.size = 9) = true := exists_of_any_build (by decide +kernel)
    obtain ⟨s, hs, hssize⟩ : ∃ s, build merging (.nonterminal "S") .superset = .ok s ∧
        decide (s.automaton.size = 8) = true := exists_of_any_build (by decide +kernel)
    refine ⟨c, s, hc, hs, ?_, (superset_states_canonical hc hs).2.1⟩
    rw [of_decide_eq_true hcsize, of_decide_eq_true hssize]
  · obtain ⟨c, hc, hcsize⟩ : ∃ c, build nested (.nonterminal "S") .canonical = .ok c ∧
        decide (c.automaton.size = 8) = true := exists_of_any_build (by decide +kernel)
    obtain ⟨s, hs, hssize⟩ : ∃ s, build nested (.nonterminal "S") .superset = .ok s ∧
        decide (s.automaton.size = 8) = true := exists_of_any_build (by decide +kernel)
    refine ⟨c, s, hc, hs, (superset_states_canonical hc hs).2.2.2 ?_⟩
    rw [of_decide_eq_true hcsize, of_decide_eq_true hssize]

end Parser

end ShiftReduce
