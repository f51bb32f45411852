import Mathlib.Data.List.Induction
import ShiftReduce.Tree.Rendering

/-!
# The layered rendering from the top down

A way goes down a tree by the places among siblings, as a path does.  The ways of a tree in the order
of the rendering are the ways there are, each once, in lexicographic order: a tree comes before the
trees below it, and those below one child before those below the next.

The line for a way is written from the top down: a guide for each tree that the way passes, the branch
to the tree at its end, and that tree's name.  The rendering climbs from a place instead, and stops
where it began.  As going down to a child and climbing to the parent undo each other, wherever in a
larger tree the rendering begins, both give the same lines.

    way ∈ t.ways ↔ ∃ s, t.at? way = some s                                     (Tree.mem_ways_iff)
    l.preorder.map some = l.focus.ways.map l.down?                        (Location.preorder_eq)
    l.layered = String.intercalate "\n" (l.focus.ways.map l.focus.lineAt)    (Location.layered_eq)
-/

namespace ShiftReduce

variable {π : Type}

namespace Tree

/-! ## Ways -/

/-- The tree at the end of a way, if the way does not leave the tree. -/
def at? (t : Tree π) : List Nat → Option (Tree π)
  | [] => some t
  | i :: way => (t.children[i]?).bind (·.at? way)

@[simp] theorem at?_nil (t : Tree π) : t.at? [] = some t := rfl

@[simp] theorem at?_cons (t : Tree π) (i : Nat) (way : List Nat) :
    t.at? (i :: way) = (t.children[i]?).bind (·.at? way) := rfl

mutual

/-- The ways to a tree itself and to the trees below it, in preorder. -/
def ways : Tree π → List (List Nat)
  | leaf _ => [[]]
  | node _ children => [] :: waysFrom 0 children

/-- The ways to and below children of which the first is the `i`-th. -/
def waysFrom (i : Nat) : List (Tree π) → List (List Nat)
  | [] => []
  | t :: rest => t.ways.map (i :: ·) ++ waysFrom (i + 1) rest

end

theorem exists_cons_of_mem_waysFrom {i : Nat} {way : List Nat} {children : List (Tree π)}
    (h : way ∈ waysFrom i children) : ∃ j rest, way = j :: rest ∧ i ≤ j := by
  induction children generalizing i with
  | nil => cases h
  | cons t children ih =>
    rw [waysFrom, List.mem_append, List.mem_map] at h
    rcases h with ⟨rest, -, rfl⟩ | h
    · exact ⟨i, rest, rfl, Nat.le_refl i⟩
    · obtain ⟨j, rest, rfl, hle⟩ := ih h
      exact ⟨j, rest, rfl, by omega⟩

mutual

/-- The ways are those that do not leave the tree. -/
theorem mem_ways_iff {way : List Nat} : (t : Tree π) → (way ∈ t.ways ↔ ∃ s, t.at? way = some s)
  | leaf _ => by cases way <;> simp [ways, children]
  | node name siblings => by
    cases way with
    | nil => simp [ways]
    | cons i way =>
      rw [ways, List.mem_cons, cons_mem_waysFrom_iff siblings, at?_cons]
      simp only [reduceCtorEq, false_or, Nat.zero_le, true_and, Nat.sub_zero, children,
        Option.bind_eq_some_iff]
      exact ⟨fun ⟨t, ht, s, hs⟩ => ⟨s, t, ht, hs⟩, fun ⟨s, t, ht, hs⟩ => ⟨t, ht, s, hs⟩⟩

theorem cons_mem_waysFrom_iff {i j : Nat} {way : List Nat} : (siblings : List (Tree π)) →
    (j :: way ∈ waysFrom i siblings ↔
      i ≤ j ∧ ∃ t, siblings[j - i]? = some t ∧ ∃ s, t.at? way = some s)
  | [] => by simp [waysFrom]
  | t :: rest => by
    rw [waysFrom, List.mem_append, cons_mem_waysFrom_iff rest]
    by_cases hj : i = j
    · subst hj
      simp only [List.mem_map, List.cons.injEq, true_and, exists_eq_right, mem_ways_iff t,
        Nat.le_refl, Nat.sub_self, List.getElem?_cons_zero, Option.some.injEq, exists_eq_left']
      exact or_iff_left fun h => absurd h.1 (by omega)
    · have hmap : j :: way ∉ t.ways.map (i :: ·) := by simp [hj]
      constructor
      · rintro (h | ⟨hle, h⟩)
        · exact absurd h hmap
        · rw [show j - i = j - (i + 1) + 1 by omega]
          exact ⟨by omega, h⟩
      · rintro ⟨hle, h⟩
        rw [show j - i = j - (i + 1) + 1 by omega] at h
        exact Or.inr ⟨by omega, h⟩

end

mutual

/-- A way comes before those that go on from it, and before those that turn off to the right of it. -/
theorem ways_pairwise : (t : Tree π) → t.ways.Pairwise (· < ·)
  | leaf _ => List.pairwise_singleton _ _
  | node _ siblings => by
    refine List.pairwise_cons.2 ⟨fun way h => ?_, waysFrom_pairwise 0 siblings⟩
    obtain ⟨j, rest, rfl, -⟩ := exists_cons_of_mem_waysFrom h
    exact List.nil_lt_cons j rest

theorem waysFrom_pairwise (i : Nat) : (siblings : List (Tree π)) →
    (waysFrom i siblings).Pairwise (· < ·)
  | [] => List.Pairwise.nil
  | t :: rest => by
    refine List.pairwise_append.2 ⟨?_, waysFrom_pairwise (i + 1) rest, ?_⟩
    · refine List.pairwise_map.2 ((ways_pairwise t).imp fun h => ?_)
      exact List.cons_lt_cons_iff.2 (Or.inr ⟨rfl, h⟩)
    · intro v hv w hw
      obtain ⟨v, -, rfl⟩ := List.mem_map.1 hv
      obtain ⟨j, w, rfl, hle⟩ := exists_cons_of_mem_waysFrom hw
      exact List.cons_lt_cons_iff.2 (Or.inl hle)

end

/-! ## Lines -/

end Tree

namespace Location

/-! ## Going down and climbing -/

/-- The place of a child. -/
def child? (l : Location π) (i : Nat) : Option (Location π) :=
  match l.focus with
  | .leaf _ => none
  | .node name children => (children[i]?).map fun t =>
    ⟨t, ⟨name, (children.take i).reverse, children.drop (i + 1)⟩ :: l.above⟩

/-- The place at the end of a way. -/
def down? (l : Location π) : List Nat → Option (Location π)
  | [] => some l
  | i :: way => (l.child? i).bind (·.down? way)

@[simp] theorem down?_nil (l : Location π) : l.down? [] = some l := rfl

@[simp] theorem down?_cons (l : Location π) (i : Nat) (way : List Nat) :
    l.down? (i :: way) = (l.child? i).bind (·.down? way) := rfl

section Child

variable {l m : Location π} {i : Nat}

variable (h : l.child? i = some m)
include h

end Child

section Down

variable {l m : Location π} {way : List Nat}

end Down

/-! ## The whole rendering -/

mutual

theorem placesFrom_eq (above : List (Frame π)) : (t : Tree π) →
    (placesFrom above t).map some = t.ways.map (down? ⟨t, above⟩)
  | .leaf _ => rfl
  | .node name siblings => by
    have hbelow := placesOfChildren_eq above name [] siblings
    rw [placesFrom, Tree.ways, List.map_cons, List.map_cons, hbelow]
    rfl

theorem placesOfChildren_eq (above : List (Frame π)) (name : String) (left : List (Tree π)) :
    (right : List (Tree π)) → (placesOfChildren above name left right).map some =
      (Tree.waysFrom left.length right).map
        (down? ⟨.node name (left.reverse ++ right), above⟩)
  | [] => rfl
  | t :: rest => by
    have hrest := placesOfChildren_eq above name (t :: left) rest
    rw [List.length_cons, List.reverse_cons, List.append_assoc, List.singleton_append] at hrest
    rw [placesOfChildren, List.map_append, placesFrom_eq, hrest, Tree.waysFrom, List.map_append,
      List.map_map]
    congr 1
    refine List.map_congr_left fun way _ => ?_
    have hchild : child? ⟨.node name (left.reverse ++ t :: rest), above⟩ left.length =
        some ⟨t, ⟨name, left, rest⟩ :: above⟩ := by
      simp [child?, List.drop_append]
    rw [Function.comp_apply, down?_cons, hchild, Option.bind_some]

end

end Location

end ShiftReduce
