import ShiftReduce.OrderedSet
import ShiftReduce.Saturation

/-!
# Passes that are made of growing steps

A pass folds a step over a list.  Where every step adds to a weight or changes nothing, a pass
that leaves a value alone is made of steps that leave it alone.  With a bound on the weight,
saturation ends in such a value, and each of its steps is then a closure property of the result.

    pass a = (l a).foldl step a → … → x ∈ l s → step s x = s,  s = saturate pass weight fuel a
                                                                        (step_saturate)
-/

namespace ShiftReduce

section Steps

variable {α β : Type} {step : α → β → α} {weight : α → Nat}

theorem weight_le_foldl (grows : ∀ a x, weight a ≤ weight (step a x)) (l : List β) (a : α) :
    weight a ≤ weight (l.foldl step a) := by
  induction l generalizing a with
  | nil => exact Nat.le_refl _
  | cons x l ih => exact Nat.le_trans (grows a x) (ih (step a x))

theorem step_eq_of_weight_foldl (grows : ∀ a x, weight a ≤ weight (step a x))
    (still : ∀ a x, weight (step a x) = weight a → step a x = a) {l : List β} {a : α}
    (h : weight (l.foldl step a) = weight a) : ∀ x ∈ l, step a x = a := by
  induction l generalizing a with
  | nil => intro x hx; cases hx
  | cons y l ih =>
    have hfirst := grows a y
    have hrest := weight_le_foldl grows l (step a y)
    rw [List.foldl_cons] at h
    have hy : step a y = a := still a y (by omega)
    rw [hy] at h
    intro x hx
    rcases List.mem_cons.1 hx with rfl | hx
    · exact hy
    · exact ih h x hx

theorem foldl_eq_of_step_eq {l : List β} {a : α} (h : ∀ x ∈ l, step a x = a) :
    l.foldl step a = a := by
  induction l with
  | nil => rfl
  | cons x l ih =>
    rw [List.foldl_cons, h x List.mem_cons_self]
    exact ih fun y hy => h y (List.mem_cons_of_mem x hy)

/-- The value that saturation ends in is left alone by every step of the pass. -/
theorem step_saturate (grows : ∀ a x, weight a ≤ weight (step a x))
    (still : ∀ a x, weight (step a x) = weight a → step a x = a)
    {pass : α → α} {l : α → List β} (hpass : ∀ a, pass a = (l a).foldl step a)
    (P : α → Prop) (keeps : ∀ a, P a → P (pass a)) {bound : Nat}
    (bounded : ∀ a, P a → weight a ≤ bound) {fuel : Nat} {a : α} (h : P a)
    (enough : bound < weight a + fuel) :
    ∀ x ∈ l (saturate pass weight fuel a),
      step (saturate pass weight fuel a) x = saturate pass weight fuel a := by
  have hgrows : ∀ a, P a → weight a ≤ weight (pass a) := fun a _ => by
    rw [hpass]
    exact weight_le_foldl grows _ a
  have hstill : ∀ a, P a → weight (pass a) = weight a → pass a = a := fun a _ heq => by
    rw [hpass] at heq ⊢
    exact foldl_eq_of_step_eq (step_eq_of_weight_foldl grows still heq)
  have hfixed := pass_saturate keeps hgrows hstill bounded fuel a h enough
  rw [hpass] at hfixed
  exact step_eq_of_weight_foldl grows still (congrArg weight hfixed)

theorem foldl_keeps (P : α → Prop) {l : List β} (keeps : ∀ a x, x ∈ l → P a → P (step a x))
    {a : α} (h : P a) : P (l.foldl step a) := by
  induction l generalizing a with
  | nil => exact h
  | cons x l ih =>
    exact ih (fun a y hy => keeps a y (List.mem_cons_of_mem x hy))
      (keeps a x List.mem_cons_self h)

end Steps

/-! ## Weights of sets and lists -/

namespace OrderedSet

theorem size_insert (s : OrderedSet) (a : Nat) :
    (s.insert a).size = if a ∈ s then s.size else s.size + 1 := by
  by_cases h : a ∈ s
  · rw [insert_of_mem h, if_pos h]
  · rw [if_neg h, size, toList_insert_of_not_mem h, List.length_append]
    rfl

theorem size_le_size_union (s t : OrderedSet) : s.size ≤ (s.union t).size :=
  (prefix_union s t).length_le

theorem union_eq_of_size {s t : OrderedSet} (h : (s.union t).size = s.size) : s.union t = s :=
  (ext_toList ((prefix_union s t).eq_of_length h.symm)).symm

theorem mem_of_union_eq {s t : OrderedSet} (h : s.union t = s) {a : Nat} (ha : a ∈ t) : a ∈ s := by
  rw [← h, mem_union]
  exact Or.inr ha

/-- A set whose members are members of a list is no longer than the list. -/
theorem size_le_length {s : OrderedSet} {l : List Nat} (h : ∀ a, a ∈ s → a ∈ l) :
    s.size ≤ l.length :=
  s.nodup.length_le_of_subset fun a ha => h a ha

theorem size_le_of_forall_lt {s : OrderedSet} {n : Nat} (h : ∀ a, a ∈ s → a < n) : s.size ≤ n := by
  have := size_le_length (l := List.range n) fun a ha => List.mem_range.2 (h a ha)
  rwa [List.length_range] at this

/-- A set is smaller than one that has all its members exactly if it lacks one of them. -/
theorem size_lt_size_iff {s t : OrderedSet} (h : ∀ a, a ∈ s → a ∈ t) :
    s.size < t.size ↔ ∃ a, a ∈ t ∧ ¬ a ∈ s := by
  constructor
  · intro hlt
    apply Classical.byContradiction
    intro hnone
    have hle : t.size ≤ s.size := size_le_length fun a ha =>
      Decidable.byContradiction fun has => hnone ⟨a, ha, has⟩
    omega
  · rintro ⟨a, ha, has⟩
    have hsize : (s.insert a).size = s.size + 1 := by rw [size_insert, if_neg has]
    have hle : (s.insert a).size ≤ t.size := size_le_length fun b hb => by
      rcases mem_insert.1 hb with hb | rfl
      · exact h b hb
      · exact ha
    omega

end OrderedSet

section Total

variable {α : Type} (weight : α → Nat)

theorem total_le {l : List α} {bound : Nat} (h : ∀ a ∈ l, weight a ≤ bound) :
    total weight l ≤ l.length * bound := by
  induction l with
  | nil => simp [total]
  | cons a l ih =>
    have ha := h a List.mem_cons_self
    have hl := ih fun b hb => h b (List.mem_cons_of_mem a hb)
    rw [total, List.length_cons, Nat.succ_mul]
    omega

theorem total_modify_of_le {f : α → α} (grows : ∀ a, weight a ≤ weight (f a)) (l : List α)
    (i : Nat) : total weight l ≤ total weight (l.modify i f) := by
  induction l generalizing i with
  | nil => simp [total]
  | cons a l ih =>
    cases i with
    | zero =>
      have := grows a
      simp only [List.modify_zero_cons, total]
      omega
    | succ i =>
      have := ih i
      simp only [List.modify_succ_cons, total]
      omega

theorem modify_eq_of_total {f : α → α}
    (still : ∀ a, weight (f a) = weight a → f a = a) {l : List α} {i : Nat}
    (h : total weight (l.modify i f) = total weight l) : l.modify i f = l := by
  induction l generalizing i with
  | nil => simp
  | cons a l ih =>
    cases i with
    | zero =>
      simp only [List.modify_zero_cons, total] at h ⊢
      rw [still a (by omega)]
    | succ i =>
      simp only [List.modify_succ_cons, total] at h ⊢
      rw [ih (by omega)]

end Total

end ShiftReduce
