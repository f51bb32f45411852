import Mathlib.Logic.Relation

/-!
# Derivations

A relation `R` between symbols and strings of symbols says which rules there are.  `Derives R`
replaces one symbol after the other, at any place.  `Unfolds R n` is the same relation read along
the string: every symbol is kept, or is unfolded by a rule whose right side is unfolded in turn,
and `n` rules are applied in all.

    Derives R α β ↔ ∃ n, Unfolds R n α β                                  (derives_iff_unfolds)
    Derives R (α ++ γ) ε ↔ ∃ β δ, ε = β ++ δ ∧ Derives R α β ∧ Derives R γ δ
                                                                         (derives_append_iff)
    Begins R (α ++ γ) t ↔ Begins R α t ∨ Derives R α [] ∧ Begins R γ t    (begins_append_iff)
-/

namespace ShiftReduce

variable {σ τ : Type} {R : σ → List σ → Prop}

/-- One symbol is replaced by a right side of it. -/
inductive Rewrites (R : σ → List σ → Prop) : List σ → List σ → Prop
  | intro (α β : List σ) {x : σ} {right : List σ} :
      R x right → Rewrites R (α ++ x :: β) (α ++ right ++ β)

/-- Finitely many replacements lead from one string to the other. -/
def Derives (R : σ → List σ → Prop) : List σ → List σ → Prop :=
  Relation.ReflTransGen (Rewrites R)

/-- The string derives a string that begins with `t`. -/
def Begins (R : σ → List σ → Prop) (α : List σ) (t : σ) : Prop := ∃ β, Derives R α (t :: β)

/-- The symbols of a string are kept or unfolded from left to right, by `n` rules in all. -/
inductive Unfolds (R : σ → List σ → Prop) : Nat → List σ → List σ → Prop
  | nil : Unfolds R 0 [] []
  | keep (x : σ) {n : Nat} {α β : List σ} : Unfolds R n α β → Unfolds R n (x :: α) (x :: β)
  | unfold {x : σ} {right : List σ} {m n : Nat} {β α γ : List σ} :
      R x right → Unfolds R m right β → Unfolds R n α γ → Unfolds R (m + n + 1) (x :: α) (β ++ γ)

/-! ## Derivations in a context -/

namespace Derives

@[refl] theorem refl (α : List σ) : Derives R α α := Relation.ReflTransGen.refl

theorem trans {α β γ : List σ} (h : Derives R α β) (h' : Derives R β γ) : Derives R α γ :=
  Relation.ReflTransGen.trans h h'

theorem of_rule {x : σ} {right : List σ} (h : R x right) : Derives R [x] right := by
  have hstep : Rewrites R ([] ++ x :: []) ([] ++ right ++ []) := .intro [] [] h
  rw [List.nil_append, List.append_nil, List.nil_append] at hstep
  exact Relation.ReflTransGen.single hstep

theorem append_left {α β : List σ} (γ : List σ) (h : Derives R α β) :
    Derives R (γ ++ α) (γ ++ β) := by
  induction h with
  | refl => exact refl _
  | tail _ hstep ih =>
    refine Relation.ReflTransGen.tail ih ?_
    obtain ⟨δ, ε, hrule⟩ := hstep
    have := Rewrites.intro (γ ++ δ) ε hrule
    simpa only [List.append_assoc] using this

theorem append_right {α β : List σ} (γ : List σ) (h : Derives R α β) :
    Derives R (α ++ γ) (β ++ γ) := by
  induction h with
  | refl => exact refl _
  | tail _ hstep ih =>
    refine Relation.ReflTransGen.tail ih ?_
    obtain ⟨δ, ε, hrule⟩ := hstep
    have := Rewrites.intro δ (ε ++ γ) hrule
    simpa only [List.append_assoc, List.cons_append] using this

theorem append {α β γ δ : List σ} (h : Derives R α β) (h' : Derives R γ δ) :
    Derives R (α ++ γ) (β ++ δ) :=
  (h.append_right γ).trans (h'.append_left β)

end Derives

/-! ## Unfolding along a string -/

namespace Unfolds

theorem refl (α : List σ) : Unfolds R 0 α α := by
  induction α with
  | nil => exact .nil
  | cons x α ih => exact .keep x ih

theorem append {m n : Nat} {α β γ δ : List σ} (h : Unfolds R m α β) (h' : Unfolds R n γ δ) :
    Unfolds R (m + n) (α ++ γ) (β ++ δ) := by
  induction h with
  | nil => simpa using h'
  | keep x _ ih => exact .keep x ih
  | @unfold x right k l β α γ' hrule hright _ _ ih =>
    have hcount : k + l + 1 + n = k + (l + n) + 1 := by omega
    rw [hcount, List.append_assoc]
    exact .unfold hrule hright ih

/-- What a concatenation unfolds to is made of what its parts unfold to. -/
theorem split {n : Nat} {α γ ε : List σ} (h : Unfolds R n (α ++ γ) ε) :
    ∃ k l β δ, n = k + l ∧ ε = β ++ δ ∧ Unfolds R k α β ∧ Unfolds R l γ δ := by
  induction α generalizing n ε with
  | nil => exact ⟨0, n, [], ε, by omega, rfl, .nil, h⟩
  | cons x α ih =>
    cases h with
    | keep _ h =>
      obtain ⟨k, l, β, δ, rfl, rfl, hα, hγ⟩ := ih h
      exact ⟨k, l, x :: β, δ, rfl, rfl, .keep x hα, hγ⟩
    | @unfold _ right m _ β _ _ hrule hright h =>
      obtain ⟨k, l, β', δ, rfl, rfl, hα, hγ⟩ := ih h
      refine ⟨m + k + 1, l, β ++ β', δ, by omega, ?_, .unfold hrule hright hα, hγ⟩
      rw [List.append_assoc]

theorem derives {n : Nat} {α β : List σ} (h : Unfolds R n α β) : Derives R α β := by
  induction h with
  | nil => exact Derives.refl []
  | keep x _ ih => exact ih.append_left [x]
  | unfold hrule _ _ ihright ih =>
    exact ((Derives.of_rule hrule).trans ihright).append ih

theorem rewrite {n : Nat} {α α' β : List σ} (hstep : Rewrites R α α') (h : Unfolds R n α' β) :
    ∃ m, Unfolds R m α β := by
  obtain ⟨δ, ε, hrule⟩ := hstep
  obtain ⟨k, l, β', γ, -, rfl, hleft, hε⟩ := h.split
  obtain ⟨i, j, β₁, β₂, -, rfl, hδ, hright⟩ := hleft.split
  refine ⟨i + (j + l + 1), ?_⟩
  rw [List.append_assoc]
  exact hδ.append (.unfold hrule hright hε)

end Unfolds

theorem derives_iff_unfolds {α β : List σ} : Derives R α β ↔ ∃ n, Unfolds R n α β := by
  constructor
  · intro h
    induction h using Relation.ReflTransGen.head_induction_on with
    | refl => exact ⟨0, .refl β⟩
    | head hstep _ ih =>
      obtain ⟨n, h⟩ := ih
      exact h.rewrite hstep
  · rintro ⟨n, h⟩
    exact h.derives

theorem derives_append_iff {α γ ε : List σ} :
    Derives R (α ++ γ) ε ↔ ∃ β δ, ε = β ++ δ ∧ Derives R α β ∧ Derives R γ δ := by
  constructor
  · intro h
    obtain ⟨n, h⟩ := derives_iff_unfolds.1 h
    obtain ⟨k, l, β, δ, -, rfl, hα, hγ⟩ := h.split
    exact ⟨β, δ, rfl, hα.derives, hγ.derives⟩
  · rintro ⟨β, δ, rfl, hα, hγ⟩
    exact hα.append hγ

/-- A symbol without rules stands for itself. -/
theorem derives_singleton_iff {x : σ} {β : List σ} (h : ∀ right, ¬ R x right) :
    Derives R [x] β ↔ β = [x] := by
  constructor
  · intro hd
    obtain ⟨n, hu⟩ := derives_iff_unfolds.1 hd
    cases hu with
    | keep _ hnil => cases hnil; rfl
    | unfold hrule => exact absurd hrule (h _)
  · rintro rfl
    exact Derives.refl [x]

theorem derives_cons_nil_iff {x : σ} {α : List σ} :
    Derives R (x :: α) [] ↔ Derives R [x] [] ∧ Derives R α [] := by
  rw [← List.singleton_append, derives_append_iff]
  constructor
  · rintro ⟨β, δ, hnil, hx, hα⟩
    obtain ⟨rfl, rfl⟩ := List.nil_eq_append_iff.1 hnil
    exact ⟨hx, hα⟩
  · rintro ⟨hx, hα⟩
    exact ⟨[], [], rfl, hx, hα⟩

/-! ## What begins the derived strings -/

theorem begins_append_iff {α γ : List σ} {t : σ} :
    Begins R (α ++ γ) t ↔ Begins R α t ∨ (Derives R α [] ∧ Begins R γ t) := by
  constructor
  · rintro ⟨β, h⟩
    obtain ⟨δ, ε, hsplit, hα, hγ⟩ := derives_append_iff.1 h
    cases δ with
    | nil =>
      rw [List.nil_append] at hsplit
      exact Or.inr ⟨hα, β, hsplit ▸ hγ⟩
    | cons s δ =>
      obtain ⟨rfl, -⟩ := List.cons.inj hsplit
      exact Or.inl ⟨δ, hα⟩
  · rintro (⟨β, hα⟩ | ⟨hα, β, hγ⟩)
    · exact ⟨β ++ γ, hα.append_right γ⟩
    · exact ⟨β, hα.append hγ⟩

theorem begins_cons_iff {x : σ} {α : List σ} {t : σ} :
    Begins R (x :: α) t ↔ Begins R [x] t ∨ (Derives R [x] [] ∧ Begins R α t) := by
  rw [← List.singleton_append]
  exact begins_append_iff

theorem begins_of_derives {α β : List σ} {t : σ} (h : Derives R α β) (hβ : Begins R β t) :
    Begins R α t := by
  obtain ⟨γ, hγ⟩ := hβ
  exact ⟨γ, h.trans hγ⟩

/-! ## Renamed symbols -/

variable {R' : τ → List τ → Prop} {f : σ → τ}

/-- Renaming keeps derivations, where it keeps the rules of the symbols that are renamed.  `V` holds
those symbols. -/
theorem Derives.map {V : σ → Prop}
    (hrule : ∀ x right, V x → R x right → R' (f x) (right.map f) ∧ ∀ y ∈ right, V y)
    {α : List σ} (hα : ∀ x ∈ α, V x) {β : List σ} (h : Derives R α β) :
    Derives R' (α.map f) (β.map f) ∧ ∀ x ∈ β, V x := by
  induction h with
  | refl => exact ⟨Derives.refl _, hα⟩
  | tail _ hstep ih =>
    obtain ⟨hd, hV⟩ := ih
    obtain @⟨γ, δ, x, right, hR⟩ := hstep
    obtain ⟨hR', hright⟩ := hrule x right (hV x (by simp)) hR
    refine ⟨Relation.ReflTransGen.tail hd ?_, ?_⟩
    · have hrewrites := Rewrites.intro (γ.map f) (δ.map f) hR'
      simpa using hrewrites
    · intro y hy
      rw [List.mem_append, List.mem_append] at hy
      rcases hy with (hy | hy) | hy
      · exact hV y (by simp [hy])
      · exact hright y hy
      · exact hV y (by simp [hy])

/-- Where every rule of a renamed symbol is a renamed rule, renamed strings derive renamed
strings only. -/
theorem Derives.exists_of_map {V : σ → Prop}
    (hrule : ∀ x right', V x → R' (f x) right' →
      ∃ right, right' = right.map f ∧ R x right ∧ ∀ y ∈ right, V y)
    {α : List σ} (hα : ∀ x ∈ α, V x) {β' : List τ} (h : Derives R' (α.map f) β') :
    ∃ β, β' = β.map f ∧ Derives R α β ∧ ∀ x ∈ β, V x := by
  induction h with
  | refl => exact ⟨α, rfl, Derives.refl α, hα⟩
  | tail _ hstep ih =>
    obtain ⟨β, hβ, hd, hV⟩ := ih
    obtain ⟨γ', δ', hR⟩ := hstep
    obtain ⟨γ, rest, rfl, rfl, hrest⟩ := List.append_eq_map_iff.1 hβ
    obtain ⟨x, δ, rfl, rfl, rfl⟩ := List.map_eq_cons_iff.1 hrest
    obtain ⟨right, rfl, hright, hVright⟩ := hrule x _ (hV x (by simp)) hR
    refine ⟨γ ++ right ++ δ, by simp, Relation.ReflTransGen.tail hd (.intro γ δ hright), ?_⟩
    intro y hy
    rw [List.mem_append, List.mem_append] at hy
    rcases hy with (hy | hy) | hy
    · exact hV y (by simp [hy])
    · exact hVright y hy
    · exact hV y (by simp [hy])

end ShiftReduce
