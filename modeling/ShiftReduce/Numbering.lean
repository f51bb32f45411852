import Std.Data.TreeMap

/-!
# Numberings of names

A `Numbering` gives consecutive numbers to names in the order in which they were first added.
Both directions of reading are kept, from a number to its name and from a name to its number,
and the type carries the fact that the two agree.

    n.number? a = some i ↔ n.name? i = some a                    (number?_eq_some_iff)
    a ∈ (ofList l).names ↔ a ∈ l                                 (mem_names_ofList)
-/

namespace ShiftReduce

structure Numbering where
  names : Array String
  index : Std.TreeMap String Nat
  index_eq : ∀ (a : String) (i : Nat), index[a]? = some i ↔ names[i]? = some a

namespace Numbering

def empty : Numbering := ⟨#[], ∅, by simp⟩

def size (n : Numbering) : Nat := n.names.size

def name? (n : Numbering) (i : Nat) : Option String := n.names[i]?

def number? (n : Numbering) (a : String) : Option Nat := n.index[a]?

theorem number?_eq_some_iff (n : Numbering) {a : String} {i : Nat} :
    n.number? a = some i ↔ n.name? i = some a :=
  n.index_eq a i

theorem lt_size_of_number? {n : Numbering} {a : String} {i : Nat} (h : n.number? a = some i) :
    i < n.size :=
  (Array.getElem?_eq_some_iff.1 (n.number?_eq_some_iff.1 h)).1

theorem number?_eq_none_iff (n : Numbering) {a : String} : n.number? a = none ↔ a ∉ n.names := by
  constructor
  · intro h ha
    obtain ⟨i, hi⟩ := Array.mem_iff_getElem?.1 ha
    have := n.number?_eq_some_iff.2 hi
    simp [h] at this
  · intro h
    cases hn : n.number? a with
    | none => rfl
    | some i => exact absurd (Array.mem_iff_getElem?.2 ⟨i, n.number?_eq_some_iff.1 hn⟩) h

/-- Numbers a name, unless it has a number already. -/
def add (n : Numbering) (a : String) : Numbering :=
  match h : n.index[a]? with
  | some _ => n
  | none =>
    let size := n.names.size
    { names := n.names.push a
      index := n.index.insert a size
      index_eq := by
        intro b i
        show (n.index.insert a n.names.size)[b]? = some i ↔ (n.names.push a)[i]? = some b
        rw [Std.TreeMap.getElem?_insert, Array.getElem?_push]
        by_cases hb : a = b
        · subst hb
          have hnone : ∀ j : Nat, n.names[j]? ≠ some a := fun j hj => by
            simp [(n.index_eq a j).2 hj] at h
          by_cases hi : i = n.names.size
          · simp [hi]
          · have hi' : ¬ n.names.size = i := fun e => hi e.symm
            simp [hi, hi', hnone]
        · have hab : compare a b ≠ .eq := fun e => hb (Std.LawfulEqOrd.eq_of_compare e)
          by_cases hi : i = n.names.size
          · subst hi
            have : n.index[b]? ≠ some n.names.size := fun e => by
              have := (n.index_eq b _).1 e
              simp at this
            simp [hb, this]
          · simp [hb, hi, n.index_eq] }

/-- The numbering in which every name of a list is numbered at its first occurrence. -/
def ofList (l : List String) : Numbering := l.foldl add empty

theorem names_add (n : Numbering) (a : String) :
    (n.add a).names = if a ∈ n.names then n.names else n.names.push a := by
  unfold add
  split
  · next i h =>
    have : a ∈ n.names := Array.mem_iff_getElem?.2 ⟨i, (n.index_eq a i).1 h⟩
    simp [this]
  · next h =>
    have : a ∉ n.names := n.number?_eq_none_iff.1 h
    simp [this]

theorem mem_names_foldl_add {n : Numbering} {l : List String} {a : String} :
    a ∈ (l.foldl add n).names ↔ a ∈ n.names ∨ a ∈ l := by
  induction l generalizing n with
  | nil => simp
  | cons b l ih =>
    rw [List.foldl_cons, ih, names_add, List.mem_cons]
    by_cases hb : b ∈ n.names
    · rw [if_pos hb]
      exact ⟨fun h => h.elim Or.inl fun h => Or.inr (Or.inr h),
        fun h => h.elim Or.inl fun h => h.elim (fun e => Or.inl (e ▸ hb)) Or.inr⟩
    · rw [if_neg hb, Array.mem_push, or_assoc]

theorem mem_names_ofList {l : List String} {a : String} : a ∈ (ofList l).names ↔ a ∈ l := by
  simp [ofList, mem_names_foldl_add, empty]

end Numbering

end ShiftReduce
