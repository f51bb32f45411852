/-!
# Finite sets of numbers in order of insertion

Every list this library answers with is in the order in which its members were first met.
An `OrderedSet` is such a list of numbers, together with the number whose bits are its members
and the facts that nothing stands in the list twice and that the two agree.  `toList` is the whole
view of a set; the bits make the questions about it cheap, and equality of sets as sets is
`sameMembers`.

    a ∈ s.insert b ↔ a ∈ s ∨ a = b                             (mem_insert)
    (s.union t).toList = s.toList ++ t.toList.filter (· ∉ s)   (toList_union)
    s.sameMembers t ↔ ∀ a, a ∈ s ↔ a ∈ t                       (sameMembers_iff)
-/

namespace ShiftReduce

/-- A finite set of numbers, listed in the order in which its members came. -/
structure OrderedSet where
  toList : List Nat
  /-- The number whose bits are the members. -/
  bits : Nat
  nodup : toList.Nodup
  testBit_bits : ∀ a, bits.testBit a = true ↔ a ∈ toList

namespace OrderedSet

instance : Membership Nat OrderedSet := ⟨fun s a => a ∈ s.toList⟩

theorem mem_def {s : OrderedSet} {a : Nat} : a ∈ s ↔ a ∈ s.toList := Iff.rfl

theorem mem_iff_testBit {s : OrderedSet} {a : Nat} : a ∈ s ↔ s.bits.testBit a = true :=
  (s.testBit_bits a).symm

instance (a : Nat) (s : OrderedSet) : Decidable (a ∈ s) :=
  decidable_of_iff (s.bits.testBit a = true) mem_iff_testBit.symm

theorem bits_eq_iff {s t : OrderedSet} : s.bits = t.bits ↔ ∀ a, a ∈ s ↔ a ∈ t := by
  constructor
  · intro h a
    rw [mem_iff_testBit, mem_iff_testBit, h]
  · intro h
    refine Nat.eq_of_testBit_eq fun a => ?_
    rw [Bool.eq_iff_iff, ← mem_iff_testBit, ← mem_iff_testBit]
    exact h a

theorem ext_toList {s t : OrderedSet} (h : s.toList = t.toList) : s = t := by
  have hbits : s.bits = t.bits := bits_eq_iff.2 fun a => by rw [mem_def, mem_def, h]
  cases s; cases t; cases h; cases hbits; rfl

def empty : OrderedSet := ⟨[], 0, List.nodup_nil, by simp⟩

def size (s : OrderedSet) : Nat := s.toList.length

@[simp] theorem toList_empty : empty.toList = [] := rfl

@[simp] theorem not_mem_empty (a : Nat) : ¬ a ∈ empty := List.not_mem_nil

/-! ## Adding members -/

theorem testBit_or_one_shiftLeft (n a b : Nat) :
    (n ||| 1 <<< a).testBit b = true ↔ n.testBit b = true ∨ b = a := by
  rw [Nat.testBit_or, Bool.or_eq_true, Nat.one_shiftLeft, Nat.testBit_two_pow, decide_eq_true_eq,
    eq_comm (a := a)]

/-- Adds a member at the end; one that is there already keeps its place. -/
def insert (s : OrderedSet) (a : Nat) : OrderedSet :=
  if h : a ∈ s then s
  else {
    toList := s.toList ++ [a]
    bits := s.bits ||| 1 <<< a
    nodup := List.nodup_append.2
      ⟨s.nodup, by simp, fun b hb c hc e => h (List.mem_singleton.1 hc ▸ e ▸ hb)⟩
    testBit_bits := fun b => by
      rw [testBit_or_one_shiftLeft, s.testBit_bits, List.mem_append, List.mem_singleton] }

def singleton (a : Nat) : OrderedSet := empty.insert a

/-- Adds the members of a list one by one. -/
def insertAll (s : OrderedSet) (l : List Nat) : OrderedSet := l.foldl insert s

def ofList (l : List Nat) : OrderedSet := empty.insertAll l

theorem insert_of_mem {s : OrderedSet} {a : Nat} (h : a ∈ s) : s.insert a = s :=
  dif_pos h

theorem toList_insert_of_not_mem {s : OrderedSet} {a : Nat} (h : ¬ a ∈ s) :
    (s.insert a).toList = s.toList ++ [a] := by
  simp [insert, h]

@[simp] theorem mem_insert {s : OrderedSet} {a b : Nat} : a ∈ s.insert b ↔ a ∈ s ∨ a = b := by
  by_cases h : b ∈ s
  · rw [insert_of_mem h]
    exact ⟨Or.inl, fun hab => hab.elim id fun e => e ▸ h⟩
  · rw [mem_def, toList_insert_of_not_mem h, List.mem_append, List.mem_singleton, ← mem_def]

@[simp] theorem toList_singleton (a : Nat) : (singleton a).toList = [a] :=
  toList_insert_of_not_mem (not_mem_empty a)

@[simp] theorem mem_singleton {a b : Nat} : a ∈ singleton b ↔ a = b := by simp [singleton]

@[simp] theorem mem_insertAll {s : OrderedSet} {l : List Nat} {a : Nat} :
    a ∈ s.insertAll l ↔ a ∈ s ∨ a ∈ l := by
  induction l generalizing s with
  | nil => simp [insertAll]
  | cons b l ih =>
    have : s.insertAll (b :: l) = (s.insert b).insertAll l := rfl
    rw [this, ih, mem_insert, List.mem_cons, or_assoc]

@[simp] theorem mem_ofList {l : List Nat} {a : Nat} : a ∈ ofList l ↔ a ∈ l := by simp [ofList]

/-! ## Comparison -/

def subset (s t : OrderedSet) : Bool := s.bits ||| t.bits == t.bits

/-- Equality as sets: the order in which the members came plays no part. -/
def sameMembers (s t : OrderedSet) : Bool := s.bits == t.bits

theorem subset_iff {s t : OrderedSet} : s.subset t = true ↔ ∀ a, a ∈ s → a ∈ t := by
  rw [subset, beq_iff_eq]
  constructor
  · intro h a ha
    rw [mem_iff_testBit] at ha ⊢
    rw [← h, Nat.testBit_or, ha, Bool.true_or]
  · intro h
    refine Nat.eq_of_testBit_eq fun a => ?_
    rw [Nat.testBit_or, Bool.eq_iff_iff, Bool.or_eq_true, ← mem_iff_testBit, ← mem_iff_testBit]
    exact ⟨fun hor => hor.elim (h a) id, Or.inr⟩

theorem sameMembers_iff {s t : OrderedSet} :
    s.sameMembers t = true ↔ ∀ a, a ∈ s ↔ a ∈ t := by
  rw [sameMembers, beq_iff_eq, bits_eq_iff]

/-! ## Union -/

/-- Adds the members of `t` that are new to `s` at its end, in their order. -/
def union (s t : OrderedSet) : OrderedSet :=
  if t.subset s then s
  else {
    toList := s.toList ++ t.toList.filter (· ∉ s)
    bits := s.bits ||| t.bits
    nodup := List.nodup_append.2 ⟨s.nodup, t.nodup.filter _, fun a ha b hb e => by
      have hb := of_decide_eq_true (List.mem_filter.1 hb).2
      exact hb (e ▸ ha)⟩
    testBit_bits := fun a => by
      rw [Nat.testBit_or, Bool.or_eq_true, s.testBit_bits, t.testBit_bits, List.mem_append,
        List.mem_filter, decide_eq_true_eq, mem_def]
      by_cases h : a ∈ s.toList <;> simp [h] }

theorem union_of_subset {s t : OrderedSet} (h : ∀ a, a ∈ t → a ∈ s) : s.union t = s :=
  if_pos (subset_iff.2 h)

theorem toList_union (s t : OrderedSet) :
    (s.union t).toList = s.toList ++ t.toList.filter (· ∉ s) := by
  unfold union
  split
  · next h =>
    have hnil : t.toList.filter (· ∉ s) = [] :=
      List.filter_eq_nil_iff.2 fun a ha => by simpa using subset_iff.1 h a ha
    rw [hnil, List.append_nil]
  · rfl

@[simp] theorem mem_union {s t : OrderedSet} {a : Nat} : a ∈ s.union t ↔ a ∈ s ∨ a ∈ t := by
  rw [mem_def, toList_union, List.mem_append, List.mem_filter, decide_eq_true_eq]
  by_cases h : a ∈ s
  · exact ⟨fun _ => Or.inl h, fun _ => Or.inl h⟩
  · exact ⟨fun hor => hor.imp id And.left, fun hor => hor.imp id fun ha => ⟨ha, h⟩⟩

/-- Members that are there stay at their place: a set only grows at its end. -/
theorem prefix_union (s t : OrderedSet) : s.toList <+: (s.union t).toList := by
  rw [toList_union]
  exact List.prefix_append _ _

end OrderedSet

end ShiftReduce
