/-!
# Finite sets that remember a representative

A `Distinct α` is a finite set of members taken up to `==`.  Equal members may still look
different — `1`, `1.0` and `True` are one number in three spellings — and the set keeps the one
that it was given first.  Which representative survives an operation is part of its meaning:

* `union` and `diff` keep the members of the left set;
* `inter` keeps the members of the smaller set, and of the right one when the sizes are equal.

Two sets are equal (`==`) when each member of one has an equal in the other.
-/

set_option autoImplicit false

namespace RuleCoverage

/-- A finite set up to `==`, as a list of members no two of which are equal. -/
structure Distinct (α : Type) [BEq α] where
  toList : List α
  distinct : toList.Pairwise fun a b ↦ (a == b) = false

namespace Distinct

variable {α : Type} [BEq α]

/-- Whether the set has a member equal to `x`. -/
def contains (s : Distinct α) (x : α) : Bool := s.toList.any (· == x)

def size (s : Distinct α) : Nat := s.toList.length

def isEmpty (s : Distinct α) : Bool := s.toList.isEmpty

def empty : Distinct α := ⟨[], .nil⟩

instance : EmptyCollection (Distinct α) := ⟨empty⟩

instance : Inhabited (Distinct α) := ⟨empty⟩

def singleton (x : α) : Distinct α := ⟨[x], List.pairwise_singleton _ _⟩

/-- Adds a member, unless an equal one is there already. -/
def insert (s : Distinct α) (x : α) : Distinct α :=
  if h : s.contains x = true then s
  else ⟨s.toList ++ [x], by
    rw [List.pairwise_append]
    refine ⟨s.distinct, List.pairwise_singleton _ _, fun a ha b hb ↦ ?_⟩
    rw [List.mem_singleton] at hb
    subst hb
    cases hab : (a == b) with
    | false => rfl
    | true => exact absurd (List.any_eq_true.2 ⟨a, ha, hab⟩) h⟩

/-- The set of the members of a list; of equal ones the first stays. -/
def ofList (xs : List α) : Distinct α := xs.foldl insert empty

/-- The members that pass a test. -/
def filter (s : Distinct α) (p : α → Bool) : Distinct α :=
  ⟨s.toList.filter p, s.distinct.filter p⟩

def union (s t : Distinct α) : Distinct α := t.toList.foldl insert s

def diff (s t : Distinct α) : Distinct α := s.filter fun x ↦ !t.contains x

def inter (s t : Distinct α) : Distinct α :=
  if s.size < t.size then s.filter t.contains else t.filter s.contains

def subset (s t : Distinct α) : Bool := s.toList.all t.contains

instance : BEq (Distinct α) := ⟨fun s t ↦ s.subset t && t.subset s⟩

theorem toList_filter (s : Distinct α) (p : α → Bool) : (s.filter p).toList = s.toList.filter p :=
  rfl

theorem contains_insert (s : Distinct α) (x : α) [EquivBEq α] (y : α) :
    (s.insert x).contains y = (s.contains y || x == y) := by
  unfold insert
  split
  · rename_i h
    cases hxy : (x == y) with
    | false => simp
    | true =>
      obtain ⟨a, ha, hax⟩ := List.any_eq_true.1 h
      have : s.contains y = true := List.any_eq_true.2 ⟨a, ha, BEq.trans hax hxy⟩
      simp [this]
  · simp [contains]

theorem length_insert_le (s : Distinct α) (x : α) : (s.insert x).size ≤ s.size + 1 := by
  unfold insert
  split
  · omega
  · simp [size]

private theorem size_foldl_insert_le (xs : List α) (s : Distinct α) :
    (xs.foldl insert s).size ≤ s.size + xs.length := by
  induction xs generalizing s with
  | nil => simp
  | cons x xs ih =>
    have h := ih (s.insert x)
    have h' := length_insert_le s x
    simp only [List.foldl_cons, List.length_cons]
    omega

theorem size_ofList_le (xs : List α) : (ofList xs).size ≤ xs.length := by
  have h := size_foldl_insert_le xs (empty : Distinct α)
  simpa [ofList, size, empty] using h

end Distinct

end RuleCoverage
