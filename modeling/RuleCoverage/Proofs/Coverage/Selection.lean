import RuleCoverage.Coverage.Basic
import RuleCoverage.Proofs.NormalForm.RowMeaning

/-!
# What a selector selects

A selector selects a feature at a scale if one of its clauses does, and a clause does if its scale
range holds the scale and its predicate is true of the feature.  The fragments of a coverage select
features in the same way.

This file is about one feature, as a `Row`, and one scale.  How many of some fragments hold of the
row at the scale is their `Fragment.depth`: where fragments are disjoint it is at most one.

## What is here

* `Selector.selects` — what a selector selects.
* `Row.Judges` — the predicates that have a truth value on a row and keep it when simplified.
* `Simplifier.KeepsOn` — a simplification that keeps the truth values of a class of predicates.
* `Fragment.depth` — how many fragments hold.
-/

set_option autoImplicit false

namespace RuleCoverage

/-! ## Truth on a row -/

/-- The predicate has a truth value on the row and is true. -/
def Predicate.isTrueOf (row : Row) (p : Predicate) : Bool :=
  (p.holds row).toOption == some true

/-- The row knows all atoms of the predicate. -/
def Row.Judges (row : Row) (schema? : Option Schema) (p : Predicate) : Prop :=
  p.AllAtoms (row.Knows schema?)

/-- What a simplification gives is judged by the row if the given predicate is, and has the same
truth value. -/
def Simplifier.Keeps (simplify : Simplifier) (row : Row) (schema? : Option Schema) : Prop :=
  ∀ p q, row.Judges schema? p → simplify p = .ok q →
    row.Judges schema? q ∧ q.isTrueOf row = p.isTrueOf row

/-- The predicates of a class have truth values on a row, the class is closed under the connectives,
and what a simplification gives for one of them is in the class and has the same truth value.  The
class may be that of all predicates that have truth values on the row. -/
structure Simplifier.KeepsOn (simplify : Simplifier) (row : Row) (P : Predicate → Prop) : Prop where
  exists_holds : ∀ {p}, P p → ∃ r, p.holds row = .ok r
  not : ∀ {p}, P p → P p.not
  and : ∀ {p q}, P p → P q → P (p.and q)
  or : ∀ {p q}, P p → P q → P (p.or q)
  keeps : ∀ {p q}, P p → simplify p = .ok q → P q ∧ q.holds row = p.holds row

section truth

variable {row : Row} {schema? : Option Schema} {simplify : Simplifier} {P : Predicate → Prop}
  {p q : Predicate}

theorem Predicate.isTrueOf_of_holds {r : Bool} (h : p.holds row = .ok r) : p.isTrueOf row = r := by
  rw [isTrueOf, h]
  cases r <;> rfl

theorem Predicate.isTrueOf_never : never.isTrueOf row = false := rfl

theorem Predicate.isTrueOf_and (hp : ∃ r, p.holds row = .ok r) (hq : ∃ r, q.holds row = .ok r) :
    (p.and q).isTrueOf row = (p.isTrueOf row && q.isTrueOf row) := by
  obtain ⟨r, hr⟩ := hp
  obtain ⟨t, ht⟩ := hq
  rw [isTrueOf_of_holds hr, isTrueOf_of_holds ht]
  refine isTrueOf_of_holds ?_
  rw [holds, hr, ht]
  rfl

theorem Predicate.isTrueOf_or (hp : ∃ r, p.holds row = .ok r) (hq : ∃ r, q.holds row = .ok r) :
    (p.or q).isTrueOf row = (p.isTrueOf row || q.isTrueOf row) := by
  obtain ⟨r, hr⟩ := hp
  obtain ⟨t, ht⟩ := hq
  rw [isTrueOf_of_holds hr, isTrueOf_of_holds ht]
  refine isTrueOf_of_holds ?_
  rw [holds, hr, ht]
  rfl

theorem Predicate.isTrueOf_not (hp : ∃ r, p.holds row = .ok r) :
    p.not.isTrueOf row = !p.isTrueOf row := by
  obtain ⟨r, hr⟩ := hp
  rw [isTrueOf_of_holds hr]
  refine isTrueOf_of_holds ?_
  rw [holds, hr]
  rfl

/-- What a simplification gives for a predicate of the class is as true as the predicate. -/
theorem Simplifier.KeepsOn.isTrueOf_eq (hs : simplify.KeepsOn row P) (hp : P p)
    (h : simplify p = .ok q) : q.isTrueOf row = p.isTrueOf row := by
  rw [Predicate.isTrueOf, Predicate.isTrueOf, (hs.keeps hp h).2]

theorem Row.Judges.and (hp : row.Judges schema? p) (hq : row.Judges schema? q) :
    row.Judges schema? (p.and q) := ⟨hp, hq⟩

theorem Row.Judges.or (hp : row.Judges schema? p) (hq : row.Judges schema? q) :
    row.Judges schema? (p.or q) := ⟨hp, hq⟩

theorem Row.Judges.not (hp : row.Judges schema? p) : row.Judges schema? p.not := hp

theorem Row.Judges.exists_holds (hp : row.Judges schema? p) : ∃ r, p.holds row = .ok r := by
  obtain ⟨r, hr, -⟩ := Row.holds_iff_isTrue (hp.imp fun _ h ↦ h.1)
  exact ⟨r, hr⟩

theorem Row.Judges.holds_eq (hp : row.Judges schema? p) : p.holds row = .ok (p.isTrueOf row) := by
  obtain ⟨r, hr⟩ := hp.exists_holds
  rw [Predicate.isTrueOf_of_holds hr, hr]

/-- A simplification that keeps what the row judges keeps the class of what it judges. -/
theorem Simplifier.Keeps.keepsOn (hs : simplify.Keeps row schema?) :
    simplify.KeepsOn row (row.Judges schema?) where
  exists_holds := Row.Judges.exists_holds
  not := Row.Judges.not
  and := Row.Judges.and
  or := Row.Judges.or
  keeps hp h := by
    obtain ⟨hq, heq⟩ := hs _ _ hp h
    exact ⟨hq, by rw [hq.holds_eq, hp.holds_eq, heq]⟩

/-- The simplification of a coverage keeps what a row that conforms to the schema judges. -/
theorem Coverage.keeps_simplify (c : Coverage) (hrow : row.Conforms c.schema) :
    Simplifier.Keeps c.simplify row c.schema := by
  intro p q hp h
  obtain ⟨hq, hiff⟩ := Row.writes_simplify hrow hp h
  refine ⟨hq, ?_⟩
  obtain ⟨r, hr, hp'⟩ := Row.holds_iff_isTrue (hp.imp fun _ h ↦ h.1)
  obtain ⟨t, ht, hq'⟩ := Row.holds_iff_isTrue (hq.imp fun _ h ↦ h.1)
  rw [Predicate.isTrueOf_of_holds hr, Predicate.isTrueOf_of_holds ht, Bool.eq_iff_iff, hp', hq',
    hiff]

end truth

/-! ## Clauses and selectors -/

/-- The scales of a clause. -/
def Clause.scales (c : Clause) : Interval := c.scale?.getD fullScaleRange

/-- The clause selects the row at the scale. -/
def Clause.selects (row : Row) (x : Double) (c : Clause) : Bool :=
  c.scales.contains x && c.predicate.isTrueOf row

/-- The selector selects the row at the scale. -/
def Selector.selects (row : Row) (x : Double) (s : Selector) : Bool :=
  s.leaves.any (Clause.selects row x)

/-- The row judges the predicates of all clauses. -/
def Selector.JudgedBy (s : Selector) (row : Row) (schema? : Option Schema) : Prop :=
  ∀ c ∈ s.leaves, row.Judges schema? c.predicate

/-! ## Fragments -/

namespace Fragment

variable {row : Row} {x : Double} {fs gs : List Fragment}

/-- The fragment holds of the row at the scale. -/
def holds (row : Row) (x : Double) (f : Fragment) : Bool :=
  f.scale.contains x && f.predicate.isTrueOf row

/-- How many of the fragments hold of the row at the scale. -/
def depth (row : Row) (x : Double) (fs : List Fragment) : Nat := fs.countP (holds row x)

theorem selects_toSelector (f : Fragment) : f.toSelector.selects row x = f.holds row x := by
  rw [Selector.selects, toSelector, Selector.leaves, List.any_cons, List.any_nil, Bool.or_false]
  rfl

@[simp] theorem depth_nil : depth row x [] = 0 := rfl

@[simp] theorem depth_cons (f : Fragment) :
    depth row x (f :: fs) = (f.holds row x).toNat + depth row x fs := by
  rw [depth, List.countP_cons, Nat.add_comm]
  cases f.holds row x <;> rfl

@[simp] theorem depth_append : depth row x (fs ++ gs) = depth row x fs + depth row x gs :=
  List.countP_append

theorem depth_perm (h : fs.Perm gs) : depth row x fs = depth row x gs := h.countP_eq _

/-- Some of the fragments hold when their depth is not zero. -/
theorem any_holds_eq (row : Row) (x : Double) (fs : List Fragment) :
    fs.any (holds row x) = decide (depth row x fs ≠ 0) := by
  rw [Bool.eq_iff_iff, List.any_eq_true, decide_eq_true_iff, ← Nat.pos_iff_ne_zero, depth,
    List.countP_pos_iff]

end Fragment

end RuleCoverage
