import Mathlib.Data.List.Sort
import RuleCoverage.Proofs.NormalForm.RoundTrip.Terms
import RuleCoverage.Proofs.NormalForm.Simplification

/-!
# Sorting by insertion

What is written in the order of its texts may be put in order by inserting one after the other
(`mergeSort_eq_insertionSort`).  That is slower and comes to the same, but it is a recursion on the
list, and so are all other parts of a pass: a pass that sorts by insertion can be carried out inside
of a proof (`Predicate.simplifyOnce_eq_byInsertion`).
-/

set_option autoImplicit false

namespace RuleCoverage

/-- Merging puts a list in the order in which insertion does. -/
theorem mergeSort_eq_insertionSort {α : Type} {le : α → α → Bool}
    (htrans : ∀ x y z, le x y = true → le y z = true → le x z = true)
    (htotal : ∀ x y, (le x y || le y x) = true) (xs : List α) :
    xs.mergeSort le = xs.insertionSort fun x y ↦ le x y = true := by
  induction xs with
  | nil => exact List.mergeSort_nil
  | cons x xs ih =>
    obtain ⟨before, behind, hsorted, hrest, hbefore⟩ := List.mergeSort_cons htrans htotal x xs
    have hpairwise := List.pairwise_mergeSort htrans htotal (x :: xs)
    rw [hsorted, List.pairwise_append] at hpairwise
    have hbehind := (List.pairwise_cons.1 hpairwise.2.1).1
    rw [List.insertionSort_cons, ← ih, hsorted, hrest]
    clear hsorted hrest hpairwise ih
    induction before with
    | nil =>
      cases behind with
      | nil => rfl
      | cons y behind =>
        rw [List.nil_append, List.nil_append, List.orderedInsert_cons,
          if_pos (hbehind y List.mem_cons_self)]
    | cons b before ih =>
      rw [List.forall_mem_cons] at hbefore
      rw [List.cons_append, List.cons_append, List.orderedInsert_cons,
        if_neg (by simpa using hbefore.1), ih hbefore.2]

namespace Predicate

/-- Predicates in the order of their texts. -/
def sortedByInsertion (ps : List Predicate) : List Predicate :=
  ps.insertionSort fun p q ↦ textOrder text p q = true

theorem sorted_eq_byInsertion (ps : List Predicate) : sorted ps = sortedByInsertion ps := by
  have hsorted := sorted_map id ps
  rw [List.map_id, List.map_id] at hsorted
  rw [hsorted, sortedByInsertion]
  exact mergeSort_eq_insertionSort textOrder_trans textOrder_total ps

end Predicate

namespace Term

/-- The opaque literals of a term in the order in which they are written. -/
def literalsByInsertion (t : Term) : List OpaqueLiteral :=
  t.literals.toList.insertionSort fun l m ↦ literalOrder l m = true

theorem sortedLiterals_eq_byInsertion (t : Term) : t.sortedLiterals = t.literalsByInsertion := by
  rw [sortedLiterals_eq, literalsByInsertion]
  exact mergeSort_eq_insertionSort literalOrder_trans literalOrder_total _

/-- The predicate that a term stands for. -/
def toPredicateByInsertion (ctx : Interpretation) (t : Term) : Predicate :=
  .conjunction (t.constraints.map (fun c ↦ c.2.toPredicate ctx c.1) ++
    t.literalsByInsertion.map OpaqueLiteral.toPredicate)

/-- The predicate that a disjunction of terms stands for. -/
def disjunctionByInsertion (ctx : Interpretation) (ts : List Term) : Predicate :=
  .disjunction (Predicate.sortedByInsertion (ts.map (toPredicateByInsertion ctx)))

theorem disjunctionOf_eq_byInsertion (ctx : Interpretation) (ts : List Term) :
    disjunctionOf ctx ts = disjunctionByInsertion ctx ts := by
  have hterm : toPredicate ctx = toPredicateByInsertion ctx := by
    funext t
    rw [toPredicate_eq, sortedLiterals_eq_byInsertion, toPredicateByInsertion]
  rw [disjunctionOf, disjunctionByInsertion, hterm, Predicate.sorted_eq_byInsertion]

end Term

namespace Predicate

/-- One pass of simplification. -/
def simplifyOnceByInsertion (schema : Option Schema) (effort : Effort) (p : Predicate) :
    Except Error Predicate := do
  let ctx ← Interpretation.of p schema
  let ts ← p.expand ctx false
  if ts.isEmpty then return .never
  else if ts.any Term.isAlways || isTautology ctx effort ts then return .always
  else return Term.disjunctionByInsertion ctx ts

theorem simplifyOnce_eq_byInsertion (schema : Option Schema) (effort : Effort) :
    simplifyOnce schema effort = simplifyOnceByInsertion schema effort := by
  funext p
  simp only [simplifyOnce, simplifyOnceByInsertion, Term.disjunctionOf_eq_byInsertion]

end Predicate

end RuleCoverage
