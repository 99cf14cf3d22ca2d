import RuleCoverage.Predicate.Mask
import RuleCoverage.Proofs.Interval.Keys
import RuleCoverage.Proofs.Outcomes
import RuleCoverage.Proofs.Predicate.Truth
import RuleCoverage.Selector.Basic

/-!
# What the operators on selectors mean

A clause applies to a feature at a scale when the scale is in its range, if it has one, and its
predicate is true of the feature; a disjunction applies when one of its children does
(`Selector.Applies`).  However deep disjunctions are nested on either side, `and` is the
intersection and `or` the union of what selectors apply to.

A flattened disjunction has no nesting left.  Its clauses are those of the given one from left to
right, which is said through their *addresses* (`Selector.clauseAt?`): the numbers of the children
that lead to a clause.  An address that goes to an earlier child comes first in the order of lists.

## What is here

* `Selector.Applies`, with `Selector.applies_and` and `Selector.applies_or`.
* `Selector.ListsClauses` — a list has the clauses of a selector from left to right; the leaves are
  such a list (`Selector.listsClauses_leaves`).
* `Clause.exists_sharedScale` — ranges without a common scale leave an empty range.
* `Selector.operators_exact` — all of it, and that flattening is done once.
-/

set_option autoImplicit false

namespace RuleCoverage

variable {row : Row} {x : EReal}

/-! ## Clauses -/

theorem Interval.not_mem_emptyAt (d : Double) (x : EReal) : ¬ (emptyAt d).Mem x := by
  refine (isEmpty_iff_forall _).1 ?_ x
  rw [isEmpty_iff]
  simp [lowCut, highCut, emptyAt]

namespace Clause

/-- The scale is in the range; without a range every scale is. -/
def InRange (x : EReal) : Option Interval → Prop
  | none => True
  | some iv => iv.Mem x

/-- The clause applies to the row at the scale. -/
def Applies (row : Row) (x : EReal) (c : Clause) : Prop :=
  InRange x c.scale? ∧ c.predicate.holds row = .ok true

/-- At a double the range is one that contains it. -/
theorem applies_toEReal (row : Row) (d : Double) (c : Clause) : c.Applies row d.toEReal ↔
    (∀ iv, c.scale? = some iv → iv.contains d = true) ∧ c.predicate.holds row = .ok true := by
  rw [Applies]
  refine and_congr_left' ?_
  cases c.scale? with
  | none => simp [InRange]
  | some iv => simp [InRange, Interval.contains_iff_mem]

/-- The scales that two clauses share are those in both ranges, also where there are none. -/
theorem inRange_sharedScale (a b : Option Interval) :
    InRange x (sharedScale a b) ↔ InRange x a ∧ InRange x b := by
  cases a with
  | none => simp [sharedScale, InRange]
  | some a =>
    cases b with
    | none => simp [sharedScale, InRange]
    | some b =>
      rw [sharedScale, InRange, InRange, InRange]
      cases hoverlap : a.intersect? b with
      | none =>
        refine iff_of_false (Interval.not_mem_emptyAt _ x) ?_
        exact (Interval.intersect?_eq_none_iff a b).1 hoverlap x
      | some c => exact Interval.mem_of_intersect? hoverlap x

/-- **Two ranges leave a range**, which is empty just when they have no scale in common. -/
theorem exists_sharedScale (a b : Interval) : ∃ iv, sharedScale (some a) (some b) = some iv ∧
    (iv.isEmpty = true ↔ ∀ x, ¬ (a.Mem x ∧ b.Mem x)) := by
  refine ⟨_, rfl, ?_⟩
  rw [Interval.isEmpty_iff_forall]
  exact forall_congr' fun x ↦ not_congr (inRange_sharedScale (some a) (some b))

/-- A condition that is left out because it always holds is no loss. -/
theorem holds_bothPredicates (p q : Predicate) : (bothPredicates p q).holds row = .ok true ↔
    p.holds row = .ok true ∧ q.holds row = .ok true := by
  rw [bothPredicates]
  split_ifs with hp hq
  · rw [Predicate.eq_always_of_beq hp]
    exact (and_iff_right rfl).symm
  · rw [Predicate.eq_always_of_beq hq]
    exact (and_iff_left rfl).symm
  · rw [Predicate.holds, bind_eq_ok]
    constructor
    · rintro ⟨r, hr, h⟩
      obtain ⟨t, ht, h⟩ := bind_eq_ok.1 h
      rw [hr, ht]
      simpa [pure, Except.pure] using h
    · rintro ⟨hp, hq⟩
      exact ⟨true, hp, bind_eq_ok.2 ⟨true, hq, rfl⟩⟩

theorem applies_and (c d : Clause) :
    (c.and d).Applies row x ↔ c.Applies row x ∧ d.Applies row x := by
  rw [Applies, Applies, Applies, and, inRange_sharedScale, holds_bothPredicates]
  exact and_and_and_comm

end Clause

/-! ## Selectors -/

namespace Selector

variable {children : List Selector} {s t : Selector} {c : Clause}

/-- The selector applies to the row at the scale. -/
inductive Applies (row : Row) (x : EReal) : Selector → Prop
  | clause {c : Clause} (h : c.Applies row x) : Applies row x (.clause c)
  | child {children : List Selector} {s : Selector} (hs : s ∈ children) (h : Applies row x s) :
    Applies row x (.anyOf children)

@[simp] theorem applies_clause : (clause c).Applies row x ↔ c.Applies row x := by
  constructor
  · rintro ⟨h⟩
    exact h
  · exact .clause

@[simp] theorem applies_anyOf :
    (anyOf children).Applies row x ↔ ∃ s ∈ children, s.Applies row x := by
  constructor
  · rintro (_ | ⟨hs, h⟩)
    exact ⟨_, hs, h⟩
  · rintro ⟨s, hs, h⟩
    exact .child hs h

/-- What holds of clauses, and of a disjunction if it does of its children, holds of selectors. -/
@[elab_as_elim]
theorem inductionOn {P : Selector → Prop} (s : Selector) (clause : ∀ c, P (.clause c))
    (anyOf : ∀ children, (∀ s ∈ children, P s) → P (.anyOf children)) : P s :=
  @Selector.rec P (fun children ↦ ∀ s ∈ children, P s) clause anyOf (List.forall_mem_nil P)
    (fun _ _ hfirst hrest ↦ List.forall_mem_cons.2 ⟨hfirst, hrest⟩) s

/-! ### Intersection and union -/

theorem andClauseList_eq (c : Clause) (ss : List Selector) :
    andClauseList c ss = ss.map (andClause c) := by
  induction ss with
  | nil => rfl
  | cons s ss ih => rw [andClauseList, ih, List.map_cons]

theorem andList_eq (ss : List Selector) (t : Selector) : andList ss t = ss.map (·.and t) := by
  induction ss with
  | nil => rfl
  | cons s ss ih => rw [andList, ih, List.map_cons]

theorem applies_andClause (c : Clause) (s : Selector) :
    (andClause c s).Applies row x ↔ c.Applies row x ∧ s.Applies row x := by
  induction s using inductionOn with
  | clause d => rw [andClause, applies_clause, applies_clause, Clause.applies_and]
  | anyOf children ih =>
    rw [andClause, andClauseList_eq, applies_anyOf, applies_anyOf]
    simp only [List.mem_map, exists_exists_and_eq_and]
    constructor
    · rintro ⟨s, hs, h⟩
      obtain ⟨hc, happlies⟩ := (ih s hs).1 h
      exact ⟨hc, s, hs, happlies⟩
    · rintro ⟨hc, s, hs, happlies⟩
      exact ⟨s, hs, (ih s hs).2 ⟨hc, happlies⟩⟩

/-- **The conjunction of selectors is their intersection.** -/
theorem applies_and (s t : Selector) :
    (s.and t).Applies row x ↔ s.Applies row x ∧ t.Applies row x := by
  induction s using inductionOn with
  | clause c => rw [and, applies_andClause, applies_clause]
  | anyOf children ih =>
    rw [and, andList_eq, applies_anyOf, applies_anyOf]
    simp only [List.mem_map, exists_exists_and_eq_and]
    constructor
    · rintro ⟨s, hs, h⟩
      obtain ⟨hs', ht⟩ := (ih s hs).1 h
      exact ⟨⟨s, hs, hs'⟩, ht⟩
    · rintro ⟨⟨s, hs, hs'⟩, ht⟩
      exact ⟨s, hs, (ih s hs).2 ⟨hs', ht⟩⟩

/-- **The disjunction of selectors is their union.** -/
theorem applies_or (s t : Selector) :
    (s.or t).Applies row x ↔ s.Applies row x ∨ t.Applies row x := by
  cases s with
  | clause c => simp [or]
  | anyOf children => simp [or, or_and_right, exists_or]

/-! ### Leaves -/

theorem leavesList_eq (ss : List Selector) : leavesList ss = ss.flatMap leaves := by
  induction ss with
  | nil => rfl
  | cons s ss ih => rw [leavesList, ih, List.flatMap_cons]

/-- A selector applies where one of its clauses does. -/
theorem applies_iff_leaves (s : Selector) :
    s.Applies row x ↔ ∃ c ∈ s.leaves, c.Applies row x := by
  induction s using inductionOn with
  | clause c => simp [leaves]
  | anyOf children ih =>
    rw [leaves, leavesList_eq, applies_anyOf]
    simp only [List.mem_flatMap]
    constructor
    · rintro ⟨s, hs, h⟩
      obtain ⟨c, hc, happlies⟩ := (ih s hs).1 h
      exact ⟨c, ⟨s, hs, hc⟩, happlies⟩
    · rintro ⟨c, ⟨s, hs, hc⟩, happlies⟩
      exact ⟨s, hs, (ih s hs).2 ⟨c, hc, happlies⟩⟩

/-- The leaves of clauses side by side are these clauses. -/
theorem leavesList_map_clause (cs : List Clause) : leavesList (cs.map .clause) = cs := by
  induction cs with
  | nil => rfl
  | cons c cs ih => rw [List.map_cons, leavesList, leaves, ih, List.singleton_append]

/-! ### Addresses -/

/-- The clause at an address, which says for each disjunction on the way to which child to go. -/
def clauseAt? : Selector → List Nat → Option Clause
  | .clause c, [] => some c
  | .anyOf children, i :: address => children[i]?.bind fun s ↦ s.clauseAt? address
  | .clause _, _ :: _ | .anyOf _, [] => none

mutual

/-- The clauses of a selector from left to right, each with its address. -/
def placed : Selector → List (List Nat × Clause)
  | .clause c => [([], c)]
  | .anyOf children => placedFrom 0 children

/-- The clauses of children that are numbered from `i` on. -/
def placedFrom (i : Nat) : List Selector → List (List Nat × Clause)
  | [] => []
  | s :: rest => s.placed.map (fun e ↦ (i :: e.1, e.2)) ++ placedFrom (i + 1) rest

end

/-- The clauses are those of the selector from left to right: each is at one of the addresses where
there is a clause, and these ascend. -/
def ListsClauses (s : Selector) (cs : List Clause) : Prop :=
  ∃ entries : List (List Nat × Clause), entries.map Prod.snd = cs ∧
    (entries.Pairwise fun e f ↦ e.1 < f.1) ∧
    ∀ address c, (address, c) ∈ entries ↔ s.clauseAt? address = some c

theorem mem_placedFrom {i : Nat} {ss : List Selector} {address : List Nat} :
    (address, c) ∈ placedFrom i ss ↔ ∃ j s rest, ss[j]? = some s ∧ (rest, c) ∈ s.placed ∧
      address = (i + j) :: rest := by
  induction ss generalizing i with
  | nil => simp [placedFrom]
  | cons s ss ih =>
    rw [placedFrom, List.mem_append, ih]
    constructor
    · rintro (h | ⟨j, t, rest, ht, hrest, rfl⟩)
      · obtain ⟨⟨rest, d⟩, hrest, heq⟩ := List.mem_map.1 h
        cases heq
        exact ⟨0, s, rest, rfl, hrest, rfl⟩
      · exact ⟨j + 1, t, rest, ht, hrest, by rw [Nat.add_assoc, Nat.add_comm 1 j]⟩
    · rintro ⟨j, t, rest, ht, hrest, rfl⟩
      cases j with
      | zero =>
        cases ht
        exact .inl (List.mem_map.2 ⟨_, hrest, rfl⟩)
      | succ j => exact .inr ⟨j, t, rest, ht, hrest, by rw [Nat.add_assoc, Nat.add_comm 1 j]⟩

theorem mem_placed {address : List Nat} :
    (address, c) ∈ s.placed ↔ s.clauseAt? address = some c := by
  induction s using inductionOn generalizing address with
  | clause d =>
    cases address with
    | nil => simp [placed, clauseAt?, eq_comm]
    | cons i address => simp [placed, clauseAt?]
  | anyOf children ih =>
    rw [placed, mem_placedFrom]
    cases address with
    | nil => simp [clauseAt?]
    | cons i address =>
      rw [clauseAt?, Option.bind_eq_some_iff]
      constructor
      · rintro ⟨j, s, rest, hs, hrest, heq⟩
        rw [Nat.zero_add] at heq
        cases heq
        exact ⟨s, hs, (ih s (List.mem_of_getElem? hs)).1 hrest⟩
      · rintro ⟨s, hs, h⟩
        exact ⟨i, s, address, hs, (ih s (List.mem_of_getElem? hs)).2 h, by rw [Nat.zero_add]⟩

theorem map_snd_placed (s : Selector) : s.placed.map Prod.snd = s.leaves := by
  induction s using inductionOn with
  | clause c => rfl
  | anyOf children ih =>
    rw [placed, leaves]
    generalize 0 = i
    induction children generalizing i with
    | nil => rfl
    | cons s rest ihrest =>
      rw [List.forall_mem_cons] at ih
      rw [placedFrom, leavesList, List.map_append, ihrest ih.2, ← ih.1, List.map_map]
      rfl

/-- The addresses ascend: within a child as they do there, and from one child to the next. -/
theorem pairwise_placed (s : Selector) : s.placed.Pairwise fun e f ↦ e.1 < f.1 := by
  induction s using inductionOn with
  | clause c => exact List.pairwise_singleton _ _
  | anyOf children ih =>
    rw [placed]
    generalize 0 = i
    induction children generalizing i with
    | nil => exact .nil
    | cons s rest ihrest =>
      rw [List.forall_mem_cons] at ih
      rw [placedFrom, List.pairwise_append]
      refine ⟨?_, ihrest ih.2 (i + 1), ?_⟩
      · rw [List.pairwise_map]
        exact ih.1.imp fun hlt ↦ List.cons_lt_cons_iff.2 (.inr ⟨rfl, hlt⟩)
      · rintro e he ⟨address, c⟩ hf
        obtain ⟨e', -, rfl⟩ := List.mem_map.1 he
        obtain ⟨j, t, rest', -, -, rfl⟩ := mem_placedFrom.1 hf
        exact List.cons_lt_cons_iff.2 (.inl (by omega))

/-- **The leaves are the clauses from left to right.** -/
theorem listsClauses_leaves (s : Selector) : s.ListsClauses s.leaves :=
  ⟨s.placed, s.map_snd_placed, s.pairwise_placed, fun _ _ ↦ mem_placed⟩

/-! ### The operators -/

/-- **The operators on selectors mean intersection and union**, for any nesting of disjunctions, and
flattening keeps what a disjunction applies to.  It leaves the clauses of the disjunction side by
side from left to right, and has nothing more to do when it is done again.  The conjunction of two
clauses with ranges has a range, and this is empty just when the two ranges have no scale in
common. -/
theorem operators_exact :
    (∀ (row : Row) (d : Double) (c : Clause), (clause c).Applies row d.toEReal ↔
      (∀ iv, c.scale? = some iv → iv.contains d = true) ∧ c.predicate.holds row = .ok true) ∧
    (∀ (row : Row) (x : EReal) (s t : Selector),
      ((s.and t).Applies row x ↔ s.Applies row x ∧ t.Applies row x) ∧
      ((s.or t).Applies row x ↔ s.Applies row x ∨ t.Applies row x)) ∧
    (∀ children : List Selector, ∃ cs : List Clause,
      (anyOf children).flattened = .ok (anyOf (cs.map .clause)) ∧
      (anyOf children).ListsClauses cs ∧
      (∀ (row : Row) (x : EReal),
        (anyOf (cs.map .clause)).Applies row x ↔ (anyOf children).Applies row x) ∧
      (anyOf (cs.map .clause)).flattened = .ok (anyOf (cs.map .clause))) ∧
    ∀ (a b : Interval) (p q : Predicate), ∃ (c : Clause) (iv : Interval),
      and (clause ⟨some a, p⟩) (clause ⟨some b, q⟩) = clause c ∧ c.scale? = some iv ∧
      (iv.isEmpty = true ↔ ∀ x, ¬ (a.Mem x ∧ b.Mem x)) := by
  refine ⟨fun row d c ↦ ?_, fun row x s t ↦ ⟨applies_and s t, applies_or s t⟩,
    fun children ↦ ?_, fun a b p q ↦ ?_⟩
  · rw [applies_clause, Clause.applies_toEReal]
  · refine ⟨leavesList children, rfl, listsClauses_leaves _, fun row x ↦ ?_, ?_⟩
    · rw [applies_iff_leaves, applies_iff_leaves, leaves, leaves, leavesList_map_clause]
    · rw [flattened, leavesList_map_clause]
  · obtain ⟨iv, hiv, hempty⟩ := Clause.exists_sharedScale a b
    exact ⟨_, iv, rfl, hiv, hempty⟩

end Selector

end RuleCoverage
