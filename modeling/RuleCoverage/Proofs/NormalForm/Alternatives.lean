import RuleCoverage.Proofs.NormalForm.EqualAtoms
import RuleCoverage.Proofs.NormalForm.Weights
import RuleCoverage.Proofs.Values.Alternatives

/-!
# The weight of a predicate

The atoms of a class are weighed by the alternatives of the demand that they are read as
(`Interpretation.classAlternatives`), and so are the demands in terms (`Interpretation.weighting`).
From this a predicate gets a weight that bounds what it is expanded into: conjunctions multiply, and
disjunctions add up (`Predicate.weight`).  It depends on nothing but the classes of the atoms, so
equal predicates weigh the same (`Predicate.weight_congr`).

Demands on some attributes may be made to weigh one, and predicates that are about such an attribute
alone to weigh one as well, however they are put together.
-/

set_option autoImplicit false

namespace RuleCoverage

/-! ## Classes of atoms -/

namespace Interpretation

variable {ctx : Interpretation} {k : Predicate.Tag × Bool} {us vs : ValueSet}

/-- The atoms of a class, or their negations, are read as a demand for some values. -/
def Gives (ctx : Interpretation) (k : Predicate.Tag × Bool) (ws : ValueSet) : Prop :=
  ∃ atom a vs full, atom.tag = k.1 ∧ atom.named? = some a ∧ ctx.values? atom = .ok (some vs) ∧
    ctx.full? a = some full ∧ (if k.2 then vs else vs.complement).inter full = ws

/-- **A class of atoms is read as one demand.** -/
theorem Gives.beq (hu : ctx.Gives k us) (hv : ctx.Gives k vs) : (us == vs) = true := by
  obtain ⟨p, a, us', full, hp, hpa, hus, hfull, rfl⟩ := hu
  obtain ⟨q, b, vs', full', hq, hqb, hvs, hfull', rfl⟩ := hv
  have htag := hp.trans hq.symm
  obtain rfl := Predicate.named?_congr htag hpa hqb
  cases hfull.symm.trans hfull'
  obtain ⟨_, _, hn, hf, hshape⟩ := values?_eq_some hus
  cases hpa.symm.trans hn
  cases hfull.symm.trans hf
  obtain ⟨_, _, hn, hf, hshape'⟩ := values?_eq_some hvs
  cases hqb.symm.trans hn
  cases hfull.symm.trans hf
  have hmem := ValueSet.mem_congr (values_beq_of_tag htag hpa hqb hus hvs)
  cases k.2 with
  | true =>
    rw [ValueSet.beq_iff (by simpa [ValueSet.SameShape] using hshape.trans hshape'.symm)]
    intro v
    rw [if_pos rfl, if_pos rfl, ValueSet.mem_inter hshape, ValueSet.mem_inter hshape', hmem]
  | false =>
    rw [ValueSet.beq_iff (by simpa [ValueSet.SameShape] using hshape.trans hshape'.symm)]
    intro v
    rw [if_neg Bool.false_ne_true, if_neg Bool.false_ne_true,
      ValueSet.mem_inter (by simpa [ValueSet.SameShape] using hshape),
      ValueSet.mem_inter (by simpa [ValueSet.SameShape] using hshape'),
      ValueSet.mem_complement, ValueSet.mem_complement, hmem]

open Classical in
/-- The alternatives of the demand that a class of atoms is read as; a class that is not interpreted
has one. -/
noncomputable def classAlternatives (ctx : Interpretation) (k : Predicate.Tag × Bool) : Nat :=
  if h : ∃ ws, ctx.Gives k ws then max 1 h.choose.alternatives else 1

theorem one_le_classAlternatives (ctx : Interpretation) (k : Predicate.Tag × Bool) :
    1 ≤ ctx.classAlternatives k := by
  rw [classAlternatives]
  split
  · exact Nat.le_max_left ..
  · exact le_rfl

theorem Gives.classAlternatives_eq (h : ctx.Gives k vs) :
    ctx.classAlternatives k = max 1 vs.alternatives := by
  have hex : ∃ ws, ctx.Gives k ws := ⟨vs, h⟩
  rw [classAlternatives, dif_pos hex, ValueSet.alternatives_congr (hex.choose_spec.beq h)]

open Classical in
/-- Demands weigh twice as much as they have alternatives, and so do opaque literals.  The demands
on the attributes with `L` weigh one. -/
noncomputable def weighting (ctx : Interpretation) (L : String → Prop) : Weighting where
  values a vs := if L a then 1 else 2 * vs.alternatives
  literal k := 2 * ctx.classAlternatives k
  values_pos := by
    rintro a vs ⟨v, hv⟩
    have := ValueSet.alternatives_pos hv
    split <;> omega
  values_congr h := by rw [ValueSet.alternatives_congr h]
  values_inter a us vs := by
    have := ValueSet.alternatives_inter us vs
    split
    · exact le_rfl
    · calc 2 * (us.inter vs).alternatives
          ≤ 2 * (2 * (us.alternatives * vs.alternatives)) := by omega
        _ = 2 * us.alternatives * (2 * vs.alternatives) := by ring
  values_union a us vs := by
    have := ValueSet.alternatives_union us vs
    split <;> omega
  literal_pos k := by
    have := ctx.one_le_classAlternatives k
    omega

section weighting

variable {L : String → Prop} {a : String}

theorem weighting_values_of_light (h : L a) : (ctx.weighting L).values a vs = 1 := if_pos h

theorem weighting_values (h : ¬ L a) :
    (ctx.weighting L).values a vs = 2 * vs.alternatives := if_neg h

theorem weighting_values_le (a : String) {v : Option Value} (h : vs.Mem v) :
    (ctx.weighting L).values a vs ≤ 2 * vs.alternatives := by
  have := ValueSet.alternatives_pos h
  by_cases ha : L a
  · rw [weighting_values_of_light ha]
    omega
  · exact (weighting_values ha).le

theorem weighting_literal : (ctx.weighting L).literal k = 2 * ctx.classAlternatives k := rfl

theorem two_le_weighting_literal : 2 ≤ (ctx.weighting L).literal k := by
  have := ctx.one_le_classAlternatives k
  rw [weighting_literal]
  omega

end weighting

end Interpretation

/-! ## Predicates -/

namespace Predicate

/-- The weight of a predicate, or of its negation.  The predicates with `S` weigh one. -/
def weight (w : Weighting) (S : Predicate → Prop) [DecidablePred S] : Predicate → Bool → Nat
  | .always, _ | .never, _ => 1
  | .not a, negated => if S (.not a) then 1 else a.weight w S (!negated)
  | .and a b, negated =>
    if S (.and a b) then 1
    else if negated then a.weight w S negated + b.weight w S negated
    else a.weight w S negated * b.weight w S negated
  | .or a b, negated =>
    if S (.or a b) then 1
    else if negated then a.weight w S negated * b.weight w S negated
    else a.weight w S negated + b.weight w S negated
  | p, negated => if S p then 1 else w.literal (p.tag, !negated)

variable {w : Weighting} {S : Predicate → Prop} [DecidablePred S] {p q : Predicate}
  {ps : List Predicate}
  {negated : Bool}

theorem IsAtom.weight_eq_of_not_sole (h : p.IsAtom) (hp : ¬ S p) :
    p.weight w S negated = w.literal (p.tag, !negated) := by
  cases p <;> first | exact h.elim | exact if_neg hp

theorem weight_of_sole (h : S p) (negated : Bool) : p.weight w S negated = 1 := by
  cases p <;> first | rfl | exact if_pos h

theorem one_le_weight (p : Predicate) (negated : Bool) : 1 ≤ p.weight w S negated := by
  induction p generalizing negated with
  | always | never => exact le_rfl
  | not a ih =>
    rw [weight]
    split
    · exact le_rfl
    · exact ih _
  | and a b iha ihb | or a b iha ihb =>
    have hmul := Nat.mul_le_mul (iha negated) (ihb negated)
    have ha := iha negated
    rw [weight]
    split
    · exact le_rfl
    · split <;> omega
  | bare | compare | isIn | between | isNull | test =>
    show 1 ≤ if _ then 1 else _
    split
    · exact le_rfl
    · exact w.literal_pos _

theorem weight_not_le : (not p).weight w S negated ≤ p.weight w S (!negated) := by
  rw [weight]
  split
  · exact one_le_weight p _
  · exact le_rfl

theorem weight_and_le :
    (and p q).weight w S false ≤ p.weight w S false * q.weight w S false := by
  have := Nat.mul_le_mul (one_le_weight (w := w) (S := S) p false)
    (one_le_weight (w := w) (S := S) q false)
  rw [weight]
  split
  · exact this
  · rw [if_neg Bool.false_ne_true]

theorem weight_or_le :
    (or p q).weight w S false ≤ p.weight w S false + q.weight w S false := by
  have := one_le_weight (w := w) (S := S) p false
  rw [weight]
  split
  · omega
  · rw [if_neg Bool.false_ne_true]

theorem IsAtom.weight_le (h : p.IsAtom) :
    p.weight w S negated ≤ w.literal (p.tag, !negated) := by
  by_cases hp : S p
  · rw [weight_of_sole hp]
    exact w.literal_pos _
  · exact (h.weight_eq_of_not_sole hp).le

/-- **Equal predicates weigh the same.** -/
theorem weight_congr (hsole : ∀ {p q : Predicate}, (p == q) = true → (S p ↔ S q))
    (h : (p == q) = true) (negated : Bool) : p.weight w S negated = q.weight w S negated := by
  induction p generalizing q negated with
  | always | never =>
    cases q <;> cases h
    rfl
  | bare | compare | isIn | between | isNull | test =>
    have htag := congrArg (fun t ↦ w.literal (t, !negated)) (tag_eq_of_beq h)
    cases q <;> first | exact if_congr (hsole h) rfl htag | cases h
  | not a ih =>
    cases q <;> try cases h
    exact if_congr (hsole h) rfl (ih h _)
  | and a b iha ihb | or a b iha ihb =>
    cases q <;> try cases h
    rename_i c d
    have hparts : (a == c) = true ∧ (b == d) = true := Bool.and_eq_true_iff.1 h
    rw [weight, weight, iha hparts.1, ihb hparts.2]
    exact if_congr (hsole h) rfl rfl

theorem weight_foldl_or_le (p : Predicate) (ps : List Predicate) :
    (ps.foldl .or p).weight w S false ≤
      p.weight w S false + (ps.map fun q ↦ q.weight w S false).sum := by
  induction ps generalizing p with
  | nil => exact le_rfl
  | cons q ps ih =>
    rw [List.foldl_cons, List.map_cons, List.sum_cons, ← Nat.add_assoc]
    exact (ih _).trans (Nat.add_le_add_right weight_or_le _)

/-- A disjunction weighs no more than its parts together. -/
theorem weight_disjunction_le {n : Nat} (hn : 1 ≤ n)
    (h : (ps.map fun q ↦ q.weight w S false).sum ≤ n) :
    (disjunction ps).weight w S false ≤ n := by
  cases ps with
  | nil => exact hn
  | cons p ps => exact (weight_foldl_or_le p ps).trans h

theorem weight_foldl_and_le (p : Predicate) (ps : List Predicate) :
    (ps.foldl .and p).weight w S false ≤
      p.weight w S false * (ps.map fun q ↦ q.weight w S false).prod := by
  induction ps generalizing p with
  | nil => exact (Nat.mul_one _).ge
  | cons q ps ih =>
    rw [List.foldl_cons, List.map_cons, List.prod_cons, ← Nat.mul_assoc]
    exact (ih _).trans (Nat.mul_le_mul_right _ weight_and_le)

/-- A conjunction weighs no more than the product of its parts. -/
theorem weight_conjunction_le :
    (conjunction ps).weight w S false ≤ (ps.map fun q ↦ q.weight w S false).prod := by
  cases ps with
  | nil => exact le_rfl
  | cons p ps => exact weight_foldl_and_le p ps

end Predicate

end RuleCoverage
