import RuleCoverage.Proofs.NormalForm.Cycles
import RuleCoverage.Proofs.NormalForm.RoundTrip.Insertion

/-!
# Where the passes end without a schema

A pass may drop what an attribute is compared with, and then the next one may infer a kind for an
attribute that had none.  But no attribute loses its kind, so each pass that has something left to
do leaves fewer attributes without a kind than there were (`Predicate.kindless`).  The number of
such attributes bounds the number of passes, and if it is small enough, simplification is idempotent
(`Predicate.simplify_idempotent_inferred`).  It is not if there are too many of them.
-/

set_option autoImplicit false

namespace RuleCoverage

namespace Predicate

variable {ctx ctx' : Interpretation} {a : String} {effort : Effort} {p q x y z : Predicate}
  {ts : List Term} {n : Nat}

/-! ## Attributes without a kind -/

/-- The attributes of a predicate of which no kind can be inferred. -/
def kindless (p : Predicate) : List String :=
  p.attributes.toList.filter fun a ↦ (Interpretation.inferKind? p.atoms a).isNone

theorem mem_kindless (hctx : Interpretation.of p none = .ok ctx) :
    a ∈ p.kindless ↔ p.Names a ∧ ctx.kind? a = none := by
  rw [kindless, List.mem_filter, mem_attributes, Option.isNone_iff_eq_none]
  exact and_congr_right fun ha ↦ by rw [Interpretation.kind?_of_named hctx ha]

theorem nodup_kindless (p : Predicate) : p.kindless.Nodup := by
  refine List.Nodup.filter _ (p.attributes.distinct.imp fun hne heq ↦ ?_)
  rw [heq, beq_self_eq_true] at hne
  cases hne

/-- No attribute loses its kind in a pass. -/
theorem kindless_subset (hx : simplifyOnce none effort x = .ok y) : y.kindless ⊆ x.kindless := by
  obtain ⟨ctx, -, hctx, -⟩ := simplifyOnce_cases hx
  obtain ⟨ctx', hctx'⟩ := exists_of_simplifyOnce hx
  intro a ha
  obtain ⟨hnames, hk⟩ := (mem_kindless hctx').1 ha
  refine (mem_kindless hctx).2 ⟨names_of_simplifyOnce hx hnames, ?_⟩
  cases hk' : ctx.kind? a with
  | none => rfl
  | some k =>
    obtain ⟨k', hk''⟩ := exists_kind? hctx' (allAtoms_showsKinds hctx hx) hk' hnames
    cases hk.symm.trans hk''

/-- If an attribute gets a kind, fewer are left that have none. -/
theorem length_kindless_lt (hx : simplifyOnce none effort x = .ok y) (ha : a ∈ x.kindless)
    (ha' : a ∉ y.kindless) : y.kindless.length < x.kindless.length :=
  ((nodup_kindless y).cons ha').subperm (List.cons_subset.2 ⟨ha, kindless_subset hx⟩) |>.length_le

/-! ## Passes -/

/-- **The passes end** before there are more of them than attributes without a kind; the search for
tautologies may take another one. -/
theorem simplifyOnce_of_passes_inferred (hx : simplifyOnce none effort x = .ok y)
    (h : Passes (simplifyOnce none effort) n y z)
    (hn : x.kindless.length + effort.detectsTautologies.toNat ≤ n) :
    simplifyOnce none effort z = .ok z := by
  induction n generalizing x y with
  | zero =>
    obtain rfl : y = z := h
    obtain ⟨ctx, ts, hctx, hts, ⟨-, rfl⟩ | ⟨-, -, rfl⟩ | ⟨-, rfl⟩⟩ := simplifyOnce_cases hx
    · exact simplifyOnce_never
    · exact simplifyOnce_always
    obtain ⟨ctx', hctx'⟩ := exists_of_simplifyOnce hx
    have hnone : x.kindless = [] := List.length_eq_zero_iff.1 (by omega)
    have hlost : ∀ a, (Term.disjunctionOf ctx ts).Names a → ctx.kind? a = none →
        ctx'.kind? a = none := by
      intro a ha hk
      have hmem := (mem_kindless hctx).2 ⟨names_of_simplifyOnce hx ha, hk⟩
      rw [hnone] at hmem
      cases hmem
    obtain ⟨found, hfound, hpass⟩ := stays_disjunctionOf hctx hts hctx' hlost
    cases found with
    | false => exact hpass
    | true => simp [hfound rfl] at hn
  | succ n ih =>
    obtain ⟨y', hy, h⟩ := h
    obtain ⟨ctx, ts, hctx, hts, ⟨-, rfl⟩ | ⟨-, -, rfl⟩ | ⟨-, rfl⟩⟩ := simplifyOnce_cases hx
    · cases simplifyOnce_never.symm.trans hy
      exact h.fixed simplifyOnce_never
    · cases simplifyOnce_always.symm.trans hy
      exact h.fixed simplifyOnce_always
    obtain ⟨ctx', -, hctx', -⟩ := simplifyOnce_cases hy
    by_cases hlost : ∀ a, (Term.disjunctionOf ctx ts).Names a → ctx.kind? a = none →
        ctx'.kind? a = none
    · exact (stays_disjunctionOf hctx hts hctx' hlost).fixed_of_passes ⟨y', hy, h⟩
    · -- an attribute has got a kind
      push Not at hlost
      obtain ⟨a, ha, hk, hk'⟩ := hlost
      have hlt := length_kindless_lt hx ((mem_kindless hctx).2 ⟨names_of_simplifyOnce hx ha, hk⟩)
        fun hmem ↦ hk' ((mem_kindless hctx').1 hmem).2
      exact ih hy h (by omega)

/-- **Without a schema a simplified predicate is its own simplification**, unless there are too many
attributes of which no kind can be inferred. -/
theorem simplify_idempotent_inferred
    (hp : p.kindless.length + effort.detectsTautologies.toNat < maxPasses)
    (h : p.simplify none effort = .ok q) : q.simplify none effort = .ok q := by
  have hend : ∀ {z}, Passes (simplifyOnce none effort) maxPasses p z →
      simplifyOnce none effort z = .ok z := by
    rintro z ⟨y, hy, hrun⟩
    exact simplifyOnce_of_passes_inferred hy hrun (Nat.le_of_lt_succ hp)
  have hstable : Stable (simplifyOnce none effort) q :=
    stable_of_settle simplifyOnce_of_passes_back_inferred hend h
  exact hstable.settle_eq 15

/-- A depth and a membership in nothing, of which no kind can be inferred. -/
theorem simplify_idempotent_inferred_depth : ∃ q,
    (and (isIn (.text "class") ∅) (compare (.text "depth") .gt (.int 2))).simplify none {} = .ok q ∧
    (and (isIn (.text "class") ∅) (compare (.text "depth") .gt (.int 2))).kindless = ["class"] ∧
    q.simplify none {} = .ok q := by
  have hsome : ((and (isIn (.text "class") ∅)
      (compare (.text "depth") .gt (.int 2))).simplify none {}).toOption.isSome = true := by
    decide +kernel
  obtain ⟨q, hq⟩ := Option.isSome_iff_exists.1 hsome
  have hkindless : (and (isIn (.text "class") ∅)
      (compare (.text "depth") .gt (.int 2))).kindless = ["class"] := by decide +kernel
  exact ⟨q, eq_ok_of_toOption hq, hkindless,
    simplify_idempotent_inferred (by rw [hkindless]; decide) (eq_ok_of_toOption hq)⟩

/-! ## More passes than there may be -/

/-- For each attribute but the last, a range that is empty as soon as the attribute is numeric, and
a text that the next attribute is compared with. -/
def emptyRanges : List String → List Predicate
  | a :: b :: rest =>
    and (between (.text a) (.int 5) (.int 3) true true) (compare (.text b) .eq (.text "t")) ::
      emptyRanges (b :: rest)
  | _ => []

/-- A pass finds only the first range empty, and then the next attribute is numeric; so after all
passes there is still one range left. -/
theorem not_simplify_idempotent_inferred : ∃ q r,
    (disjunction (emptyRanges ["a", "b", "c", "d", "e", "f", "g", "h", "i", "j", "k", "l", "m", "n",
      "o", "p", "q", "r"])).simplify none { detectsTautologies := false } = .ok q ∧
    q.simplify none { detectsTautologies := false } = .ok r ∧ ¬ (r == q) = true := by
  have hsettles : ∃ q, ((disjunction (emptyRanges ["a", "b", "c", "d", "e", "f", "g", "h", "i", "j",
      "k", "l", "m", "n", "o", "p", "q", "r"])).simplify none
        { detectsTautologies := false }).toOption = some q ∧ ∃ r,
      (q.simplify none { detectsTautologies := false }).toOption = some r ∧ (!(r == q)) = true := by
    have heval : ((settle (simplifyOnceByInsertion none { detectsTautologies := false }) maxPasses
        [disjunction (emptyRanges ["a", "b", "c", "d", "e", "f", "g", "h", "i", "j", "k", "l", "m",
          "n", "o", "p", "q", "r"])]
        (disjunction (emptyRanges ["a", "b", "c", "d", "e", "f", "g", "h", "i", "j", "k", "l", "m",
          "n", "o", "p", "q", "r"]))).toOption.any fun q ↦
        (settle (simplifyOnceByInsertion none { detectsTautologies := false }) maxPasses
          [q] q).toOption.any fun r ↦ !(r == q)) = true := by
      decide +kernel
    rw [← simplifyOnce_eq_byInsertion] at heval
    obtain ⟨q, hq, hr⟩ := (Option.any_eq_true _ _).1 heval
    exact ⟨q, hq, (Option.any_eq_true _ _).1 hr⟩
  obtain ⟨q, hq, r, hr, hne⟩ := hsettles
  refine ⟨q, r, eq_ok_of_toOption hq, eq_ok_of_toOption hr, ?_⟩
  rwa [Bool.not_eq_true, ← Bool.not_eq_true']

end Predicate

end RuleCoverage
