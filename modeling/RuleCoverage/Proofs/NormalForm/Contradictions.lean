import RuleCoverage.Proofs.NormalForm.RoundTrip.Inferred
import RuleCoverage.Proofs.NormalForm.Satisfiability

/-!
# Two ways to find a contradiction

Whether a predicate can hold at all is seen from its expansion, and a predicate that cannot is
simplified to `never`.  Conversely, a predicate that is simplified to `never` has an empty
expansion, if the kinds of all its attributes are known (`Predicate.isSatisfiable_eq_false_iff`).

If they are not, the first pass may drop the literals because of which an attribute had no kind, and
only then a later one finds the contradiction (`Predicate.isSatisfiable_of_unread_range`).
-/

set_option autoImplicit false

namespace RuleCoverage

namespace Predicate

variable {p q x y : Predicate} {ctx : Interpretation} {schema? : Option Schema} {effort : Effort}
  {ts : List Term}

/-- Without a schema, the predicate has a kind for each of its attributes. -/
def HasKinds (p : Predicate) : Prop :=
  ∀ ctx, Interpretation.of p none = .ok ctx → ∀ a, p.Names a → ∃ k, ctx.kind? a = some k

/-- The domains of a schema hold texts and numbers, or if there is none, the attributes of the
predicate have kinds. -/
def IsInterpreted (p : Predicate) : Option Schema → Prop
  | some schema => schema.HasPlainCategories
  | none => p.HasKinds

theorem isSatisfiable_eq {b : Bool} (h : p.isSatisfiable schema? = .ok b) :
    ∃ ctx ts, Interpretation.of p schema? = .ok ctx ∧ p.expand ctx false = .ok ts ∧
      b = !ts.isEmpty := by
  obtain ⟨ctx, hctx, h⟩ := bind_eq_ok.1 h
  obtain ⟨ts, hts, h⟩ := bind_eq_ok.1 h
  exact ⟨ctx, ts, hctx, hts, (Except.ok.inj h).symm⟩

/-! ## A contradiction is found in the first pass -/

/-- A predicate with an empty expansion is simplified to `never`. -/
theorem simplify_of_expand_nil (hctx : Interpretation.of p schema? = .ok ctx)
    (hts : p.expand ctx false = .ok []) (hq : p.simplify schema? effort = .ok q) : q = .never := by
  have hfirst : simplifyOnce schema? effort p = .ok never := simplifyOnce_of_expand hctx hts effort
  have hsettled := settle_of_pass_fixed simplifyOnce_never (fun _ ↦ beq_never_iff) hfirst 15
  exact Except.ok.inj (hq.symm.trans hsettled)

/-! ## Passes do not run into a contradiction -/

/-- The predicate has kinds for its attributes, and its expansion is not empty. -/
structure Lasts (p : Predicate) : Prop where
  kinds : p.HasKinds
  expand_ne_nil : ∀ {ctx ts}, Interpretation.of p none = .ok ctx → p.expand ctx false = .ok ts →
    ts ≠ []

theorem Lasts.ne_never (h : p.Lasts) : p ≠ .never := by
  rintro rfl
  have hctx : Interpretation.of .never none = .ok ⟨none, []⟩ := rfl
  exact h.expand_ne_nil hctx rfl rfl

/-- If the kinds of all attributes are known, no pass runs into a contradiction that was not there
before. -/
theorem Lasts.simplifyOnce (h : x.Lasts) (hy : simplifyOnce none effort x = .ok y) : y.Lasts := by
  obtain ⟨ctx, ts, hctx, hts, hcases⟩ := simplifyOnce_cases hy
  rcases hcases with ⟨hnil, -⟩ | ⟨-, -, rfl⟩ | ⟨hne, rfl⟩
  · exact absurd hnil (h.expand_ne_nil hctx hts)
  · refine ⟨?_, fun _ hts ↦ by cases hts; exact List.cons_ne_nil _ _⟩
    rintro ctx' - a ⟨atom, hatom, hn⟩
    rw [List.mem_singleton.1 hatom] at hn
    cases hn
  · have hshows := showsKinds_disjunctionOf hctx hts
    have hkinds : ∀ a, (Term.disjunctionOf ctx ts).Names a → ∃ k, ctx.kind? a = some k :=
      fun a ha ↦ h.kinds ctx hctx a (names_of_disjunctionOf hts ha)
    refine ⟨fun ctx' hctx' a ha ↦ ?_, fun {ctx' ts'} hctx' hts' ↦ ?_⟩
    · obtain ⟨k, hk⟩ := hkinds a ha
      exact exists_kind? hctx' hshows hk ha
    · obtain ⟨us, hus, hrereads⟩ := exists_reread_inferred hctx hts hctx' fun a ha hk ↦ by
        obtain ⟨k, hk'⟩ := hkinds a ha
        cases hk.symm.trans hk'
      cases hts'.symm.trans hus
      rintro rfl
      refine hne (List.eq_nil_of_length_eq_zero ?_)
      rw [← (Term.inOrder_perm ctx ts).length_eq, hrereads.length_eq, List.length_nil]

/-- **Both ways find the same contradictions.** -/
theorem isSatisfiable_eq_false_iff {b : Bool} (hp : p.IsInterpreted schema?)
    (hb : p.isSatisfiable schema? = .ok b) (hq : p.simplify schema? effort = .ok q) :
    b = false ↔ q = .never := by
  obtain ⟨ctx, ts, hctx, hts, rfl⟩ := isSatisfiable_eq hb
  rw [Bool.not_eq_false', List.isEmpty_iff]
  constructor
  · rintro rfl
    exact simplify_of_expand_nil hctx hts hq
  cases schema? with
  | some schema =>
    cases hctx
    rw [expand_eq_nil_iff hp hts, simplify_eq_never_iff hp hq]
    exact id
  | none =>
    intro hnever
    by_contra hne
    have hlasts : p.Lasts := by
      refine ⟨hp, fun {ctx' ts'} hctx' hts' ↦ ?_⟩
      cases hctx.symm.trans hctx'
      cases hts.symm.trans hts'
      exact hne
    refine Lasts.ne_never (settle_induction (P := Lasts) (fun x y hx hy ↦ hx.simplifyOnce hy) ?_
      hlasts hq) hnever
    simpa using hlasts

/-- That a road cannot be both narrow and wide is found in both ways. -/
theorem isSatisfiable_narrow_and_wide :
    (and (compare (.text "lanes") .lt (.int 2))
      (compare (.text "lanes") .gt (.int 4))).isSatisfiable none = .ok false := by
  let p := and (compare (.text "lanes") .lt (.int 2)) (compare (.text "lanes") .gt (.int 4))
  have hkinds : p.IsInterpreted none := by
    intro ctx hctx a ha
    have hname : a = "lanes" := by
      rw [← mem_attributes] at ha
      exact List.mem_singleton.1 ha
    cases hctx
    exact ⟨.numeric, by rw [hname]; rfl⟩
  have hsome : (p.isSatisfiable none).toOption.isSome = true := by decide +kernel
  obtain ⟨b, hb⟩ := Option.isSome_iff_exists.1 hsome
  have hb := eq_ok_of_toOption hb
  have hnever : p.simplify none {} = .ok .never := eq_ok_never (by decide +kernel)
  rw [hb, (isSatisfiable_eq_false_iff hkinds hb hnever).2 rfl]

/-- **A contradiction that is found late.**  The text because of which the attribute has no kind is
never looked at, and the first pass drops it.  Only the second pass reads the range, which is
empty. -/
theorem isSatisfiable_of_unread_range :
    (or (and (compare (.text "b") .eq (.text "t")) never)
        (between (.text "b") (.int 5) (.int 3) true true)).isSatisfiable none = .ok true ∧
      (or (and (compare (.text "b") .eq (.text "t")) never)
        (between (.text "b") (.int 5) (.int 3) true true)).simplify none {} = .ok .never := by
  refine ⟨eq_ok_of_toOption ?_, eq_ok_never ?_⟩
  · decide +kernel
  · decide +kernel

end Predicate

end RuleCoverage
