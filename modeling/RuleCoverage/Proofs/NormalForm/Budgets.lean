import Mathlib.Data.List.TakeWhile
import RuleCoverage.Proofs.NormalForm.Simplification
import RuleCoverage.Proofs.Number.Line

/-!
# More search

The effort of a simplification bounds one thing only, which is the search for what always holds.
All the rest of a pass is the same under any effort, and a search that comes to an end within a
budget comes to the same terms within any larger one.  Hence passes with more effort go the way of
those with less, until perhaps one of them finds that a predicate always holds, and then that is the
result (`Predicate.simplify_of_larger_budget`).
-/

set_option autoImplicit false

namespace RuleCoverage

/-! ## Budgets -/

/-- What exceeds the larger budget exceeds the smaller one. -/
instance : LE Budget := ⟨fun b b' ↦ ∀ n, b'.exceededBy n = true → b.exceededBy n = true⟩

theorem Budget.atMost_le_atMost {m m' : Extended} (h : m ≤ m') : atMost m ≤ atMost m' := by
  intro n hn
  simp only [exceededBy, decide_eq_true_eq, ← Extended.toEReal_lt_toEReal] at hn ⊢
  exact lt_of_le_of_lt (Extended.toEReal_le_toEReal.2 h) hn

/-- The larger effort searches if the smaller one does, within a larger budget. -/
instance : LE Effort :=
  ⟨fun e e' ↦ e.detectsTautologies = true → e'.detectsTautologies = true ∧ e.budget ≤ e'.budget⟩

namespace Term

variable {ctx : Interpretation} {budget budget' : Budget} {acc ts us : List Term}

/-- A search that ends within a budget ends in the same way within a larger one. -/
theorem negateFrom?_of_le (hle : budget ≤ budget')
    (h : negateFrom? ctx budget acc ts = some us) : negateFrom? ctx budget' acc ts = some us := by
  induction ts generalizing acc with
  | nil => exact h
  | cons t rest ih =>
    rw [negateFrom?] at h ⊢
    split at h
    · cases h
    rename_i hwithin
    rw [if_neg fun hexceeds ↦ hwithin (hle _ hexceeds)]
    split at h
    · exact h
    · exact ih h

end Term

namespace Predicate

variable {ctx : Interpretation} {schema? : Option Schema} {effort effort' : Effort}
  {p q q' x y z : Predicate}

/-! ## Passes -/

/-- What little effort finds to hold always, more effort does. -/
theorem isTautology_of_le (hle : effort ≤ effort') {ts : List Term}
    (h : isTautology ctx effort ts = true) : isTautology ctx effort' ts = true := by
  rw [isTautology, Bool.and_eq_true] at h
  obtain ⟨hdetects, hbudget⟩ := hle h.1
  have hneg := h.2
  split at hneg
  · rename_i hnil
    have hnil' : Term.negateAll? ctx effort'.budget ts = some [] :=
      Term.negateFrom?_of_le hbudget hnil
    rw [isTautology, hdetects, hnil']
    rfl
  · cases hneg

/-- A pass with more effort does the same, unless it finds that the predicate always holds. -/
theorem simplifyOnce_of_le (hle : effort ≤ effort') (hy : simplifyOnce schema? effort x = .ok y)
    (hz : simplifyOnce schema? effort' x = .ok z) : z = y ∨ z = .always := by
  obtain ⟨ctx, ts, hctx, hts, -⟩ := simplifyOnce_cases hy
  rw [simplifyOnce_of_expand hctx hts, Except.ok.injEq] at hy hz
  subst hy hz
  by_cases htaut : isTautology ctx effort ts = true
  · rw [htaut, isTautology_of_le hle htaut]
    exact .inl rfl
  · rw [Bool.not_eq_true] at htaut
    rw [htaut]
    cases isTautology ctx effort' ts with
    | false => exact .inl rfl
    | true =>
      split
      · exact .inl rfl
      · rw [Bool.or_true]
        exact .inr rfl

/-- **Two runs of passes keep step** until one of them comes to `always`, if each pass of the second
does what a pass of the first does or comes to `always`. -/
theorem settle_of_le {pass pass' : Predicate → Except Error Predicate}
    (halways : pass' .always = .ok .always)
    (hpass : ∀ x y z, pass x = .ok y → pass' x = .ok z → z = y ∨ z = .always) {n : Nat}
    {rest : List Predicate} {current : Predicate} (hrest : ∀ x ∈ rest, ¬ (x == .always) = true)
    (h : settle pass n (rest ++ [current]) current = .ok q)
    (h' : settle pass' n (rest ++ [current]) current = .ok q') : q' = q ∨ q' = .always := by
  induction n generalizing rest current with
  | zero =>
    cases h
    cases h'
    exact .inl rfl
  | succ n ih =>
    by_cases hcur : (current == .always) = true
    · cases eq_always_of_beq hcur
      have hsettled := settle_of_fixed halways (beq_always_iff.2 rfl) hrest (n + 1)
      exact .inr (Except.ok.inj (h'.symm.trans hsettled))
    have hseen : ∀ x ∈ rest ++ [current], ¬ (x == .always) = true :=
      List.forall_mem_append.2 ⟨hrest, by simpa using hcur⟩
    obtain ⟨y, hy, h⟩ := bind_eq_ok.1 h
    obtain ⟨z, hz, hsettle'⟩ := bind_eq_ok.1 h'
    rcases hpass current y z hy hz with rfl | rfl
    · -- both runs find the same predicate among those seen, or go on with it
      split at h
      · rename_i found cycle hdrop
        rw [hdrop] at hsettle'
        cases h
        cases hsettle'
        exact .inl rfl
      · rename_i hdrop
        rw [hdrop] at hsettle'
        exact ih hseen h hsettle'
    · -- the second run ends here
      have hdrop : (rest ++ [current]).dropWhile (· != .always) = [] := by
        rw [List.dropWhile_eq_nil_iff]
        intro x hx
        simpa [bne] using hseen x hx
      rw [hdrop] at hsettle'
      have hsettled := settle_of_fixed halways (beq_always_iff.2 rfl) hseen n
      exact .inr (Except.ok.inj (hsettle'.symm.trans hsettled))

/-- **A larger budget only ever adds `always`**: the result with it is the result with a smaller
one, or without any search, or it is `always`; and what the smaller one finds to hold always, it
does. -/
theorem simplify_of_larger_budget {m m' : Extended} {detects : Bool} (hm : m ≤ m')
    (h : p.simplify schema? ⟨.atMost m, detects⟩ = .ok q)
    (h' : p.simplify schema? ⟨.atMost m', true⟩ = .ok q') :
    (q' = q ∨ q' = .always) ∧ (q = .always → q' = .always) := by
  have hle : (⟨.atMost m, detects⟩ : Effort) ≤ ⟨.atMost m', true⟩ :=
    fun _ ↦ ⟨rfl, Budget.atMost_le_atMost hm⟩
  have hcases : q' = q ∨ q' = .always := by
    have hrest : ∀ x ∈ ([] : List Predicate), ¬ (x == .always) = true := by simp
    exact settle_of_le simplifyOnce_always (fun x y z ↦ simplifyOnce_of_le hle) hrest h h'
  refine ⟨hcases, ?_⟩
  rintro rfl
  exact hcases.elim id id

/-- That a river is deep, or not deep, or no river is found to hold always within two terms, and so
it is within as many as there may be by default. -/
theorem simplify_of_two_terms :
    let river := compare (.text "class") .eq (.text "river")
    let deep := test ⟨"is_deep", false, "deep"⟩
    let p := or (and river deep) (or (not deep) (not river))
    p.simplify none ⟨.atMost (.finite 2), true⟩ = .ok .always ∧
      p.simplify none {} = .ok .always := by
  intro river deep p
  have hsmall : p.simplify none ⟨.atMost (.finite 2), true⟩ = .ok .always :=
    eq_ok_always (by decide +kernel)
  have hsome : (p.simplify none {}).toOption.isSome = true := by decide +kernel
  obtain ⟨q, hq⟩ := Option.isSome_iff_exists.1 hsome
  have hq := eq_ok_of_toOption hq
  have hle : Extended.finite 2 ≤ Extended.finite 256 := by decide +kernel
  exact ⟨hsmall, by rw [hq, (simplify_of_larger_budget hle hsmall hq).2 rfl]⟩

end Predicate

end RuleCoverage
