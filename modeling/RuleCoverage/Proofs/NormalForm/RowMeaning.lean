import RuleCoverage.Config
import RuleCoverage.Proofs.Feature.RowReading
import RuleCoverage.Proofs.NormalForm.Inference

/-!
# Simplification on rows

A simplified predicate has on a row the truth value of the given one, if the row conforms to the
schema and its cells are compared by value (`Predicate.holds_simplify`).  Without a schema each pass
infers the kinds of attributes anew, from the literals that are left; the row suits what is inferred
all the same, because an attribute is numeric only where a number is left.
-/

set_option autoImplicit false

namespace RuleCoverage

/-- Settings under which nothing is searched for what always holds. -/
def Config.withoutSearch : Config := { detectTautologies := .bool false }

/-- The row of one whole number, out of a column of such. -/
def Row.ofInt (a : String) (n : Int) : Row :=
  ⟨[(.text a, ⟨.int, some (.int n)⟩)], fun _ ↦ false, .text⟩

/-! ## The truth of a predicate on a row -/

namespace Row

variable {row : Row} {schema? : Option Schema} {ctx : Interpretation} {p q : Predicate}
  {effort : Effort}

/-- A row suits how the predicates are read that it knows. -/
theorem suits_of (hrow : row.Conforms schema?) (hp : p.AllAtoms (row.Knows schema?))
    (hctx : Interpretation.of p schema? = .ok ctx) : row.Suits schema? ctx where
  schema := Interpretation.schema?_of hctx
  conforms := hrow
  numeric := by
    intro a hk
    cases schema? with
    | some schema =>
      cases hctx
      have hrow' := hrow schema rfl a
      change schema.kind? a = some .numeric at hk
      rwa [hk] at hrow'
    | none =>
      obtain heq | ⟨atom, hatom, hn, hnumber⟩ := Interpretation.literal_of_kind? hctx hk
      · cases heq
      · have hisAtom : atom.IsAtom := by cases atom <;> trivial
        exact (((Predicate.allAtoms_iff p).1 hp atom hatom hisAtom).2).numeric rfl a hn hnumber
  categorical := by
    rintro a hk rfl
    obtain heq | ⟨-, -, -, s, -, hkind⟩ := Interpretation.literal_of_kind? hctx hk
    · cases heq
    · cases s <;> cases hkind

/-- A predicate that can be evaluated is true when it says so of its atoms. -/
theorem holds_iff_isTrue (hp : p.AllAtoms fun atom ↦ ∃ r, atom.holds row = .ok r) :
    ∃ r, p.holds row = .ok r ∧ (r = true ↔ p.IsTrue row.Truth) := by
  induction p with
  | always => exact ⟨true, rfl, iff_of_true rfl trivial⟩
  | never => exact ⟨false, rfl, iff_of_false Bool.false_ne_true id⟩
  | not a ih =>
    obtain ⟨r, hr, hiff⟩ := ih hp
    refine ⟨!r, by rw [Predicate.holds, hr]; rfl, ?_⟩
    rw [Predicate.IsTrue, ← hiff]
    simp
  | and a b iha ihb =>
    obtain ⟨r, hr, hiff⟩ := iha hp.1
    obtain ⟨t, ht, hiff'⟩ := ihb hp.2
    refine ⟨r && t, by rw [Predicate.holds, hr, ht]; rfl, ?_⟩
    rw [Predicate.IsTrue, ← hiff, ← hiff', Bool.and_eq_true]
  | or a b iha ihb =>
    obtain ⟨r, hr, hiff⟩ := iha hp.1
    obtain ⟨t, ht, hiff'⟩ := ihb hp.2
    refine ⟨r || t, by rw [Predicate.holds, hr, ht]; rfl, ?_⟩
    rw [Predicate.IsTrue, ← hiff, ← hiff', Bool.or_eq_true]
  | _ =>
    obtain ⟨r, hr⟩ := hp
    refine ⟨r, hr, ?_⟩
    show r = true ↔ row.Truth _
    rw [Truth, hr, Except.ok.injEq]

/-- The atoms of a predicate that can be evaluated can be evaluated. -/
theorem evaluates_of_holds {r : Bool} (h : p.holds row = .ok r) :
    p.AllAtoms fun atom ↦ ∃ r, atom.holds row = .ok r := by
  induction p generalizing r with
  | always | never => trivial
  | not a ih =>
    obtain ⟨t, ht, -⟩ := bind_eq_ok.1 h
    exact ih ht
  | and a b iha ihb | or a b iha ihb =>
    obtain ⟨t, ht, h⟩ := bind_eq_ok.1 h
    obtain ⟨u, hu, -⟩ := bind_eq_ok.1 h
    exact ⟨iha ht, ihb hu⟩
  | _ => exact ⟨r, h⟩

/-- A row knows the atoms of a predicate that has a truth value on it and is compared by value. -/
theorem knows_of_holds {r : Bool} (hp : p.AllAtoms (row.Takes schema?)) (h : p.holds row = .ok r) :
    p.AllAtoms (row.Knows schema?) := by
  have heval := evaluates_of_holds h
  rw [Predicate.allAtoms_iff] at hp heval ⊢
  exact fun atom hatom hisAtom ↦ ⟨heval atom hatom hisAtom, hp atom hatom hisAtom⟩

/-- Two and three are doubles. -/
theorem isExact_lanes {n : Int} (hn : n = 2 ∨ n = 3) : (Scalar.int n).IsExact := by
  rw [Scalar.IsExact]
  rcases hn with rfl | rfl <;> decide +kernel

/-- A row of lanes can be asked for two lanes. -/
theorem knows_lanes {n : Int} (hn : n = 2 ∨ n = 3) :
    (Row.ofInt "lanes" n).Knows none (.compare (.text "lanes") .eq (.int 2)) := by
  have hcell : ((Row.ofInt "lanes" n).cellNamed "lanes").IsNumeric :=
    ⟨rfl, fun _ _ ↦ ColumnType.noConfusion, fun _ ↦ isExact_lanes hn⟩
  have htwo := isExact_lanes (.inl rfl)
  refine ⟨⟨_, rfl⟩, takes_of_compares rfl ?_⟩
  intro s hs
  obtain rfl := List.mem_singleton.1 hs
  exact ⟨hcell.decides htwo rfl, fun _ ↦ htwo, fun _ _ ↦ hcell⟩

/-- A row knows the atoms of a simplified predicate, which is true on it when the given one is. -/
theorem writes_simplify (hrow : row.Conforms schema?) (hp : p.AllAtoms (row.Knows schema?))
    (h : p.simplify schema? effort = .ok q) :
    q.AllAtoms (row.Knows schema?) ∧ (q.IsTrue row.Truth ↔ p.IsTrue row.Truth) := by
  have hself : p.AllAtoms (row.Knows schema?) ∧ (p.IsTrue row.Truth ↔ p.IsTrue row.Truth) :=
    ⟨hp, Iff.rfl⟩
  refine Predicate.settle_induction (P := fun x ↦
    x.AllAtoms (row.Knows schema?) ∧ (x.IsTrue row.Truth ↔ p.IsTrue row.Truth)) ?_
    (by simpa using hself) hself h
  rintro x y ⟨hx, hxp⟩ hy
  obtain ⟨ctx, -, hctx, -⟩ := Predicate.simplifyOnce_cases hy
  have hwrites :=
    Predicate.writes_simplifyOnce (r := row.reading (suits_of hrow hx hctx)) hctx hx hy
  exact ⟨hwrites.1, hwrites.2.trans hxp⟩

end Row

namespace Predicate

/-- That an attribute equals a whole number, as one alternative of which the other cannot be. -/
def neverOrEq (a : String) (n : Int) : Predicate := .or .never (.compare (.text a) .eq (.int n))

/-- A number that is not a double is taken for one when the alternative is simplified. -/
theorem exists_simplify_rounded : ∃ q,
    (neverOrEq "x" (2 ^ 53)).simplify none Config.withoutSearch.effort =
        .ok q ∧
      q.holds (.ofInt "x" (2 ^ 53 + 1)) = .ok true := by
  have hafter : ((neverOrEq "x" (2 ^ 53)).simplify none
      Config.withoutSearch.effort >>=
        holds (.ofInt "x" (2 ^ 53 + 1))).toOption = some true := by
    decide +kernel
  exact bind_eq_ok.1 (eq_ok_of_toOption hafter)

/-- **A simplified predicate has the truth value of the given one on every row that conforms to the
schema and compares its cells by value.** -/
theorem holds_simplify {row : Row} {schema? : Option Schema} {p q : Predicate} {effort : Effort}
    {r : Bool} (hrow : row.Conforms schema?) (hp : p.AllAtoms (row.Takes schema?))
    (h : p.simplify schema? effort = .ok q) (hr : p.holds row = .ok r) : q.holds row = .ok r := by
  have hknows := Row.knows_of_holds hp hr
  obtain ⟨hq, hiff⟩ := Row.writes_simplify hrow hknows h
  obtain ⟨r', hr', hp'⟩ := Row.holds_iff_isTrue (Row.evaluates_of_holds hr)
  obtain ⟨t, ht, hq'⟩ := Row.holds_iff_isTrue (hq.imp fun _ h ↦ h.1)
  cases hr.symm.trans hr'
  rw [ht, Bool.eq_iff_iff.2 (hq'.trans (hiff.trans hp'.symm))]

/-- Two lanes stay two lanes. -/
theorem holds_simplify_two_lanes : ∃ q,
    (neverOrEq "lanes" 2).simplify none Config.withoutSearch.effort = .ok q ∧
      q.holds (.ofInt "lanes" 2) = .ok true := by
  have hsome : ((neverOrEq "lanes" 2).simplify none
      Config.withoutSearch.effort).toOption.isSome = true := by
    decide +kernel
  obtain ⟨q, hq⟩ := Option.isSome_iff_exists.1 hsome
  have hq := eq_ok_of_toOption hq
  have hatoms : (neverOrEq "lanes" 2).AllAtoms ((Row.ofInt "lanes" 2).Takes none) :=
    ⟨trivial, (Row.knows_lanes (.inl rfl)).2⟩
  exact ⟨q, hq, holds_simplify (fun _ h ↦ by cases h) hatoms hq rfl⟩

/-- Simplification reads a literal as a double.  A whole number that is none equals the double next
to it, but not the literal. -/
theorem holds_simplify_rounded : ∃ q,
    (neverOrEq "x" (2 ^ 53)).simplify none Config.withoutSearch.effort =
        .ok q ∧
      (neverOrEq "x" (2 ^ 53)).holds (.ofInt "x" (2 ^ 53 + 1)) = .ok false ∧
      q.holds (.ofInt "x" (2 ^ 53 + 1)) = .ok true := by
  obtain ⟨q, hq, hr⟩ := exists_simplify_rounded
  exact ⟨q, hq, rfl, hr⟩

end Predicate

end RuleCoverage
