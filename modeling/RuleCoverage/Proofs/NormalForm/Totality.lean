import RuleCoverage.Proofs.NormalForm.Vocabulary

/-!
# Simplification returns

A pass fails where an atom cannot be a member of a set, or where a whole number is too large for a
double.  If all atoms of a predicate are free of both (`Predicate.Readable`), so is all that the
passes write, and simplification comes to a result (`Predicate.exists_simplify`).

Only numbers that are compared with numeric attributes are read as doubles, so a schema that makes
an attribute discrete lifts the bound for it.
-/

set_option autoImplicit false

namespace RuleCoverage

/-- A whole number is not too large for a double. -/
def Scalar.InRange (s : Scalar) : Prop := ∀ n, s = .int n → ∃ x, Double.ofInt? n = some x

theorem Scalar.inRange_of_isDouble {s : Scalar} (h : s.IsDouble) : s.InRange := by
  obtain ⟨x, rfl⟩ := h
  exact fun n hn ↦ by cases hn

theorem Scalar.InRange.plain {s : Scalar} (h : s.InRange) : s.plain.InRange := by
  intro n hn
  cases s with
  | flag b => cases hn
  | _ => exact h n hn

variable {ctx : Interpretation} {schema? : Option Schema} {atom : Predicate} {a : String}

/-! ## Reading numbers -/

theorem Literal.exists_numeric? {s : Scalar} (h : s.InRange) :
    ∃ x?, (Literal.scalar s).numeric? = .ok x? := by
  rw [numeric?]
  split
  · rename_i hk
    cases s with
    | int n =>
      obtain ⟨x, hx⟩ := h n rfl
      refine ⟨some x, ?_⟩
      simp only [toDouble, Scalar.toDouble, doubleOfInt, hx]
      rfl
    | double x => exact ⟨some x, rfl⟩
    | nan => exact ⟨none, rfl⟩
    | _ => cases hk
  · exact ⟨none, rfl⟩

theorem exists_numerics? {vs : List Scalar} (h : ∀ s ∈ vs, s.InRange) :
    ∃ xs?, numerics? vs = .ok xs? := by
  induction vs with
  | nil => exact ⟨_, rfl⟩
  | cons s vs ih =>
    rw [List.forall_mem_cons] at h
    obtain ⟨x?, hx⟩ := Literal.exists_numeric? h.1
    obtain ⟨xs?, hxs⟩ := ih h.2
    rw [numerics?, hx, hxs]
    cases x? with
    | none => exact ⟨_, rfl⟩
    | some x => exact ⟨_, rfl⟩

namespace Predicate

/-- The atom can be a member of a set, and its numbers can be read as doubles if they have to be. -/
structure Readable (schema? : Option Schema) (atom : Predicate) : Prop where
  member : atom.IsMember
  inRange : ∀ {a}, atom.named? = some a → MayBeNumeric schema? a → ∀ s ∈ atom.scalars, s.InRange

theorem Asks.readable {A : String → Prop} {L : Scalar → Prop} (h : atom.Asks A L)
    (hL : ∀ s, L s → s.InRange) : atom.Readable schema? :=
  ⟨h.isMember, fun _ _ s hs ↦ hL s (h.of_mem_scalars hs)⟩

theorem exists_numericValues? (hm : atom.IsMember) (h : ∀ s ∈ atom.scalars, s.InRange) :
    ∃ vs?, atom.numericValues? = .ok vs? := by
  cases atom with
  | compare a op v =>
    obtain ⟨-, s, rfl⟩ := hm
    obtain ⟨x?, hx⟩ := Literal.exists_numeric? (h s (by simp))
    exact ⟨_, by rw [numericValues?, hx]; rfl⟩
  | isIn a vs =>
    obtain ⟨xs?, hxs⟩ := exists_numerics? fun s hs ↦ h s (mem_scalars_isIn.2 hs)
    exact ⟨_, by rw [numericValues?, hxs]; rfl⟩
  | between a l u li ui =>
    obtain ⟨-, ⟨s, rfl⟩, t, rfl⟩ := hm
    obtain ⟨x?, hx⟩ := Literal.exists_numeric? (h s (by simp))
    obtain ⟨y?, hy⟩ := Literal.exists_numeric? (h t (by simp))
    rw [numericValues?, hx]
    rcases x? with _ | x
    · exact ⟨_, rfl⟩
    · dsimp only [bind, Except.bind]
      rw [hy]
      rcases y? with _ | y
      · exact ⟨_, rfl⟩
      · dsimp only [bind, Except.bind]
        split <;> exact ⟨_, rfl⟩
  | bare | isNull | test => exact ⟨_, rfl⟩
  | always | never | and | or | not => exact hm.elim

theorem Readable.exists_values? (h : atom.Readable schema?) (hctx : ctx.schema? = schema?) :
    ∃ vs?, ctx.values? atom = .ok vs? := by
  rcases hn : atom.named? with _ | a
  · exact ⟨_, Interpretation.values?_of_unnamed hn⟩
  rcases hk : ctx.kind? a with _ | k
  · exact ⟨_, Interpretation.values?_of_kindless hn hk⟩
  by_cases hnull : ∃ b, atom = .isNull b
  · obtain ⟨b, rfl⟩ := hnull
    obtain rfl := Interpretation.eq_text_of_named? hn
    exact ⟨_, Interpretation.values?_isNull hk⟩
  have hnull' : ∀ b, atom ≠ .isNull b := fun b hb ↦ hnull ⟨b, hb⟩
  by_cases hnum : k = .numeric
  · subst hnum
    have hnumeric := Interpretation.mayBeNumeric hctx hk
    obtain ⟨vs?, hvs⟩ := exists_numericValues? h.member (h.inRange hn hnumeric)
    exact ⟨_, by rw [Interpretation.values?_numeric hn hk hnull', hvs]; rfl⟩
  · exact ⟨_, Interpretation.values?_discrete hn hk hnum hnull'⟩

theorem IsMember.checkAttr (h : atom.IsMember) : atom.checkAttr = .ok () := by
  cases atom with
  | always | never | and | or | not => exact h.elim
  | bare | test => rfl
  | compare a op v =>
    obtain ⟨⟨_, rfl⟩, -⟩ := h
    rfl
  | isIn a vs | isNull a =>
    obtain ⟨_, rfl⟩ := h
    rfl
  | between a l u li ui =>
    obtain ⟨⟨_, rfl⟩, -⟩ := h
    rfl

/-! ## Passes -/

theorem Readable.exists_expandAtom (h : atom.Readable schema?) (hctx : ctx.schema? = schema?)
    (negated : Bool) : ∃ ts, expandAtom ctx atom negated = .ok ts := by
  obtain ⟨vs?, hvs⟩ := h.exists_values? hctx
  rw [expandAtom, hvs]
  simp only [bind, Except.bind, checkMember_of_isMember h.member]
  repeat' split
  all_goals exact ⟨_, rfl⟩

/-- A predicate with readable atoms has an expansion. -/
theorem exists_expand {p : Predicate} (hp : p.AllAtoms (Readable schema?))
    (hctx : ctx.schema? = schema?) (negated : Bool) : ∃ ts, p.expand ctx negated = .ok ts := by
  have hcombine : ∀ conjunctive left right, (∃ ts, right () = .ok ts) →
      ∃ ts, Term.combine ctx conjunctive left right = .ok ts := by
    rintro conjunctive left right ⟨ts, hts⟩
    rw [Term.combine, hts]
    split
    · split <;> exact ⟨_, rfl⟩
    · exact ⟨_, rfl⟩
  induction p generalizing negated with
  | always | never => exact ⟨_, rfl⟩
  | not a ih => exact ih hp _
  | and a b iha ihb | or a b iha ihb =>
    obtain ⟨left, hleft⟩ := iha hp.1 negated
    rw [expand, hleft]
    exact hcombine _ left (fun _ ↦ expand ctx b negated) (ihb hp.2 negated)
  | bare | compare | isIn | between | isNull | test => exact Readable.exists_expandAtom hp hctx _

/-- Kinds can be inferred if the names of all attributes can be keys. -/
theorem exists_infer {p : Predicate} (h : p.AllAtoms fun atom ↦ atom.checkAttr = .ok ()) :
    ∃ ctx, Interpretation.of p none = .ok ctx := by
  have hcheck : ∀ atom ∈ p.atoms.reverse, atom.checkAttr = .ok () := by
    intro atom hatom
    rw [List.mem_reverse] at hatom
    by_cases hisAtom : atom.IsAtom
    · exact (allAtoms_iff p).1 h atom hatom hisAtom
    · cases atom <;> first | rfl | exact absurd trivial hisAtom
  have hforM : p.atoms.reverse.forM checkAttr = .ok () := by
    generalize p.atoms.reverse = atoms at hcheck
    induction atoms with
    | nil => rfl
    | cons atom atoms ih =>
      rw [List.forall_mem_cons] at hcheck
      show (atom.checkAttr >>= fun _ ↦ atoms.forM checkAttr) = .ok ()
      rw [hcheck.1]
      exact ih hcheck.2
  exact ⟨_, by rw [Interpretation.of, Interpretation.infer, hforM]; rfl⟩

/-- A predicate with readable atoms can be interpreted. -/
theorem exists_of {p : Predicate} (hp : p.AllAtoms (Readable schema?)) :
    ∃ ctx, Interpretation.of p schema? = .ok ctx := by
  cases schema? with
  | some schema => exact ⟨_, rfl⟩
  | none => exact exists_infer (hp.imp fun _ h ↦ h.member.checkAttr)

/-- The readable atoms, with all attributes. -/
def Readable.vocabulary (hctx : ctx.schema? = schema?) : Vocabulary ctx where
  Has := Readable schema?
  Writes := Readable schema?
  Names _ := True
  Compares _ s := schema? = none → s.InRange
  names _ _ := trivial
  compares_domain := by
    intro a d _ hfull s hs hnone
    subst hnone
    obtain ⟨k, -, hd⟩ := Interpretation.full?_eq_some hfull
    rw [hctx] at hd
    cases k <;> cases hd <;> cases hs
  compares_values := by
    intro atom a d hatom hn hvs s hs hnone
    subst hnone
    obtain ⟨k, hk⟩ := Interpretation.exists_kind?_of_values hn hvs
    obtain ⟨-, t, ls, hls, ht, rfl⟩ := Interpretation.literal_of_mem_values hn hk hvs s hs
    refine (hatom.inRange hn (fun _ h ↦ nomatch h) t ?_).plain
    rw [scalars, hls]
    exact List.mem_filterMap.2 ⟨_, ht, rfl⟩
  keeps hatom _ := hatom
  writes := by
    intro a k atom _ hk hatom
    refine ⟨hatom.asks.isMember, ?_⟩
    intro b hb hschema s hs
    cases hatom.named.symm.trans hb
    have hs' := hatom.asks.of_mem_scalars hs
    split at hs'
    · exact Scalar.inRange_of_isDouble hs'
    · rename_i hk'
      cases schema? with
      | none => exact hs' rfl
      | some schema =>
        rw [Interpretation.kind?, hctx] at hk
        cases hk.symm.trans (hschema schema rfl)
        exact absurd rfl hk'

/-- A pass over a predicate with readable atoms returns one. -/
theorem exists_simplifyOnce {p : Predicate} (effort : Effort)
    (hp : p.AllAtoms (Readable schema?)) :
    ∃ q, simplifyOnce schema? effort p = .ok q ∧ q.AllAtoms (Readable schema?) := by
  obtain ⟨ctx, hctx⟩ := exists_of hp
  have hschema := Interpretation.schema?_of hctx
  obtain ⟨ts, hts⟩ := exists_expand hp hschema false
  obtain ⟨q, hq⟩ : ∃ q, simplifyOnce schema? effort p = .ok q := by
    rw [simplifyOnce, hctx]
    dsimp only [bind, Except.bind]
    rw [hts]
    dsimp only
    split
    · exact ⟨_, rfl⟩
    split <;> exact ⟨_, rfl⟩
  exact ⟨q, hq, allAtoms_simplifyOnce (V := Readable.vocabulary hschema) hctx hp hq⟩

theorem exists_settle {pass : Predicate → Except Error Predicate} {P : Predicate → Prop}
    (hpass : ∀ x, P x → ∃ y, pass x = .ok y ∧ P y) (n : Nat) (seen : List Predicate)
    {current : Predicate} (h : P current) : ∃ q, settle pass n seen current = .ok q := by
  induction n generalizing seen current with
  | zero => exact ⟨current, rfl⟩
  | succ n ih =>
    obtain ⟨next, hnext, hP⟩ := hpass current h
    rw [settle, hnext]
    dsimp only [bind, Except.bind]
    split
    · exact ⟨_, rfl⟩
    · exact ih _ hP

/-- **A predicate with readable atoms has a simplified form.** -/
theorem exists_simplify {p : Predicate} (effort : Effort) (hp : p.AllAtoms (Readable schema?)) :
    ∃ q, p.simplify schema? effort = .ok q :=
  exists_settle (fun _ hx ↦ exists_simplifyOnce effort hx) maxPasses [p] hp

/-- The simplified form has readable atoms as well. -/
theorem readable_simplify {p q : Predicate} {effort : Effort} (hp : p.AllAtoms (Readable schema?))
    (h : p.simplify schema? effort = .ok q) : q.AllAtoms (Readable schema?) := by
  refine settle_induction (fun x y hx hy ↦ ?_) (List.forall_mem_singleton.2 hp) hp h
  obtain ⟨z, hz, hreadable⟩ := exists_simplifyOnce effort hx
  cases hz.symm.trans hy
  exact hreadable

end Predicate

end RuleCoverage
