import RuleCoverage.Proofs.NormalForm.Cycles
import RuleCoverage.Proofs.NormalForm.Idempotence
import RuleCoverage.Proofs.NormalForm.RoundTrip.Insertion
import RuleCoverage.Proofs.NormalForm.TermOrder

/-!
# The order of operands

A conjunction and a disjunction mean the same in either order, but their canonical forms need not be
the same: the order decides in which order the terms stand, and so which of them are merged.  Where
no terms are merged, the order does not matter (`Predicate.simplify_swap`).

A predicate is not always replaced by what the first pass comes to: it stays if that equals it.  So
the canonical forms are equal, but not spelled alike.  And the search for tautologies spends its
budget in the order of the terms, so it may come to an end for one order only.
-/

set_option autoImplicit false

namespace RuleCoverage

variable {ctx ctx' : Interpretation} {schema? : Option Schema} {effort : Effort}
  {p q x y m : Predicate}

/-! ## Predicates with the same atoms -/

section atoms

variable (hatoms : ∀ atom, atom ∈ x.atoms ↔ atom ∈ y.atoms)
include hatoms

/-- If one predicate can be interpreted, then so can another one with the same atoms. -/
theorem Interpretation.exists_of_atoms (h : of x schema? = .ok ctx) :
    ∃ ctx', of y schema? = .ok ctx' := by
  cases schema? with
  | some schema => exact ⟨_, rfl⟩
  | none =>
    have hcheck := (Predicate.allAtoms_iff x).1 (Predicate.allAtoms_checkAttr h)
    refine Predicate.exists_infer ((Predicate.allAtoms_iff y).2 fun atom hatom hisAtom ↦ ?_)
    exact hcheck atom ((hatoms atom).2 hatom) hisAtom

/-- Predicates with the same atoms are interpreted alike. -/
theorem Interpretation.agree_of_atoms (h : of x schema? = .ok ctx) (h' : of y schema? = .ok ctx') :
    ctx.Agree ctx' fun _ ↦ True := by
  cases schema? with
  | some schema =>
    cases h
    cases h'
    exact ⟨fun _ _ ↦ rfl, fun _ _ ↦ rfl, fun _ _ ↦ rfl⟩
  | none =>
    have hnames : ∀ a, x.Names a ↔ y.Names a := fun a ↦ by
      simp only [Predicate.Names, hatoms]
    have hkind : ∀ a, ctx'.kind? a = ctx.kind? a := by
      intro a
      by_cases ha : x.Names a
      · rw [kind?_of_named h ha, kind?_of_named h' ((hnames a).1 ha), inferKind?_congr hatoms]
      · rw [Option.eq_none_iff_forall_ne_some.2 fun k hk ↦ ha (names_of_kind? h hk),
          Option.eq_none_iff_forall_ne_some.2 fun k hk ↦ ha ((hnames a).2 (names_of_kind? h' hk))]
    have hagree := fun a ↦ agree_of_schemaless (schema?_of h) (schema?_of h') (hkind a)
    exact ⟨fun a _ ↦ (hagree a).kind a rfl, fun a _ ↦ (hagree a).full a rfl,
      fun a _ ↦ (hagree a).missing a rfl⟩

end atoms

theorem Interpretation.plain_of (hcat : ∀ schema, schema? = some schema → schema.HasPlainCategories)
    (h : of p schema? = .ok ctx) : ctx.Plain := by
  cases schema? with
  | some schema =>
    cases h
    exact (hcat schema rfl).plain
  | none => exact plain_of_schemaless (schema?_of h)

namespace Predicate

/-! ## Equality of predicates whose atoms can be members of sets -/

theorem beq_self_of_isMember (hx : x.AllAtoms IsMember) : (x == x) = true := by
  induction x with
  | always | never => rfl
  | not a ih => exact ih hx
  | and a b iha ihb | or a b iha ihb => exact Bool.and_eq_true_iff.2 ⟨iha hx.1, ihb hx.2⟩
  | bare | compare | isIn | between | isNull | test => exact beq_of_tag_eq hx hx rfl

/-- What equals one predicate is equal. -/
theorem beq_of_beq (hx : x.AllAtoms IsMember) (hy : y.AllAtoms IsMember) (h : (x == m) = true)
    (h' : (y == m) = true) : (x == y) = true := by
  induction x generalizing y m with
  | always =>
    cases m <;> cases h
    rw [eq_always_of_beq h']
    rfl
  | never =>
    cases m <;> cases h
    rw [eq_never_of_beq h']
    rfl
  | bare | compare | isIn | between | isNull | test =>
    have htag := (tag_eq_of_beq h).trans (tag_eq_of_beq h').symm
    cases m <;> try cases h
    cases y <;> first | exact beq_of_tag_eq hx hy htag | cases h'
  | not a ih =>
    cases m <;> try cases h
    cases y <;> try cases h'
    exact ih hx hy h h'
  | and a b iha ihb | or a b iha ihb =>
    cases m <;> try cases h
    cases y <;> try cases h'
    have hparts := Bool.and_eq_true_iff.1 h
    have hparts' := Bool.and_eq_true_iff.1 h'
    exact Bool.and_eq_true_iff.2
      ⟨iha hx.1 hy.1 hparts.1 hparts'.1, ihb hx.2 hy.2 hparts.2 hparts'.2⟩

theorem beq_symm_of_isMember (hx : x.AllAtoms IsMember) (hy : y.AllAtoms IsMember)
    (h : (x == y) = true) : (y == x) = true :=
  beq_of_beq hy hx (beq_self_of_isMember hy) h

/-- The atoms that can be members of sets. -/
def IsMember.vocabulary (ctx : Interpretation) : Vocabulary ctx where
  Has := IsMember
  Writes := IsMember
  Names _ := True
  Compares _ _ := True
  names _ _ := trivial
  compares_domain _ _ _ _ := trivial
  compares_values _ _ _ _ _ := trivial
  keeps hatom _ := hatom
  writes _ _ hatom := hatom.asks.isMember

/-! ## The outcome of a simplification -/

/-- Both fail alike, or they come to predicates that are equal, or one of them is found always to
hold. -/
def SameOutcome (effort : Effort) (x y : Except Error Predicate) : Prop :=
  x = y ∨ (∃ q r, x = .ok q ∧ y = .ok r ∧ (q == r) = true) ∨
    effort.detectsTautologies = true ∧ (x = .ok .always ∨ y = .ok .always)

section outcome

variable (hcat : ∀ schema, schema? = some schema → schema.HasPlainCategories)
include hcat

/-- Simplification goes on from what the first pass comes to, or the predicate equals that.  Then it
is its own simplification, and what the first pass comes to stays. -/
theorem simplify_of_simplifyOnce (h : simplifyOnce schema? effort x = .ok m) :
    x.simplify schema? effort = settle (simplifyOnce schema? effort) 15 [m] m ∨
      (x == m) = true ∧ x.simplify schema? effort = .ok x ∧ m.Stays schema? effort := by
  have hback : ∀ {z n}, Passes (simplifyOnce schema? effort) (n + 1) m z → (x == z) = true →
      simplifyOnce schema? effort m = .ok m := by
    intro z n hz hxz
    cases schema? with
    | some schema => exact simplifyOnce_of_passes_back (hcat schema rfl) h hz hxz
    | none => exact simplifyOnce_of_passes_back_inferred h hz hxz
  have hsettle := settle_of_first_pass h hback 15
  cases heq : (x == m) with
  | false =>
    rw [heq] at hsettle
    exact .inl hsettle
  | true =>
    rw [heq] at hsettle
    refine .inr ⟨rfl, hsettle, ?_⟩
    have hnone : Passes (simplifyOnce schema? effort) 0 m m := rfl
    cases schema? with
    | some schema => exact stays_of_passes_back (hcat schema rfl) h hnone heq
    | none => exact stays_of_passes_back_inferred h hnone heq

/-- Predicates for which the first pass comes to the same are simplified alike. -/
theorem sameOutcome_of_simplifyOnce (hxm : x.AllAtoms IsMember) (hym : y.AllAtoms IsMember)
    (hm : m.AllAtoms IsMember) (hx : simplifyOnce schema? effort x = .ok m)
    (hy : simplifyOnce schema? effort y = .ok m) :
    SameOutcome effort (x.simplify schema? effort) (y.simplify schema? effort) := by
  rcases simplify_of_simplifyOnce hcat hx with hx | ⟨hxeq, hx, hstays⟩ <;>
    rcases simplify_of_simplifyOnce hcat hy with hy | ⟨hyeq, hy, hstays⟩
  · exact .inl (hx.trans hy.symm)
  · obtain ⟨_ | _, hfound, hsettle⟩ := hstays.settle_eq 14
    · exact .inr (.inl ⟨m, y, hx.trans hsettle, hy, beq_symm_of_isMember hym hm hyeq⟩)
    · exact .inr (.inr ⟨hfound rfl, .inl (hx.trans hsettle)⟩)
  · obtain ⟨_ | _, hfound, hsettle⟩ := hstays.settle_eq 14
    · exact .inr (.inl ⟨x, m, hx, hy.trans hsettle, hxeq⟩)
    · exact .inr (.inr ⟨hfound rfl, .inr (hy.trans hsettle)⟩)
  · exact .inr (.inl ⟨x, y, hx, hy, beq_of_beq hxm hym hxeq hyeq⟩)

/-- Predicates with the same atoms are simplified alike, if their expansions are written in the same
way. -/
theorem sameOutcome_of_disjunctionOf {ss ts : List Term}
    (hatoms : ∀ atom, atom ∈ x.atoms ↔ atom ∈ y.atoms) (hxm : x.AllAtoms IsMember)
    (hym : y.AllAtoms IsMember) (hctx : Interpretation.of x schema? = .ok ctx)
    (hss : x.expand ctx false = .ok ss) (hts : y.expand ctx false = .ok ts)
    (h : Term.disjunctionOf ctx ss = Term.disjunctionOf ctx ts) :
    SameOutcome effort (x.simplify schema? effort) (y.simplify schema? effort) := by
  obtain ⟨ctx', hctx'⟩ := Interpretation.exists_of_atoms hatoms hctx
  have hagree := Interpretation.agree_of_atoms hatoms hctx hctx'
  have hwithin : ∀ t ∈ ts, t.Within fun _ ↦ True := fun t _ c _ ↦ trivial
  have hts' : y.expand ctx' false = .ok ts := by
    rw [← expand_congr hagree ((allAtoms_iff y).2 fun atom _ _ a _ ↦ trivial), hts]
  have hx := simplifyOnce_eq (Interpretation.plain_of hcat hctx) hctx hss effort
  have hy := simplifyOnce_eq (Interpretation.plain_of hcat hctx') hctx' hts' effort
  rw [← isTautology_congr hagree hwithin, ← Term.disjunctionOf_agree hagree hwithin, ← h] at hy
  have halways : ∀ {z}, simplifyOnce schema? effort z = .ok .always →
      z.simplify schema? effort = .ok .always :=
    fun hz ↦ settle_of_pass_fixed simplifyOnce_always (fun _ ↦ beq_always_iff) hz 15
  cases hfound : isTautology ctx effort ss with
  | true =>
    rw [hfound, if_pos rfl] at hx
    exact .inr (.inr ⟨(Bool.and_eq_true_iff.1 hfound).1, .inl (halways hx)⟩)
  | false =>
    cases hfound' : isTautology ctx effort ts with
    | true =>
      rw [hfound', if_pos rfl] at hy
      exact .inr (.inr ⟨(Bool.and_eq_true_iff.1 hfound').1, .inr (halways hy)⟩)
    | false =>
      rw [hfound, if_neg Bool.false_ne_true] at hx
      rw [hfound', if_neg Bool.false_ne_true] at hy
      exact sameOutcome_of_simplifyOnce hcat hxm hym
        (allAtoms_simplifyOnce (V := IsMember.vocabulary ctx) hctx hxm hx) hx hy

end outcome

/-! ## Expansions of conjunctions and disjunctions -/

section expand

variable {left right : List Term} (hleft : p.expand ctx false = .ok left)
  (hright : q.expand ctx false = .ok right)
include hleft hright

theorem expand_and : (p.and q).expand ctx false =
    .ok (Term.reduce ctx.full? (Term.conjunctions left right)) := by
  rw [expand, hleft, ok_bind, Term.combine, hright]
  cases left with
  | nil =>
    rw [Term.conjunctions, List.flatMap_nil, Term.reduce_nil]
    rfl
  | cons t ts => rfl

theorem expand_or : (p.or q).expand ctx false =
    .ok (Term.reduce ctx.full? (left ++ right)) := by
  rw [expand, hleft, ok_bind, Term.combine, hright]
  rfl

end expand

/-! ## Conjunctions and disjunctions in either order -/

/-- **The order of operands does not matter** where no two of the weakest terms that come together
can be merged, and where the terms are told apart by how they are written.  A search for tautologies
may find out for one order only that everything holds. -/
theorem simplify_swap {left right : List Term}
    (hcat : ∀ schema, schema? = some schema → schema.HasPlainCategories)
    (hp : p.AllAtoms IsMember) (hq : q.AllAtoms IsMember)
    (hctx : Interpretation.of (p.and q) schema? = .ok ctx)
    (hleft : p.expand ctx false = .ok left) (hright : q.expand ctx false = .ok right) :
    (Term.ToldApart ctx (Term.conjunctions left right ++ Term.conjunctions right left) →
      SameOutcome effort ((p.and q).simplify schema? effort) ((q.and p).simplify schema? effort)) ∧
    (Term.ToldApart ctx (left ++ right) →
      SameOutcome effort ((p.or q).simplify schema? effort)
        ((q.or p).simplify schema? effort)) := by
  have hplain : ctx.Plain := Interpretation.plain_of hcat hctx
  have hss := (expand_spec p (Interpretation.knows_blank hplain p) hleft).1
  have hts := (expand_spec q (Interpretation.knows_blank hplain q) hright).1
  constructor
  · intro happart
    have hall := Term.allValid_append.2
      ⟨(Term.conjunctions_spec hss hts).1, (Term.conjunctions_spec hts hss).1⟩
    have hatoms : ∀ atom, atom ∈ (p.and q).atoms ↔ atom ∈ (q.and p).atoms := fun atom ↦ by
      rw [atoms, atoms, List.mem_append, List.mem_append, or_comm]
    refine sameOutcome_of_disjunctionOf hcat hatoms ⟨hp, hq⟩ ⟨hq, hp⟩ hctx
      (expand_and hleft hright) (expand_and hright hleft) ?_
    exact Term.disjunctionOf_reduce_congr hall
      (Term.represents_conjunctions hall hss hts fun _ ↦ List.mem_append)
      (Term.represents_conjunctions hall hts hss fun _ ↦ List.mem_append.trans or_comm) happart
  · intro happart
    have hall := Term.allValid_append.2 ⟨hss, hts⟩
    have hatoms : ∀ atom, atom ∈ (p.or q).atoms ↔ atom ∈ (q.or p).atoms := fun atom ↦ by
      rw [atoms, atoms, List.mem_append, List.mem_append, or_comm]
    have hctx' : Interpretation.of (p.or q) schema? = .ok ctx := by
      cases schema? <;> exact hctx
    refine sameOutcome_of_disjunctionOf hcat hatoms ⟨hp, hq⟩ ⟨hq, hp⟩ hctx'
      (expand_or hleft hright) (expand_or hright hleft) ?_
    exact Term.disjunctionOf_reduce_congr hall (Term.represents_perm hall (.refl _))
      (Term.represents_perm hall List.perm_append_comm) happart

/-- Whether a river is tidal, or whether there is a river or a tidal water, may be asked in either
order. -/
theorem simplify_swap_river_tidal :
    let river := compare (.text "class") .eq (.text "river")
    let tidal := compare (.text "tidal") .eq (.text "yes")
    SameOutcome {} ((river.and tidal).simplify none {}) ((tidal.and river).simplify none {}) ∧
      SameOutcome {} ((river.or tidal).simplify none {}) ((tidal.or river).simplify none {}) := by
  intro river tidal
  let ctx : Interpretation := ⟨none, [("class", some .string), ("tidal", some .string)]⟩
  let left : Term := .ofValues "class" (.discrete (.only (.singleton (.text "river"))))
  let right : Term := .ofValues "tidal" (.discrete (.only (.singleton (.text "yes"))))
  have hswap := @simplify_swap ctx none {} river tidal [left] [right] (fun _ h ↦ by cases h)
    ⟨⟨_, rfl⟩, _, rfl⟩ ⟨⟨_, rfl⟩, _, rfl⟩ rfl rfl rfl
  constructor
  · -- both conjunctions are the same term
    let both : Term := ⟨left.constraints ++ right.constraints, ∅⟩
    have hmem : ∀ t ∈ Term.conjunctions [left] [right] ++ Term.conjunctions [right] [left],
        t = both := List.forall_mem_cons.2 ⟨rfl, List.forall_mem_singleton.2 rfl⟩
    have hmerge : (Term.merge? ctx.full? both both).isSome = false := by decide
    refine hswap.1 ⟨fun s hs t ht _ _ ↦ ?_, fun s hs t ht _ ↦ ?_⟩
    · rwa [hmem s hs, hmem t ht]
    · rw [hmem s hs, hmem t ht]
  · have hmerge : ∀ s ∈ [left, right], ∀ t ∈ [left, right],
        (Term.merge? ctx.full? s t).isSome = false := by decide
    have himplies : ¬ left.implies right = true := by decide
    have htexts : (left.toPredicate ctx).text ≠ (right.toPredicate ctx).text := by decide +kernel
    have hne : ¬ (left.Equivalent right ∨
        (left.toPredicate ctx).text = (right.toPredicate ctx).text) :=
      fun h ↦ h.elim (fun h ↦ himplies h.1) htexts
    refine hswap.2 ⟨fun s hs t ht _ _ ↦ hmerge s hs t ht, List.forall_mem_cons.2
      ⟨List.forall_mem_cons.2 ⟨fun _ ↦ rfl, List.forall_mem_singleton.2 fun h ↦ absurd h hne⟩,
        List.forall_mem_singleton.2 (List.forall_mem_cons.2
          ⟨fun h ↦ absurd (h.imp .symm .symm) hne, List.forall_mem_singleton.2 fun _ ↦ rfl⟩)⟩⟩

/-- That a water is a tidal river or no river can be said in two ways.  Of the two ways together the
one that stands last is left. -/
theorem not_simplify_swap :
    let river := compare (.text "class") .eq (.text "river")
    let other := compare (.text "class") .ne (.text "river")
    let tidal := compare (.text "tidal") .eq (.text "yes")
    let inland := compare (.text "tidal") .ne (.text "yes")
    let p := or (and river tidal) other
    let q := or (and other inland) tidal
    ∃ r r', (p.and q).simplify none {} = .ok r ∧ (q.and p).simplify none {} = .ok r' ∧
      ¬ (r == r') = true := by
  intro river other tidal inland p q
  have heval : ((settle (simplifyOnceByInsertion none {}) maxPasses [p.and q]
      (p.and q)).toOption.any fun r ↦ (settle (simplifyOnceByInsertion none {}) maxPasses [q.and p]
        (q.and p)).toOption.any fun r' ↦ !(r == r')) = true := by
    decide +kernel
  rw [← simplifyOnce_eq_byInsertion] at heval
  obtain ⟨r, hr, heval⟩ := (Option.any_eq_true _ _).1 heval
  obtain ⟨r', hr', hne⟩ := (Option.any_eq_true _ _).1 heval
  refine ⟨r, r', eq_ok_of_toOption hr, eq_ok_of_toOption hr', ?_⟩
  rwa [Bool.not_eq_true, ← Bool.not_eq_true']

end Predicate

end RuleCoverage
