import RuleCoverage.Proofs.NormalForm.OperandOrder
import RuleCoverage.Proofs.NormalForm.RoundTrip.EqualValues
import RuleCoverage.Proofs.NormalForm.Satisfiability
import RuleCoverage.Proofs.NormalForm.SoleAttribute
import RuleCoverage.Proofs.NormalForm.Uniform

/-!
# What is said of one attribute has one form

Read against a schema, a predicate about one attribute says which values the attribute may have.
However it is put together, it is simplified to the form in which these values are written: two such
predicates have equal canonical forms exactly when they are true of the same values
(`Predicate.simplify_beq_iff`).

That values are written in one form only is because a value set that leaves something out is
determined by the values that the attribute can have (`ValueSet.Demand.beq_of_allowed`), and because
equal value sets are written as equal predicates.  Every pass comes to that form
(`Predicate.WritesValues`), so the result is in it, or it is the given predicate and equals it.

What is written so is read as the value set that it was written for (`Term.expand_ofValues`).
-/

set_option autoImplicit false

namespace RuleCoverage

variable {schema : Schema} {a : String} {k : Kind}

/-! ## The values of an attribute -/

/-- The attribute has a value that it may have, and all others are missing. -/
def Assignment.sole {v : Option Value} (hv : schema.Allows a v) : Assignment schema where
  value b := if b = a then v else none
  allowed b := by
    split
    · rename_i hba
      rwa [hba]
    · trivial
  free _ := False
  free_congr _ := Iff.rfl

/-- Whatever an attribute may be, it is so under some assignment. -/
theorem Schema.Allows.exists_assignment {v : Option Value} (hv : schema.Allows a v) :
    ∃ α : Assignment schema, α.value a = v := ⟨.sole hv, if_pos rfl⟩

namespace ValueSet

variable {us vs : ValueSet}

/-- What an attribute may be decides about an assignment as it does about nothing. -/
theorem Demand.of_blank {hctx : schema.interpretation.Plain} {hcat : schema.HasPlainCategories}
    (h : vs.Demand (Interpretation.blank hctx) a) (α : Assignment schema) :
    vs.Demand (α.reading hcat) a :=
  ⟨h.full, h.within, h.nonempty, fun d hd s hs k hk ↦ (h.writable d hd s hs k hk).fits⟩

variable {α : Assignment schema} {hcat : schema.HasPlainCategories}

/-- **A demand is determined by the values that the attribute may have.** -/
theorem Demand.beq_of_allowed (hu : us.Demand (α.reading hcat) a)
    (hv : vs.Demand (α.reading hcat) a)
    (h : ∀ v, schema.Allows a v → (us.Mem v ↔ vs.Mem v)) : (us == vs) = true := by
  have hshape := hu.sameShape hv
  rw [beq_iff hshape]
  intro v
  constructor <;> intro hmem <;> by_contra hnot
  · obtain ⟨w, hallowed, hw, hw'⟩ := hu.suits.exists_allowed_not_mem hv.suits ⟨v, hmem, hnot⟩
    exact hw' ((h w hallowed).1 hw)
  · obtain ⟨w, hallowed, hw, hw'⟩ := hv.suits.exists_allowed_not_mem hu.suits ⟨v, hmem, hnot⟩
    exact hw' ((h w hallowed).2 hw)

/-- A proper demand leaves out a value that the attribute may have. -/
theorem ProperDemand.exists_allowed_not_mem (hv : vs.ProperDemand (α.reading hcat) a) :
    ∃ w, schema.Allows a w ∧ ¬ vs.Mem w := by
  obtain ⟨full, hfull, hshape⟩ := hv.demand.full
  obtain ⟨w, hallowed, -, hnot⟩ :=
    (suits_full hfull).exists_allowed_not_mem hv.demand.suits (hv.exists_not_mem hfull)
  exact ⟨w, hallowed, hnot⟩

end ValueSet

/-! ## Reading a written value set -/

/-- **A value set is read as it was written for.**  If it is one of values of its attribute, neither
empty nor all of them, the predicate that it is written as is expanded into the demand for it and
nothing else.

What a discrete set lists is of the attribute's kind.  That leaves out sets that are subsets only
because equal scalars count as one, such as `{1}` for a boolean attribute and `{True}` for the
category `1`, and for an attribute that may be any text, of which every set is a subset, those that
list other things than texts.  An expansion gives none of them, as it leaves literals of other kinds
uninterpreted. -/
theorem Term.expand_ofValues {vs full : ValueSet} (hcat : schema.HasPlainCategories)
    (hk : schema.kind? a = some k) (hfull : schema.interpretation.full? a = some full)
    (hshape : vs.SameShape full)
    (hadmits : ∀ d, vs = .discrete d → ∀ s ∈ d.values.toList, k.Admits s)
    (hwithin : vs.subset full = true) (hne : vs.isEmpty = false) (hproper : (vs == full) = false) :
    ∃ ts, ((ofValues a vs).toPredicate schema.interpretation).expand schema.interpretation false =
      .ok ts ∧ (ts == [ofValues a vs]) = true := by
  have hd : vs.ProperDemand (Interpretation.blank hcat.plain) a := by
    refine ⟨⟨⟨full, hfull, hshape⟩, ?_, ?_, ?_⟩, ?_⟩
    · intro full' hfull'
      cases hfull.symm.trans hfull'
      exact (ValueSet.subset_iff hshape).1 hwithin
    · exact ValueSet.nonempty_of_isEmpty (by simp [hne])
    · intro d hvs s hs k' hk'
      cases hk.symm.trans hk'
      exact hadmits d hvs s hs
    · intro full' hfull'
      cases hfull.symm.trans hfull'
      simp [hproper]
  obtain ⟨vs', hrereads, hread⟩ := ValueSet.exists_readsAs hcat.plain hd
  refine ⟨[ofValues a vs'], by rw [toPredicate_ofValues]; exact hread, ?_⟩
  have hbeq : (vs' == vs) = true := BEq.symm hrereads.beq
  show (((a == a && vs' == vs) && true) && true && true) = true
  rw [hbeq, beq_self_eq_true]
  rfl

/-- A depth that is unknown or infinite is written with a test for null and a membership, a name
that is known and is none of two with two tests, and both are read as one demand again. -/
theorem Term.expand_depth_and_name :
    (let ctx := (Schema.ofKind .numeric ["depth"]).interpretation
      let depths : ValueSet := .numeric ⟨.points [.negInf, .posInf], true⟩
      ∃ ts, ((ofValues "depth" depths).toPredicate ctx).expand ctx false = .ok ts ∧
        (ts == [ofValues "depth" depths]) = true) ∧
    let ctx := (Schema.ofKind .string ["name"]).interpretation
    let others : ValueSet := .discrete ⟨.ofList [.text "Isar", .text "Inn"], true, false⟩
    ∃ ts, ((ofValues "name" others).toPredicate ctx).expand ctx false = .ok ts ∧
      (ts == [ofValues "name" others]) = true := by
  constructor
  · intro ctx depths
    have hnull : depths.Mem none := rfl
    have hzero : ¬ depths.Mem (some (.number 0)) := by
      show ¬ (IntervalSet.points [.negInf, .posInf]).Mem 0
      simp [IntervalSet.mem_points]
    have hall : ∀ v, (ValueSet.numeric .full).Mem v := fun v ↦ NumericValues.mem_full _
    have hshape : depths.SameShape (.numeric .full) := rfl
    refine @expand_ofValues _ "depth" .numeric depths (.numeric .full)
      (Schema.hasPlainCategories_ofKind _ _) rfl rfl hshape (fun d hd ↦ by simp [depths] at hd)
      ?_ ?_ ?_
    · exact (ValueSet.subset_iff hshape).2 fun v _ ↦ hall v
    · exact Bool.eq_false_iff.2 fun hempty ↦ (ValueSet.isEmpty_iff _).1 hempty none hnull
    · exact Bool.eq_false_iff.2 fun heq ↦ hzero ((ValueSet.mem_congr heq _).2 (hall _))
  · intro ctx others
    have hadmits : ∀ d, others = .discrete d → ∀ s ∈ d.values.toList, Kind.string.Admits s := by
      intro d hd s hs
      cases ValueSet.discrete.inj hd
      have hs' := Distinct.mem_of_mem_ofList hs
      simp only [List.mem_cons, List.not_mem_nil, or_false] at hs'
      rcases hs' with rfl | rfl <;> exact ⟨rfl, rfl⟩
    exact @expand_ofValues _ "name" .string others (.discrete (.full none))
      (Schema.hasPlainCategories_ofKind _ _) rfl rfl rfl hadmits rfl rfl rfl

namespace Predicate

variable {p q x y : Predicate} {effort : Effort} {v : Option Value} {S T : Option Value → Prop}

/-! ## Predicates about one attribute -/

/-- A literal that is read as a point is a scalar, and its number is not too large. -/
theorem inRange_of_point? {w : Literal} {d : Double} (h : w.point? = some d) :
    ∃ s, w = .scalar s ∧ s.InRange := by
  obtain ⟨s, rfl, hs⟩ := Literal.point?_cases h
  refine ⟨s, rfl, ?_⟩
  rcases hs with rfl | ⟨n, rfl, hn⟩
  · exact Scalar.inRange_of_isDouble ⟨d, rfl⟩
  · rintro m ⟨⟩
    exact ⟨d, hn⟩

/-- What says something about numbers compares with numbers that are not too large. -/
theorem MeansOfNumber.inRange {n : Option EReal → Prop} {ws : List Literal}
    (h : x.MeansOfNumber n) (hws : x.literals? = some ws) :
    ∀ w ∈ ws, ∃ s, w = .scalar s ∧ s.InRange := by
  cases h with
  | compare hv =>
    cases hws
    exact List.forall_mem_singleton.2 (inRange_of_point? hv)
  | isIn hvs =>
    cases hws
    rw [List.forall_mem_map]
    intro s hs
    obtain ⟨d, -, hd⟩ := Literal.exists_mem_of_points hvs s hs
    exact inRange_of_point? hd
  | between hl hu =>
    cases hws
    exact List.forall_mem_cons.2
      ⟨inRange_of_point? hl, List.forall_mem_singleton.2 (inRange_of_point? hu)⟩

/-- What says something about keys compares with scalars. -/
theorem MeansOfKey.isScalar {n : Option Scalar.Key → Prop} {ws : List Literal}
    (h : x.MeansOfKey k n) (hws : x.literals? = some ws) : ∀ w ∈ ws, ∃ s, w = .scalar s := by
  cases h with
  | eq | ne =>
    cases hws
    exact List.forall_mem_singleton.2 ⟨_, rfl⟩
  | isIn =>
    cases hws
    exact List.forall_mem_map.2 fun s _ ↦ ⟨s, rfl⟩

/-- What says something about a kind compares with scalars, and if the kind is numeric, with numbers
that are not too large. -/
theorem SaysOf.asks (h : x.SaysOf a k) : x.Asks (· = a) fun s ↦ k = .numeric → s.InRange where
  about := ⟨a, Row.attr?_of_named? h.named, rfl⟩
  literals := by
    intro ws hws w hw
    obtain ⟨m, hm⟩ := h.meaning
    cases means_iff.2 hm with
    | isNull b => cases hws
    | number _ hn =>
      obtain ⟨s, hs, hrange⟩ := hn.inRange hws w hw
      exact ⟨s, hs, fun _ ↦ hrange⟩
    | key hnum hn =>
      obtain ⟨s, hs⟩ := hn.isScalar hws w hw
      exact ⟨s, hs, fun h ↦ absurd h hnum⟩

theorem isMember_of_saysOf (hp : p.AllAtoms (SaysOf a k)) : p.AllAtoms IsMember :=
  hp.imp fun _ h ↦ h.asks.isMember

/-- The canonical form of a predicate about one attribute can be computed. -/
theorem readable_of_saysOf (hk : schema.kind? a = some k) (hp : p.AllAtoms (SaysOf a k)) :
    p.AllAtoms (Readable (some schema)) := by
  refine hp.imp fun atom h ↦ ⟨h.asks.isMember, fun {b} hb hnum s hs ↦ ?_⟩
  cases h.named.symm.trans hb
  exact h.asks.of_mem_scalars hs (Option.some.inj (hk.symm.trans (hnum schema rfl)))

/-! ## The values of which a predicate is true -/

/-- The predicate is true when the attribute that all its atoms are on has a certain value. -/
def HoldsFor (k : Kind) (v : Option Value) (p : Predicate) : Prop :=
  p.IsTrue fun atom ↦ ∃ m, atom.meaning? k = some m ∧ m v

theorem IsAtom.holdsFor_iff (hx : x.IsAtom) {m : Option Value → Prop} (hm : x.meaning? k = some m) :
    x.HoldsFor k v ↔ m v := by
  rw [HoldsFor, hx.isTrue_iff, hm]
  simp

/-- An assignment satisfies a predicate about one attribute if the predicate is true of the value of
the attribute. -/
theorem isTrue_iff_holdsFor (hk : schema.kind? a = some k) (hp : p.AllAtoms (SaysOf a k))
    (α : Assignment schema) : p.IsTrue α.truth ↔ p.HoldsFor k (α.value a) := by
  refine isTrue_congr (hp.imp fun atom h ↦ ?_)
  obtain ⟨m, hm⟩ := h.meaning
  rw [α.truth_of_meaning h.named hk hm, hm]
  simp

/-- Equal predicates are true of the same values. -/
theorem holdsFor_of_beq (hp : p.AllAtoms (SaysOf a k)) (hq : q.AllAtoms (SaysOf a k))
    (h : (p == q) = true) (v : Option Value) : p.HoldsFor k v ↔ q.HoldsFor k v := by
  induction p generalizing q with
  | always | never =>
    cases q <;> cases h
    exact Iff.rfl
  | bare | compare | isIn | between | isNull | test =>
    have htag := tag_eq_of_beq h
    cases q <;> try cases h
    all_goals
      obtain ⟨m, hm⟩ := hp.meaning
      obtain ⟨m', hm'⟩ := hq.meaning
      exact (IsAtom.holdsFor_iff (by trivial) hm).trans
        (((means_iff.2 hm).congr (means_iff.2 hm') htag v).trans
          (IsAtom.holdsFor_iff (by trivial) hm').symm)
  | not b ih =>
    cases q <;> try cases h
    exact not_congr (ih hp hq h)
  | and b c ihb ihc =>
    cases q <;> try cases h
    have hparts := Bool.and_eq_true_iff.1 h
    exact and_congr (ihb hp.1 hq.1 hparts.1) (ihc hp.2 hq.2 hparts.2)
  | or b c ihb ihc =>
    cases q <;> try cases h
    have hparts := Bool.and_eq_true_iff.1 h
    exact or_congr (ihb hp.1 hq.1 hparts.1) (ihc hp.2 hq.2 hparts.2)

/-! ## The form in which values are written -/

/-- The predicate is the form in which the values `S` of an attribute are written, as far as the
attribute may have them. -/
inductive WritesValues (hcat : schema.HasPlainCategories) (a : String) (S : Option Value → Prop) :
    Predicate → Prop
  | never (h : ∀ v, schema.Allows a v → ¬ S v) : WritesValues hcat a S .never
  | always (h : ∀ v, schema.Allows a v → S v) : WritesValues hcat a S .always
  | values {vs : ValueSet} (hvs : vs.ProperDemand (Interpretation.blank hcat.plain) a)
      (h : ∀ v, schema.Allows a v → (vs.Mem v ↔ S v)) :
      WritesValues hcat a S (vs.toPredicate schema.interpretation a)

section form

variable {hcat : schema.HasPlainCategories}

theorem WritesValues.congr (hx : WritesValues hcat a S x)
    (h : ∀ v, schema.Allows a v → (S v ↔ T v)) : WritesValues hcat a T x := by
  cases hx with
  | never hS => exact .never fun v hv ↦ mt (h v hv).2 (hS v hv)
  | always hS => exact .always fun v hv ↦ (h v hv).1 (hS v hv)
  | values hvs hS => exact .values hvs fun v hv ↦ (hS v hv).trans (h v hv)

/-- What values are written as is about their attribute alone. -/
theorem WritesValues.allAtoms (hk : schema.kind? a = some k) (hx : WritesValues hcat a S x) :
    x.AllAtoms (SaysOf a k) := by
  cases hx with
  | never | always => trivial
  | values hvs => exact ValueSet.allAtoms_saysOf hcat.plain hk hvs.demand

/-- **Values are written in one form only.** -/
theorem WritesValues.beq (hx : WritesValues hcat a S x) (hy : WritesValues hcat a S y) :
    (x == y) = true := by
  have hnull : schema.Allows a none := trivial
  have hdemand : ∀ {vs : ValueSet}, vs.ProperDemand (Interpretation.blank hcat.plain) a →
      vs.Demand ((default : Assignment schema).reading hcat) a := fun hvs ↦ hvs.demand.of_blank _
  -- a demand has an allowed value, and a proper one leaves out another
  have hsome : ∀ {vs : ValueSet}, vs.ProperDemand (Interpretation.blank hcat.plain) a →
      (∃ v, schema.Allows a v ∧ vs.Mem v) ∧ ∃ v, schema.Allows a v ∧ ¬ vs.Mem v := fun hvs ↦
    ⟨(hdemand hvs).exists_allowed,
      ValueSet.ProperDemand.exists_allowed_not_mem ⟨hdemand hvs, hvs.proper⟩⟩
  cases hx with
  | never hS =>
    cases hy with
    | never => rfl
    | always hS' => exact absurd (hS' none hnull) (hS none hnull)
    | values hvs hS' =>
      obtain ⟨⟨v, hv, hmem⟩, -⟩ := hsome hvs
      exact absurd ((hS' v hv).1 hmem) (hS v hv)
  | always hS =>
    cases hy with
    | never hS' => exact absurd (hS none hnull) (hS' none hnull)
    | always => rfl
    | values hvs hS' =>
      obtain ⟨-, v, hv, hnot⟩ := hsome hvs
      exact absurd ((hS' v hv).2 (hS v hv)) hnot
  | values hus hS =>
    cases hy with
    | never hS' =>
      obtain ⟨⟨v, hv, hmem⟩, -⟩ := hsome hus
      exact absurd ((hS v hv).1 hmem) (hS' v hv)
    | always hS' =>
      obtain ⟨-, v, hv, hnot⟩ := hsome hus
      exact absurd ((hS v hv).2 (hS' v hv)) hnot
    | values hvs hS' =>
      refine ValueSet.toPredicate_beq ((hdemand hus).beq_of_allowed (hdemand hvs) fun v hv ↦ ?_) _ _
      exact (hS v hv).trans (hS' v hv).symm

end form

/-! ## Passes -/

section passes

variable (hcat : schema.HasPlainCategories) (hk : schema.kind? a = some k)
include hcat hk

/-- A pass keeps the values of which a predicate is true. -/
theorem holdsFor_simplifyOnce (hx : x.AllAtoms (SaysOf a k)) (hy : y.AllAtoms (SaysOf a k))
    (h : simplifyOnce (some schema) effort x = .ok y) (hv : schema.Allows a v) :
    y.HoldsFor k v ↔ x.HoldsFor k v := by
  obtain ⟨α, rfl⟩ := hv.exists_assignment
  rw [← isTrue_iff_holdsFor hk hx, ← isTrue_iff_holdsFor hk hy]
  exact isTrue_simplifyOnce hcat h α

/-- The terms of a predicate are satisfied when the predicate is true of the value. -/
theorem anySat_iff_holdsFor {ts : List Term} (hx : x.AllAtoms (SaysOf a k))
    (hts : x.expand schema.interpretation false = .ok ts) (α : Assignment schema) :
    Term.AllValid (α.reading hcat) ts ∧
      (Term.AnySat (α.reading hcat) ts ↔ x.HoldsFor k (α.value a)) := by
  obtain ⟨hvalid, hsat⟩ := expand_spec (r := α.reading hcat) x (allAtoms_true x) hts
  rw [iff_true_right rfl] at hsat
  exact ⟨hvalid, hsat.trans (isTrue_iff_holdsFor hk hx α)⟩

/-- **A pass comes to the form in which the values are written of which the predicate is true.** -/
theorem writesValues_simplifyOnce (hx : x.AllAtoms (SaysOf a k))
    (h : simplifyOnce (some schema) effort x = .ok y) :
    WritesValues hcat a (fun v ↦ x.HoldsFor k v) y := by
  obtain ⟨ts, hts⟩ : ∃ ts, x.expand schema.interpretation false = .ok ts :=
    exists_expand (readable_of_saysOf hk hx) rfl false
  have hterms := anySat_iff_holdsFor hcat hk hx hts
  have hknows := Interpretation.knows_blank hcat.plain x
  have hkind : schema.interpretation.kind? a = some k := hk
  rw [simplifyOnce_eq hcat.plain rfl hts effort] at h
  cases h
  split
  · rename_i hfound
    refine .always fun v hv ↦ ?_
    obtain ⟨α, rfl⟩ := hv.exists_assignment
    obtain ⟨hvalid, hsat⟩ := hterms α
    exact hsat.1 (anySat_of_isTautology hvalid hfound)
  rcases expand_cases_of_saysOf hkind hx hknows hts with rfl | rfl | ⟨vs, rfl⟩
  · rw [Term.disjunctionOf_nil]
    refine .never fun v hv hS ↦ ?_
    obtain ⟨α, rfl⟩ := hv.exists_assignment
    obtain ⟨t, ht, -⟩ := (hterms α).2.2 hS
    cases ht
  · rw [Term.disjunctionOf_singleton, Term.toPredicate_always]
    refine .always fun v hv ↦ ?_
    obtain ⟨α, rfl⟩ := hv.exists_assignment
    exact (hterms α).2.1 ⟨.always, List.mem_singleton_self _, Term.sat_of_isAlways rfl⟩
  · rw [Term.disjunctionOf_singleton, Term.toPredicate_ofValues]
    have hproper := proper_expand x hknows hts _ (List.mem_singleton_self _)
    refine .values (hproper (a, vs) (List.mem_singleton_self _)) fun v hv ↦ ?_
    obtain ⟨α, rfl⟩ := hv.exists_assignment
    rw [← (hterms α).2]
    constructor
    · exact fun hmem ↦ ⟨_, List.mem_singleton_self _, Term.sat_ofValues.2 hmem⟩
    · rintro ⟨t, ht, hsat⟩
      obtain rfl := List.mem_singleton.1 ht
      exact Term.sat_ofValues.1 hsat

/-- **The canonical form of a predicate about one attribute** can be computed whatever the effort,
it is true of the same values, and it equals the form in which these are written. -/
theorem exists_simplify_writesValues (effort : Effort) (hp : p.AllAtoms (SaysOf a k)) :
    ∃ p' x, p.simplify (some schema) effort = .ok p' ∧ p'.AllAtoms (SaysOf a k) ∧
      (∀ v, schema.Allows a v → (p'.HoldsFor k v ↔ p.HoldsFor k v)) ∧
      WritesValues hcat a (fun v ↦ p.HoldsFor k v) x ∧ (p' == x) = true := by
  obtain ⟨p', hp'⟩ := exists_simplify effort (readable_of_saysOf hk hp)
  let Means (x : Predicate) : Prop :=
    x.AllAtoms (SaysOf a k) ∧ ∀ v, schema.Allows a v → (x.HoldsFor k v ↔ p.HoldsFor k v)
  have hself : Means p := ⟨hp, fun _ _ ↦ Iff.rfl⟩
  have hpass : ∀ x y, Means x → simplifyOnce (some schema) effort x = .ok y →
      Means y ∧ WritesValues hcat a (fun v ↦ p.HoldsFor k v) y := by
    intro x y hx hy
    have hform := writesValues_simplifyOnce hcat hk hx.1 hy
    have hatoms := hform.allAtoms hk
    refine ⟨⟨hatoms, fun v hv ↦ ?_⟩, hform.congr hx.2⟩
    exact (holdsFor_simplifyOnce hcat hk hx.1 hatoms hy hv).trans (hx.2 v hv)
  have hmeans : Means p' := settle_induction (fun x y hx hy ↦ (hpass x y hx hy).1)
    (by simpa using hself) hself hp'
  have hreflexive := beq_self_of_isMember (isMember_of_saysOf hmeans.1)
  rcases settle_cases hpass hself (by simp) (by simp [maxPasses]) hp' with
    hform | ⟨rfl, x, hform, hx⟩
  · exact ⟨p', p', hp', hmeans.1, hmeans.2, hform, hreflexive⟩
  · exact ⟨p', x, hp', hmeans.1, hmeans.2, hform, hx⟩

end passes

/-! ## One form -/

/-- **Predicates about one attribute have equal canonical forms exactly when they are true of the
same values** of the attribute, the missing value among them, whatever the effort that goes into
either. -/
theorem simplify_beq_iff (hcat : schema.HasPlainCategories) (hk : schema.kind? a = some k)
    (hp : p.AllAtoms (SaysOf a k)) (hq : q.AllAtoms (SaysOf a k)) (effort effort' : Effort) :
    ∃ p' q', p.simplify (some schema) effort = .ok p' ∧ q.simplify (some schema) effort' = .ok q' ∧
      ((p' == q') = true ↔ ∀ v, schema.Allows a v → (p.HoldsFor k v ↔ q.HoldsFor k v)) := by
  obtain ⟨p', x, hp', hpatoms, hpmeans, hpform, hpx⟩ :=
    exists_simplify_writesValues hcat hk effort hp
  obtain ⟨q', y, hq', hqatoms, hqmeans, hqform, hqy⟩ :=
    exists_simplify_writesValues hcat hk effort' hq
  refine ⟨p', q', hp', hq', fun heq v hv ↦ ?_, fun hsame ↦ ?_⟩
  · rw [← hpmeans v hv, ← hqmeans v hv]
    exact holdsFor_of_beq hpatoms hqatoms heq v
  · have hxy : (x == y) = true := (hpform.congr hsame).beq hqform
    have hxm := isMember_of_saysOf (hpform.allAtoms hk)
    have hym := isMember_of_saysOf (hqform.allAtoms hk)
    have hpm := isMember_of_saysOf hpatoms
    have hqm := isMember_of_saysOf hqatoms
    have hpy : (p' == y) = true :=
      beq_of_beq hpm hym hpx (beq_symm_of_isMember hxm hym hxy)
    exact beq_of_beq hpm hqm hpy hqy

/-- Not shallow is the same as deep or unknown, however little effort is made. -/
theorem simplify_not_shallow :
    let depth (op : Comparison) := compare (.text "depth") op (.double .zero)
    let p := not (depth .lt)
    let q := or (depth .ge) (isNull (.text "depth"))
    let schema := Schema.ofKind .numeric ["depth"]
    ∃ p' q', p.simplify (some schema) {} = .ok p' ∧
      q.simplify (some schema) ⟨.atMost (.finite 0), false⟩ = .ok q' ∧ (p' == q') = true := by
  intro depth p q schema
  have hdepth : ∀ op, (depth op).SaysOf "depth" .numeric := fun op ↦ ⟨rfl, _, rfl⟩
  have hnull : (isNull (.text "depth")).SaysOf "depth" .numeric := ⟨rfl, _, rfl⟩
  obtain ⟨p', q', hp', hq', hiff⟩ := @simplify_beq_iff schema "depth" .numeric p q
    (Schema.hasPlainCategories_ofKind _ _) rfl (hdepth .lt) ⟨hdepth .ge, hnull⟩
    {} ⟨.atMost (.finite 0), false⟩
  refine ⟨p', q', hp', hq', hiff.2 fun v _ ↦ ?_⟩
  have hcompare : ∀ op, (depth op).HoldsFor .numeric v ↔
      op.Holds (v.map Value.toEReal) Double.zero.toEReal :=
    fun op ↦ IsAtom.holdsFor_iff (x := depth op) trivial
      (m := fun v ↦ op.Holds (v.map Value.toEReal) Double.zero.toEReal) rfl
  have hmissing : (isNull (.text "depth")).HoldsFor .numeric v ↔ v = none :=
    IsAtom.holdsFor_iff (x := isNull (.text "depth")) trivial rfl
  show ¬ (depth .lt).HoldsFor .numeric v ↔
    (depth .ge).HoldsFor .numeric v ∨ (isNull (.text "depth")).HoldsFor .numeric v
  rw [hcompare, hcompare, hmissing]
  cases v <;> simp [Comparison.Holds, Comparison.Rel]

end Predicate

end RuleCoverage
