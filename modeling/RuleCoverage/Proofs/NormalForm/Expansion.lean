import RuleCoverage.NormalForm.Expansion
import RuleCoverage.Proofs.NormalForm.Reduction

/-!
# The expansion of a predicate

The terms that a predicate is expanded into are in good order, and one of them holds exactly when
the predicate is true.  The same is so of the expansion of its negation, and of the search that
negates a list of terms, as far as that comes to an end.

## What is here

* `Predicate.expandAtom_spec`, `Predicate.expand_spec` — the expansion says what the predicate says.
* `Term.negation_spec`, `Term.negateAll?_spec` — negated terms.
-/

set_option autoImplicit false

namespace RuleCoverage

variable {ctx : Interpretation} {r : Reading ctx}

/-! ## Atoms -/

namespace Predicate

/-- What some terms say about a predicate or its negation: they are in order, and one of them holds
exactly when it does. -/
def Expands (r : Reading ctx) (ts : List Term) (holds : Prop) : Prop :=
  Term.AllValid r ts ∧ (Term.AnySat r ts ↔ holds)

theorem expands_nil {holds : Prop} (h : ¬ holds) : Expands r [] holds :=
  ⟨fun _ ht ↦ absurd ht List.not_mem_nil, iff_of_false (fun ⟨_, ht, _⟩ ↦ List.not_mem_nil ht) h⟩

theorem expands_singleton {t : Term} {holds : Prop} (ht : t.Valid r) (h : t.Sat r ↔ holds) :
    Expands r [t] holds := by
  refine ⟨?_, ?_⟩
  · intro u hu
    rw [List.mem_singleton] at hu
    exact hu ▸ ht
  · rw [← h]
    simp [Term.AnySat]

theorem expands_always {holds : Prop} (h : holds) : Expands r [.always] holds :=
  expands_singleton Term.valid_always (iff_of_true Term.sat_always h)

/-- An atom with a value set becomes a demand for its values, or for the other ones. -/
theorem expands_values {a : String} {full vs : ValueSet} {holds : Prop} {ts : List Term}
    (hfull : ctx.full? a = some full) (hshape : vs.SameShape full) (hw : vs.Writable r a)
    (hholds : vs.Mem (r.value a) ↔ holds)
    (h : (if (vs.inter full).isEmpty then [] else if vs.inter full == full then [.always]
      else [.ofValues a (vs.inter full)]) = ts) : Expands r ts holds := by
  have hmem : (vs.inter full).Mem (r.value a) ↔ holds := by
    rw [ValueSet.mem_inter hshape, and_iff_left (r.full_mem hfull), hholds]
  split at h
  · rename_i hempty
    subst h
    exact expands_nil fun hh ↦ (ValueSet.isEmpty_iff _).1 hempty _ (hmem.2 hh)
  · rename_i hne
    split at h
    · rename_i heq
      subst h
      exact expands_always (hmem.1 ((ValueSet.mem_congr heq _).2 (r.full_mem hfull)))
    · subst h
      have hd := ValueSet.demand_inter_full hfull hshape hw hne
      exact expands_singleton (Term.valid_ofValues hd) (Term.sat_ofValues.trans hmem)

/-- An opaque atom becomes a literal. -/
theorem expands_literal {atom : Predicate} (h : r.IsOpaque atom) (positive : Bool) :
    Expands r [.ofLiteral ⟨atom, positive⟩] (r.truth atom ↔ positive = true) :=
  expands_singleton (Term.valid_ofLiteral h) Term.sat_ofLiteral

section atom

variable {atom : Predicate} {negated : Bool} {ts : List Term}

/-- What can become of an atom: its attribute is missing, or it has a value set, or it is opaque. -/
theorem expandAtom_cases (h : expandAtom ctx atom negated = .ok ts) :
    (∃ a, atom.named? = some a ∧ ctx.isMissing a = true ∧
      ts = if atom.holdsOfNull != negated then [.always] else []) ∨
    (∃ a full vs, atom.named? = some a ∧ ctx.values? atom = .ok (some vs) ∧
      ctx.full? a = some full ∧ vs.SameShape full ∧
      ts = if ((if negated then vs.complement else vs).inter full).isEmpty then []
        else if (if negated then vs.complement else vs).inter full == full then [.always]
        else [.ofValues a ((if negated then vs.complement else vs).inter full)]) ∨
    (ctx.values? atom = .ok none ∧ atom.checkMember = .ok () ∧
      (∀ a, atom.named? = some a → ¬ ctx.isMissing a = true) ∧
      ts = [.ofLiteral ⟨atom, !negated⟩]) := by
  rw [expandAtom] at h
  simp only at h
  split at h
  · rename_i hany
    rcases hn : atom.named? with _ | a
    · rw [named?] at hn
      rw [hn] at hany
      cases hany
    · rw [named?] at hn
      rw [hn] at hany
      cases h
      exact .inl ⟨a, rfl, hany, rfl⟩
  rename_i hany
  obtain ⟨vs?, hvs, h⟩ := bind_eq_ok.1 h
  rcases vs? with _ | vs
  · split at h
    · rename_i heq
      cases heq
    · obtain ⟨_, hc, h⟩ := bind_eq_ok.1 h
      refine .inr (.inr ⟨hvs, hc, fun a hn hm ↦ hany ?_, (Except.ok.inj h).symm⟩)
      rw [named?] at hn
      rwa [hn, Option.any_some]
  · obtain ⟨a, full, hn, hfull, hshape⟩ := Interpretation.values?_eq_some hvs
    refine .inr (.inl ⟨a, full, vs, hn, hvs, hfull, hshape, ?_⟩)
    rw [named?] at hn
    rw [hn, Option.bind_some, hfull, Option.map_some] at h
    simp only at h
    generalize (if negated then vs.complement else vs).inter full = ws at h ⊢
    split at h
    · rename_i hempty
      cases h
      rw [if_pos hempty]
    split at h
    · rename_i hne heq
      cases h
      rw [if_neg hne, if_pos heq]
    · rename_i hne hneq
      cases h
      rw [if_neg hne, if_neg hneq]

theorem expandAtom_spec (hatom : atom.IsAtom) (hknows : r.Knows atom)
    (h : expandAtom ctx atom negated = .ok ts) :
    Expands r ts (r.truth atom ↔ negated = false) := by
  rcases expandAtom_cases h with ⟨a, hn, hm, rfl⟩ | ⟨a, full, vs, hn, hvs, hfull, hshape, rfl⟩ |
    ⟨hvs, hc, hm, rfl⟩
  · rw [r.truth_of_isMissing hknows hn hm]
    split
    · rename_i hholds
      refine expands_always ?_
      cases hp : atom.holdsOfNull <;> cases negated <;> simp_all
    · rename_i hholds
      refine expands_nil ?_
      cases hp : atom.holdsOfNull <;> cases negated <;> simp_all
  · have hw : vs.Writable r a := by
      rintro d rfl
      exact r.compares_values hknows hn hvs
    rw [r.truth_of_values hknows hn hvs]
    cases negated with
    | false => exact expands_values hfull hshape hw (iff_true_right rfl).symm rfl
    | true =>
      have hshape' : vs.complement.SameShape full := by
        rwa [ValueSet.SameShape, ValueSet.isNumeric_complement]
      refine expands_values hfull hshape' hw.complement ?_ rfl
      rw [ValueSet.mem_complement]
      exact (iff_false_right Bool.noConfusion).symm
  · have hop : r.IsOpaque atom := ⟨hknows, isMember_of_checkMember hatom hc, hvs, hm⟩
    have h' := expands_literal hop (!negated)
    rwa [Bool.not_eq_true'] at h'

end atom

end Predicate

/-! ## Joining expansions -/

namespace Term

variable {ss ts us : List Term}

theorem conjunctions_spec (hs : AllValid r ss) (ht : AllValid r ts) :
    Predicate.Expands r (conjunctions ss ts) (AnySat r ss ∧ AnySat r ts) := by
  constructor
  · intro u hu
    simp only [conjunctions, List.mem_flatMap, List.mem_filterMap] at hu
    obtain ⟨s, hsm, t, htm, hu⟩ := hu
    exact (hs s hsm).conjoin? (ht t htm) hu
  · simp only [AnySat, conjunctions, List.mem_flatMap, List.mem_filterMap]
    constructor
    · rintro ⟨u, ⟨s, hsm, t, htm, hu⟩, hsat⟩
      obtain ⟨hss, hst⟩ := (sat_conjoin? (hs s hsm) (ht t htm)).1 ⟨u, hu, hsat⟩
      exact ⟨⟨s, hsm, hss⟩, t, htm, hst⟩
    · rintro ⟨⟨s, hsm, hss⟩, t, htm, hst⟩
      obtain ⟨u, hu, hsat⟩ := (sat_conjoin? (hs s hsm) (ht t htm)).2 ⟨hss, hst⟩
      exact ⟨u, ⟨s, hsm, t, htm, hu⟩, hsat⟩

theorem reduce_spec {holds : Prop} (h : Predicate.Expands r ts holds) :
    Predicate.Expands r (reduce ctx.full? ts) holds :=
  ⟨allValid_reduce h.1, (anySat_reduce h.1).trans h.2⟩

/-- The terms of a conjunction or of a disjunction. -/
theorem combine_spec {conjunctive : Bool} {right : Unit → Except Error (List Term)} {p q : Prop}
    (hs : Predicate.Expands r ss p)
    (hright : ∀ ts, right () = .ok ts → Predicate.Expands r ts q)
    (h : combine ctx conjunctive ss right = .ok us) :
    Predicate.Expands r us (if conjunctive then p ∧ q else p ∨ q) := by
  rw [combine] at h
  cases conjunctive with
  | true =>
    simp only [if_true] at h ⊢
    split at h
    · rename_i hempty
      cases h
      rw [List.isEmpty_iff] at hempty
      subst hempty
      refine Predicate.expands_nil fun hpq ↦ ?_
      obtain ⟨t, ht, -⟩ := hs.2.2 hpq.1
      cases ht
    · obtain ⟨ts, hr, rfl⟩ := map_eq_ok.1 h
      obtain ⟨hvalid, hsat⟩ := hright ts hr
      have hc := conjunctions_spec hs.1 hvalid
      rw [hs.2, hsat] at hc
      exact reduce_spec hc
  | false =>
    simp only [Bool.false_eq_true, if_false] at h ⊢
    obtain ⟨ts, hr, rfl⟩ := map_eq_ok.1 h
    obtain ⟨hvalid, hsat⟩ := hright ts hr
    refine reduce_spec ⟨allValid_append.2 ⟨hs.1, hvalid⟩, ?_⟩
    rw [anySat_append, hs.2, hsat]

end Term

namespace Predicate

/-- **The expansion of a predicate, or of its negation, says what that says.** -/
theorem expand_spec (p : Predicate) {negated : Bool} {ts : List Term}
    (hknows : p.AllAtoms r.Knows) (h : p.expand ctx negated = .ok ts) :
    Expands r ts (p.IsTrue r.truth ↔ negated = false) := by
  induction p generalizing negated ts with
  | always =>
    cases negated <;> cases h
    · exact expands_always (by simp [IsTrue])
    · exact expands_nil (by simp [IsTrue])
  | never =>
    cases negated <;> cases h
    · exact expands_nil (by simp [IsTrue])
    · exact expands_always (by simp [IsTrue])
  | not a ih =>
    have ha := ih hknows (show expand ctx a (!negated) = .ok ts from h)
    refine ⟨ha.1, ha.2.trans ?_⟩
    rw [IsTrue]
    cases negated <;> simp
  | and a b iha ihb =>
    obtain ⟨left, hl, h⟩ := bind_eq_ok.1 h
    have hc := Term.combine_spec (iha hknows.1 hl) (fun _ hr ↦ ihb hknows.2 hr) h
    refine ⟨hc.1, hc.2.trans ?_⟩
    rw [IsTrue]
    cases negated <;> simp [imp_iff_not_or]
  | or a b iha ihb =>
    obtain ⟨left, hl, h⟩ := bind_eq_ok.1 h
    have hc := Term.combine_spec (iha hknows.1 hl) (fun _ hr ↦ ihb hknows.2 hr) h
    refine ⟨hc.1, hc.2.trans ?_⟩
    rw [IsTrue]
    cases negated <;> simp
  | bare | compare | isIn | between | isNull | test =>
    exact expandAtom_spec trivial hknows h

end Predicate

/-! ## Negated terms -/

namespace Term

variable {ts us acc : List Term} {t : Term}

/-- What a constraint leaves of the values of its attribute. -/
def leftOut (ctx : Interpretation) (a : String) (vs : ValueSet) : ValueSet :=
  match ctx.full? a with
  | some full => vs.complement.inter full
  | none => vs.complement

theorem negation_eq (ctx : Interpretation) (t : Term) : t.negation ctx =
    t.constraints.filterMap (fun c ↦ if (leftOut ctx c.1 c.2).isEmpty then none
      else some (ofValues c.1 (leftOut ctx c.1 c.2))) ++
    t.literals.toList.map fun l ↦ ofLiteral l.negate := rfl

theorem leftOut_spec {a : String} {vs : ValueSet} (h : vs.Demand r a) :
    ((leftOut ctx a vs).Mem (r.value a) ↔ ¬ vs.Mem (r.value a)) ∧
      (¬ (leftOut ctx a vs).isEmpty = true → (leftOut ctx a vs).Demand r a) := by
  obtain ⟨full, hfull, hshape⟩ := h.full
  have hshape' : vs.complement.SameShape full := by
    rwa [ValueSet.SameShape, ValueSet.isNumeric_complement]
  rw [leftOut, hfull]
  simp only
  refine ⟨?_, ValueSet.demand_inter_full hfull hshape' h.writable.complement⟩
  rw [ValueSet.mem_inter hshape', and_iff_left (r.full_mem hfull), ValueSet.mem_complement]

theorem negation_spec (h : t.Valid r) : Predicate.Expands r (t.negation ctx) (¬ t.Sat r) := by
  rw [negation_eq]
  constructor
  · refine allValid_append.2 ⟨?_, ?_⟩
    · intro u hu
      obtain ⟨c, hc, hu⟩ := List.mem_filterMap.1 hu
      split at hu
      · cases hu
      · rename_i hne
        cases hu
        exact valid_ofValues ((leftOut_spec (h.constraints.demands c hc)).2 hne)
    · intro u hu
      obtain ⟨l, hl, rfl⟩ := List.mem_map.1 hu
      exact valid_ofLiteral (h.opaques l hl)
  · have hcs : AnySat r (t.constraints.filterMap (fun c ↦ if (leftOut ctx c.1 c.2).isEmpty then none
        else some (ofValues c.1 (leftOut ctx c.1 c.2)))) ↔ ¬ ConstraintsHold r t.constraints := by
      simp only [AnySat, List.mem_filterMap, ConstraintsHold, not_forall, exists_prop]
      constructor
      · rintro ⟨u, ⟨c, hc, hu⟩, hsat⟩
        split at hu
        · cases hu
        · cases hu
          exact ⟨c, hc, (leftOut_spec (h.constraints.demands c hc)).1.1 (sat_ofValues.1 hsat)⟩
      · rintro ⟨c, hc, hn⟩
        have hmem := (leftOut_spec (h.constraints.demands c hc)).1.2 hn
        refine ⟨_, ⟨c, hc, if_neg fun hempty ↦ ?_⟩, sat_ofValues.2 hmem⟩
        exact (ValueSet.isEmpty_iff _).1 hempty _ hmem
    have hls : AnySat r (t.literals.toList.map fun l ↦ ofLiteral l.negate) ↔
        ¬ ∀ l ∈ t.literals.toList, l.Sat r := by
      simp only [AnySat, List.mem_map, exists_exists_and_eq_and, sat_ofLiteral,
        OpaqueLiteral.sat_negate, not_forall, exists_prop]
    rw [anySat_append, hcs, hls, Sat, not_and_or]

theorem negateFrom?_spec {budget : Budget} (hacc : AllValid r acc) (hts : AllValid r ts)
    (h : negateFrom? ctx budget acc ts = some us) :
    Predicate.Expands r us (AnySat r acc ∧ ¬ AnySat r ts) := by
  induction ts generalizing acc with
  | nil =>
    cases h
    exact ⟨hacc, by simp [AnySat]⟩
  | cons t rest ih =>
    have ht := negation_spec (hts t List.mem_cons_self)
    have hrest : AllValid r rest := fun u hu ↦ hts u (List.mem_cons_of_mem _ hu)
    have hstep := conjunctions_spec hacc ht.1
    rw [ht.2] at hstep
    have hreduced := reduce_spec hstep
    rw [anySat_cons, not_or, ← and_assoc, ← hreduced.2]
    rw [negateFrom?] at h
    split at h
    · cases h
    split at h
    · rename_i hnil
      cases h
      rw [hnil]
      refine Predicate.expands_nil ?_
      rintro ⟨⟨_, hu, -⟩, -⟩
      exact List.not_mem_nil hu
    · exact ih hreduced.1 hrest h

/-- **The negation of a list of terms, where the search for it comes to an end.** -/
theorem negateAll?_spec {budget : Budget} (hts : AllValid r ts)
    (h : negateAll? ctx budget ts = some us) : Predicate.Expands r us (¬ AnySat r ts) := by
  have halways := Predicate.expands_always (r := r) trivial
  have hspec := negateFrom?_spec halways.1 hts h
  rwa [halways.2, true_and] at hspec

end Term

end RuleCoverage
