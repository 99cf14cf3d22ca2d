import RuleCoverage.Proofs.NormalForm.Passes
import RuleCoverage.Proofs.NormalForm.RoundTrip.Domain
import RuleCoverage.Proofs.NormalForm.RoundTrip.Terms

/-!
# Reading a normal form once more

What a predicate was expanded into is written as its normal form.  If this is read in the way in
which the predicate was, what comes out is the same terms, up to the spelling of their values and
the order (`Predicate.exists_reread`).  The new terms are settled, and a normal form of settled
terms is written in the same way again.

A pass comes to the normal form of the terms, unless it finds that they always hold
(`Predicate.simplifyOnce_eq`).
-/

set_option autoImplicit false

namespace RuleCoverage

variable {ctx : Interpretation} {r : Reading ctx} {a : String}

/-! ## Value sets -/

namespace ValueSet

variable {vs vs' : ValueSet}

/-- How a value set and what it is read as are related. -/
structure Rereads (ctx : Interpretation) (a : String) (vs vs' : ValueSet) : Prop where
  beq : (vs == vs') = true
  settled : vs'.Settled ctx a
  written : vs.Settled ctx a → vs'.toPredicate ctx a = vs.toPredicate ctx a

theorem settled_numeric (ns : NumericValues) : (numeric ns).Settled ctx a := by
  rintro d full ⟨⟩

/-- **A value set is read as it is written.** -/
theorem exists_readsAs (hctx : ctx.Plain)
    (hd : vs.ProperDemand (Interpretation.blank hctx) a) :
    ∃ vs', vs.Rereads ctx a vs' ∧ (vs.toPredicate ctx a).ReadsAs ctx (.ofValues a vs') := by
  cases hd.demand.full.shaped with
  | @numeric ns hk =>
    refine ⟨.numeric ns.reread, ⟨BEq.symm (a := numeric ns.reread) ns.reread_beq,
      settled_numeric _, fun _ ↦ ns.toPredicate_reread a⟩, ?_⟩
    exact NumericValues.readsAs_toPredicate hk hd
  | @discrete d k domain hk hk' hfull =>
    have hadmits : ∀ s ∈ d.values.toList, k.Admits s :=
      fun s hs ↦ hd.demand.writable d rfl s hs k hk
    obtain ⟨d', hread, hbeq, hsettled, hwritten⟩ :=
      DiscreteValues.exists_readsAs hk hk' hfull hctx hadmits hd
    have hrender : ∀ e : DiscreteValues, (discrete e).toPredicate ctx a =
        e.toPredicate a (.full domain) := by
      intro e
      rw [toPredicate, hfull]
    refine ⟨.discrete d', ⟨hbeq, ?_, ?_⟩, hrender d ▸ hread⟩
    · rintro e full ⟨⟩ hfull'
      cases hfull.symm.trans hfull'
      exact hsettled
    · intro h
      rw [hrender, hrender, hwritten (h d _ rfl hfull)]

end ValueSet

/-! ## Terms -/

namespace Term

variable {t t' : Term} {ts us : List Term}

/-- All value sets are settled. -/
def Settled (ctx : Interpretation) (t : Term) : Prop := ∀ c ∈ t.constraints, c.2.Settled ctx c.1

theorem faithful_rereads (ctx : Interpretation) : Faithful (ValueSet.Rereads ctx) where
  beq hu hv := faithful_beq.beq (a := "") hu.beq hv.beq
  subset hu hv := faithful_beq.subset (a := "") hu.beq hv.beq

/-- How a term and what it is read as are related. -/
structure Rereads (ctx : Interpretation) (t t' : Term) : Prop where
  corresponds : Corresponds (ValueSet.Rereads ctx) t t'
  literals : t'.literals.toList = t.sortedLiterals

theorem Rereads.settled (h : Rereads ctx t t') : t'.Settled ctx := by
  intro c' hc'
  obtain ⟨c, -, hattr, hc⟩ := exists_left_of_mem h.corresponds.constraints hc'
  exact hattr ▸ hc.settled

/-- A settled term is written in the same way again. -/
theorem Rereads.toPredicate_eq (h : Rereads ctx t t') (ht : t.Settled ctx) :
    t'.toPredicate ctx = t.toPredicate ctx := by
  refine toPredicate_congr h.literals ?_
  have hcs := h.corresponds.constraints
  rw [Settled] at ht
  generalize t.constraints = cs at hcs ht
  generalize t'.constraints = cs' at hcs
  induction hcs with
  | nil => exact .nil
  | cons hc _ ih =>
    rw [List.forall_mem_cons] at ht
    exact .cons ⟨hc.1, hc.2.written ht.1⟩ (ih ht.2)

theorem exists_rereads (hctx : ctx.Plain) (ht : t.Valid (Interpretation.blank hctx))
    (hproper : t.Proper (Interpretation.blank hctx)) :
    ∃ t', (t.toPredicate ctx).ReadsAs ctx t' ∧ Rereads ctx t t' := by
  have hliterals : ∀ l ∈ t.literals.toList, l.atom.Uninterpreted ctx :=
    fun l hl ↦ Predicate.uninterpreted_of_isOpaque (ht.opaques l hl)
  obtain ⟨t', hread, hcorr, hls⟩ := exists_readsAs (M := ValueSet.Rereads ctx) ht
    (fun c hc ↦ ValueSet.exists_readsAs hctx (hproper c hc)) hliterals
  exact ⟨t', hread, hcorr, hls⟩

end Term

/-! ## Normal forms -/

namespace Predicate

variable {p : Predicate} {negated : Bool} {ts : List Term}

theorem reduced_combine {conjunctive : Bool} {ss us : List Term}
    {right : Unit → Except Error (List Term)} (hs : Term.AllValid r ss)
    (hright : ∀ ts, right () = .ok ts → Term.AllValid r ts)
    (h : Term.combine ctx conjunctive ss right = .ok us) : Term.Reduced us := by
  rw [Term.combine] at h
  split at h
  · split at h
    · cases h
      exact Term.reduced_nil
    · obtain ⟨ts, hts, rfl⟩ := map_eq_ok.1 h
      exact Term.reduced_reduce (Term.conjunctions_spec hs (hright ts hts)).1
  · obtain ⟨ts, hts, rfl⟩ := map_eq_ok.1 h
    exact Term.reduced_reduce (Term.allValid_append.2 ⟨hs, hright ts hts⟩)

theorem reduced_expandAtom {atom : Predicate} (h : expandAtom ctx atom negated = .ok ts) :
    Term.Reduced ts := by
  rcases expandAtom_cases h with ⟨a, -, -, rfl⟩ | ⟨a, full, vs, -, -, -, -, rfl⟩ | ⟨-, -, -, rfl⟩
  · split
    · exact Term.reduced_singleton _
    · exact Term.reduced_nil
  · generalize (if negated then vs.complement else vs).inter full = ws
    split
    · exact Term.reduced_nil
    split
    · exact Term.reduced_singleton _
    · exact Term.reduced_singleton _
  · exact Term.reduced_singleton _

/-- **There is nothing left to do to the terms of an expansion.** -/
theorem reduced_expand (p : Predicate) {negated : Bool} {ts : List Term}
    (hknows : p.AllAtoms r.Knows) (h : p.expand ctx negated = .ok ts) : Term.Reduced ts := by
  induction p generalizing negated ts with
  | always | never =>
    cases negated <;> cases h <;> first | exact Term.reduced_nil | exact Term.reduced_singleton _
  | not a ih => exact ih hknows h
  | and a b _ _ | or a b _ _ =>
    obtain ⟨left, hl, h⟩ := bind_eq_ok.1 h
    exact reduced_combine (expand_spec a hknows.1 hl).1
      (fun _ hr ↦ (expand_spec b hknows.2 hr).1) h
  | bare | compare | isIn | between | isNull | test => exact reduced_expandAtom h

/-- **A normal form is read as it is written**, up to the order of the terms and the spelling of
their values. -/
theorem exists_reread (hctx : ctx.Plain) (h : p.expand ctx false = .ok ts) :
    ∃ ts', (Term.disjunctionOf ctx ts).expand ctx false = .ok ts' ∧
      List.Forall₂ (Term.Rereads ctx) (Term.inOrder ctx ts) ts' := by
  have hknows := Interpretation.knows_blank hctx
  have hvalid := (expand_spec p (hknows p) h).1
  have hproper := proper_expand p (hknows p) h
  have hread : ∀ t ∈ Term.inOrder ctx ts, ∃ t', (t.toPredicate ctx).ReadsAs ctx t' ∧
      Term.Rereads ctx t t' := by
    intro t ht
    rw [(Term.inOrder_perm ctx ts).mem_iff] at ht
    exact Term.exists_rereads hctx (hvalid t ht) (hproper t ht)
  obtain ⟨ts', hts'⟩ := List.exists_forall₂ hread
  have hvalid' : Term.AllValid (Interpretation.blank hctx) ts' := by
    intro t' ht'
    obtain ⟨t, -, hread, -⟩ := Term.exists_left_of_mem hts' ht'
    exact (expand_spec _ (hknows _) hread).1 t' (List.mem_singleton_self t')
  refine ⟨ts', ?_, hts'.imp fun t t' h ↦ h.2⟩
  exact Term.expand_disjunctionOf (Term.faithful_rereads ctx) (reduced_expand p (hknows p) h)
    (hts'.imp fun t t' h ↦ ⟨h.1, h.2.corresponds⟩) hvalid'

/-- **A pass comes to the normal form**, unless the search finds that the predicate always holds. -/
theorem simplifyOnce_eq {schema? : Option Schema} (hctx : ctx.Plain)
    (hof : Interpretation.of p schema? = .ok ctx) (h : p.expand ctx false = .ok ts)
    (effort : Effort) : simplifyOnce schema? effort p =
      .ok (if isTautology ctx effort ts then .always else Term.disjunctionOf ctx ts) := by
  have hreduced := reduced_expand p (Interpretation.knows_blank hctx p) h
  rw [simplifyOnce_of_expand hof h]
  split
  · rename_i hempty
    obtain rfl := List.isEmpty_iff.1 hempty
    have hno : isTautology ctx effort [] = false := by
      rw [isTautology, Term.negateAll?, Term.negateFrom?, Bool.and_false]
    rw [hno, Term.disjunctionOf_nil]
    rfl
  cases hany : ts.any Term.isAlways with
  | false => rw [Bool.false_or]
  | true =>
    obtain ⟨t, ht, hal⟩ := List.any_eq_true.1 hany
    rw [hreduced.always t ht hal, Term.disjunctionOf_singleton, Term.toPredicate_always]
    simp only [Bool.true_or, ite_self]

/-- A predicate that is written as it is read stays. -/
theorem stays_of_disjunctionOf {schema? : Option Schema} {effort : Effort} (hctx : ctx.Plain)
    (hof : Interpretation.of p schema? = .ok ctx) (h : p.expand ctx false = .ok ts)
    (hwritten : Term.disjunctionOf ctx ts = p) : p.Stays schema? effort := by
  refine ⟨isTautology ctx effort ts, fun hfound ↦ (Bool.and_eq_true_iff.1 hfound).1, ?_⟩
  rw [simplifyOnce_eq hctx hof h, hwritten]

end Predicate

end RuleCoverage
