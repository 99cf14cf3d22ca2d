import RuleCoverage.Proofs.NormalForm.Expansion
import RuleCoverage.Proofs.Values.Extensionality

/-!
# Constraints leave something out

A demand for all the values of an attribute is no demand, and the expansion of a predicate has none:
they are dropped where they arise (`Term.Proper`, `Predicate.proper_expand`).

Properties of the terms of an expansion are shown step by step: `Predicate.forall_expand` says that
all of them have a property if the terms of atoms have it and joining and merging keep it.
-/

set_option autoImplicit false

namespace RuleCoverage

variable {ctx : Interpretation} {r : Reading ctx}

/-! ## Step by step -/

namespace Term

variable {full? : String → Option ValueSet} {P : Term → Prop} {ts us : List Term}

section merging

variable (hmerge : ∀ {s t m}, P s → P t → merge? full? s t = some m → P m)

include hmerge

theorem forall_of_merge? {s t m : Term} {rest : List Term} (hperm : ts.Perm (s :: t :: rest))
    (hm : merge? full? s t = some m) (hts : ∀ t ∈ ts, P t) : ∀ t ∈ rest ++ [m], P t := by
  have hall : ∀ u ∈ s :: t :: rest, P u := fun u hu ↦ hts u (hperm.mem_iff.2 hu)
  rw [List.forall_mem_cons, List.forall_mem_cons] at hall
  exact List.forall_mem_append.2
    ⟨hall.2.2, List.forall_mem_singleton.2 (hmerge hall.1 hall.2.1 hm)⟩

/-- What merging keeps is true of all terms that a round leaves. -/
theorem forall_round? (hts : ∀ t ∈ ts, P t) (h : round? full? ts = some us) : ∀ t ∈ us, P t :=
  round?_step (Q := fun ts ↦ ∀ t ∈ ts, P t) forall_dedup (forall_of_merge? hmerge) forall_prune h
    hts

/-- What merging keeps is true of all terms of a reduced list. -/
theorem forall_reduce (halways : P always) (hts : ∀ t ∈ ts, P t) : ∀ t ∈ reduce full? ts, P t :=
  reduce_induction (Q := fun ts ↦ ∀ t ∈ ts, P t) forall_dedup (forall_of_merge? hmerge)
    forall_prune (fun _ _ ↦ List.forall_mem_singleton.2 halways) hts

end merging

/-! ### Constraints -/

section constraints

variable {C : String → ValueSet → Prop} {s t u : Term} {cs cs' ds : List (String × ValueSet)}

theorem forall_constrain?
    (hinter : ∀ {a us vs}, C a us → C a vs → ¬ (us.inter vs).isEmpty = true → C a (us.inter vs))
    {a : String} {vs : ValueSet} (hvs : C a vs) (hcs : ∀ c ∈ cs, C c.1 c.2)
    (h : constrain? a vs cs = some cs') : ∀ c ∈ cs', C c.1 c.2 := by
  replace h := constrains_of_constrain? h
  induction h with
  | last => exact List.forall_mem_singleton.2 hvs
  | overlap hne =>
    rw [List.forall_mem_cons] at hcs
    exact List.forall_mem_cons.2 ⟨hinter hcs.1 hvs hne, hcs.2⟩
  | before => exact List.forall_mem_cons.2 ⟨hvs, hcs⟩
  | behind _ _ ih =>
    rw [List.forall_mem_cons] at hcs
    exact List.forall_mem_cons.2 ⟨hcs.1, ih hcs.2⟩

/-- What overlaps keep is true of the constraints of a conjunction. -/
theorem forall_conjoin?
    (hinter : ∀ {a us vs}, C a us → C a vs → ¬ (us.inter vs).isEmpty = true → C a (us.inter vs))
    (hs : ∀ c ∈ s.constraints, C c.1 c.2) (ht : ∀ c ∈ t.constraints, C c.1 c.2)
    (h : s.conjoin? t = some u) : ∀ c ∈ u.constraints, C c.1 c.2 := by
  have hfold := (conjoin?_eq_some.1 h).1
  generalize s.constraints = cs at hs hfold
  generalize t.constraints = ds at ht hfold
  revert cs
  induction ds with
  | nil =>
    intro cs hs hfold
    cases hfold
    exact hs
  | cons d ds ih =>
    intro cs hs hfold
    rw [List.forall_mem_cons] at ht
    obtain ⟨mid, hmid, hfold⟩ := Option.bind_eq_some_iff.1 hfold
    exact ih ht.2 mid (forall_constrain? hinter ht.1 hs hmid) hfold

/-- What unions keep is true of the constraints of a merged term. -/
theorem forall_merge? (hunion : ∀ {a us vs}, C a us → C a vs →
      ¬ (full? a == some (us.union vs)) = true → C a (us.union vs))
    (hs : ∀ c ∈ s.constraints, C c.1 c.2) (ht : ∀ c ∈ t.constraints, C c.1 c.2)
    (h : merge? full? s t = some u) : ∀ c ∈ u.constraints, C c.1 c.2 := by
  rcases merge?_cases h with ⟨-, -, hcs⟩ | ⟨-, hcs, -⟩
  · exact (merges_of_mergeValues? hcs).forall_mem hunion hs ht
  · rwa [hcs]

variable {D : OpaqueLiteral → Prop}

theorem forall_literals_conjoin? (hs : ∀ l ∈ s.literals.toList, D l)
    (ht : ∀ l ∈ t.literals.toList, D l) (h : s.conjoin? t = some u) :
    ∀ l ∈ u.literals.toList, D l := by
  intro l hl
  rw [(conjoin?_eq_some.1 h).2.1] at hl
  exact (Distinct.mem_of_mem_union hl).elim (hs l) (ht l)

theorem forall_literals_merge? (hs : ∀ l ∈ s.literals.toList, D l)
    (ht : ∀ l ∈ t.literals.toList, D l) (h : merge? full? s t = some u) :
    ∀ l ∈ u.literals.toList, D l := by
  intro l hl
  rcases merge?_cases h with ⟨-, hls, -⟩ | ⟨-, -, hls, -⟩
  · exact hs l (hls ▸ hl)
  · rw [hls] at hl
    exact (Distinct.mem_of_mem_inter hl).elim (hs l) (ht l)

end constraints

end Term

namespace Predicate

variable {P : Term → Prop} {Q : Predicate → Prop}

/-- What the three outcomes of an atom have is true of all its terms. -/
theorem forall_expandAtom {atom : Predicate} {negated : Bool} {ts : List Term} (halways : P .always)
    (hvalues : ∀ {a full vs}, atom.named? = some a → ctx.values? atom = .ok (some vs) →
      ctx.full? a = some full → vs.SameShape full →
      ¬ ((if negated then vs.complement else vs).inter full).isEmpty = true →
      ¬ ((if negated then vs.complement else vs).inter full == full) = true →
      P (.ofValues a ((if negated then vs.complement else vs).inter full)))
    (hliteral : ctx.values? atom = .ok none → atom.checkMember = .ok () →
      P (.ofLiteral ⟨atom, !negated⟩))
    (h : expandAtom ctx atom negated = .ok ts) : ∀ t ∈ ts, P t := by
  rcases expandAtom_cases h with ⟨a, -, -, rfl⟩ | ⟨a, full, vs, hn, hvs, hfull, hshape, rfl⟩ |
    ⟨hvs, hc, -, rfl⟩
  · split
    · exact List.forall_mem_singleton.2 halways
    · exact List.forall_mem_nil _
  · have hws := hvalues hn hvs hfull hshape
    generalize (if negated then vs.complement else vs).inter full = ws at hws ⊢
    split
    · exact List.forall_mem_nil _
    rename_i hne
    split
    · exact List.forall_mem_singleton.2 halways
    · rename_i hproper
      exact List.forall_mem_singleton.2 (hws hne hproper)
  · exact List.forall_mem_singleton.2 (hliteral hvs hc)

/-- **What the terms of atoms have and joining and merging keep is true of all terms of an
expansion.** -/
theorem forall_expand (halways : P .always)
    (hatom : ∀ {atom : Predicate} {negated ts}, atom.IsAtom → Q atom →
      expandAtom ctx atom negated = .ok ts → ∀ t ∈ ts, P t)
    (hconjoin : ∀ {s t u : Term}, P s → P t → s.conjoin? t = some u → P u)
    (hmerge : ∀ {s t m : Term}, P s → P t → Term.merge? ctx.full? s t = some m → P m)
    (p : Predicate) (hp : p.AllAtoms Q) {negated : Bool} {ts : List Term}
    (h : p.expand ctx negated = .ok ts) : ∀ t ∈ ts, P t := by
  have hcombine : ∀ {conjunctive ss right us}, (∀ s ∈ ss, P s) →
      (∀ ts, right () = .ok ts → ∀ t ∈ ts, P t) →
      Term.combine ctx conjunctive ss right = .ok us → ∀ u ∈ us, P u := by
    intro conjunctive ss right us hss hright h
    rw [Term.combine] at h
    split at h
    · split at h
      · cases h
        simp
      · obtain ⟨ts, hts, rfl⟩ := map_eq_ok.1 h
        refine Term.forall_reduce hmerge halways fun u hu ↦ ?_
        simp only [Term.conjunctions, List.mem_flatMap, List.mem_filterMap] at hu
        obtain ⟨s, hs, t, ht, hu⟩ := hu
        exact hconjoin (hss s hs) (hright ts hts t ht) hu
    · obtain ⟨ts, hts, rfl⟩ := map_eq_ok.1 h
      exact Term.forall_reduce hmerge halways (List.forall_mem_append.2 ⟨hss, hright ts hts⟩)
  induction p generalizing negated ts with
  | always =>
    cases negated <;> cases h
    · simpa using halways
    · simp
  | never =>
    cases negated <;> cases h
    · simp
    · simpa using halways
  | not a ih => exact ih hp h
  | and a b iha ihb | or a b iha ihb =>
    obtain ⟨left, hl, h⟩ := bind_eq_ok.1 h
    exact hcombine (iha hp.1 hl) (fun _ hr ↦ ihb hp.2 hr) h
  | bare | compare | isIn | between | isNull | test => exact hatom (by trivial) hp h

end Predicate

/-! ## Proper terms -/

/-- The value set is a demand on an attribute, and it leaves out some of its values. -/
structure ValueSet.ProperDemand (r : Reading ctx) (a : String) (vs : ValueSet) : Prop where
  demand : vs.Demand r a
  proper : ∀ full, ctx.full? a = some full → ¬ (vs == full) = true

/-- A part of the values is all of them only if the whole is. -/
theorem ValueSet.ProperDemand.inter {a : String} {us vs : ValueSet} (hus : us.ProperDemand r a)
    (hvs : vs.ProperDemand r a) (h : ¬ (us.inter vs).isEmpty = true) :
    (us.inter vs).ProperDemand r a := by
  refine ⟨hus.demand.inter hvs.demand h, fun full hfull hall ↦ hus.proper full hfull ?_⟩
  obtain ⟨full', hfull', hshape⟩ := hus.demand.full
  cases hfull.symm.trans hfull'
  rw [beq_iff hshape]
  refine fun v ↦ ⟨hus.demand.within full hfull v, fun hv ↦ ?_⟩
  rw [← mem_congr hall, mem_inter (hus.demand.sameShape hvs.demand)] at hv
  exact hv.1

/-- The same values are a proper demand however they are spelled. -/
theorem ValueSet.ProperDemand.congr {a : String} {us vs : ValueSet} (hvs : vs.ProperDemand r a)
    (h : (us == vs) = true) (hw : us.Writable r a) : us.ProperDemand r a := by
  have hmem := mem_congr h
  obtain ⟨full, hfull, hshape⟩ := hvs.demand.full
  refine ⟨⟨⟨full, hfull, (sameShape_of_beq h).trans hshape⟩, ?_, ?_, hw⟩, ?_⟩
  · exact fun full hfull v hv ↦ hvs.demand.within full hfull v ((hmem v).1 hv)
  · obtain ⟨v, hv⟩ := hvs.demand.nonempty
    exact ⟨v, (hmem v).2 hv⟩
  · exact fun full hfull hall ↦ hvs.proper full hfull (BEq.trans (BEq.symm h) hall)

/-- A proper demand leaves out a value of the attribute. -/
theorem ValueSet.ProperDemand.exists_not_mem {a : String} {vs full : ValueSet}
    (hvs : vs.ProperDemand r a) (hfull : ctx.full? a = some full) :
    ∃ w, full.Mem w ∧ ¬ vs.Mem w := by
  obtain ⟨full', hfull', hshape⟩ := hvs.demand.full
  cases hfull.symm.trans hfull'
  have hproper := hvs.proper full hfull
  rw [beq_iff hshape, not_forall] at hproper
  obtain ⟨w, hw⟩ := hproper
  have hwithin := hvs.demand.within full hfull w
  exact ⟨w, by tauto, by tauto⟩

namespace Term

/-- All constraints are demands that leave something out. -/
def Proper (r : Reading ctx) (t : Term) : Prop := ∀ c ∈ t.constraints, c.2.ProperDemand r c.1

variable {s t u : Term}

theorem proper_always : always.Proper r := fun _ hc ↦ absurd hc List.not_mem_nil

theorem Proper.conjoin? (hs : s.Proper r) (ht : t.Proper r) (h : s.conjoin? t = some u) :
    u.Proper r :=
  forall_conjoin? (fun hus hvs hne ↦ hus.inter hvs hne) hs ht h

theorem Proper.merge? (hs : s.Proper r) (ht : t.Proper r) (h : merge? ctx.full? s t = some u) :
    u.Proper r := by
  refine forall_merge? (fun {a us vs} hus hvs hne ↦ ?_) hs ht h
  refine ⟨hus.demand.union hvs.demand, fun full hfull heq ↦ hne ?_⟩
  rw [hfull, Option.some_beq_some]
  exact BEq.symm heq

end Term

namespace Predicate

/-- **The constraints of an expansion leave something out.** -/
theorem proper_expand (p : Predicate) {negated : Bool} {ts : List Term}
    (hknows : p.AllAtoms r.Knows) (h : p.expand ctx negated = .ok ts) : ∀ t ∈ ts, t.Proper r := by
  refine forall_expand Term.proper_always ?_ Term.Proper.conjoin? Term.Proper.merge? p hknows h
  intro atom negated ts hatom hknows h
  have hdemands := fun t ht ↦ ((expandAtom_spec hatom hknows h).1 t ht).constraints.demands
  suffices hproper : ∀ t ∈ ts, ∀ c ∈ t.constraints, ∀ full, ctx.full? c.1 = some full →
      ¬ (c.2 == full) = true from fun t ht c hc ↦ ⟨hdemands t ht c hc, hproper t ht c hc⟩
  refine forall_expandAtom (List.forall_mem_nil _) ?_ (fun _ _ ↦ List.forall_mem_nil _) h
  intro a full vs _ _ hfull _ _ hne
  refine List.forall_mem_singleton.2 fun full' hfull' ↦ ?_
  cases hfull.symm.trans hfull'
  exact hne

end Predicate

end RuleCoverage
