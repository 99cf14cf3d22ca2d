import RuleCoverage.Proofs.NormalForm.Irreducible
import RuleCoverage.Proofs.NormalForm.Proper

/-!
# Predicates that are read as one term

A predicate that was written from a term is read as one term again (`Predicate.ReadsAs`).  What is
said here is how such predicates may be joined:

* conjunctions of them are read as the conjunction of the terms (`Predicate.readsAs_conjunction`);
* disjunctions of disjoint demands on one attribute are read as the demand for the union
  (`Predicate.readsAs_foldl_or`);
* disjunctions of terms to which nothing can be done are read as the list of the terms
  (`Predicate.expand_disjunction`).
-/

set_option autoImplicit false

namespace RuleCoverage

variable {ctx : Interpretation} {r : Reading ctx}

/-! ## Lists of one or two terms -/

namespace Term

variable {full? : String → Option ValueSet} {s t u : Term} {a : String} {us vs : ValueSet}

theorem reduceRounds_singleton (t : Term) : reduceRounds full? [t] = [t] := by
  rw [reduceRounds_eq]
  split
  · rename_i hal
    rw [List.any_cons, List.any_nil, Bool.or_false] at hal
    rw [eq_always hal]
  · have hprune : prune [] [t] = [t] := by simp [prune]
    have hround : round? full? [t] = none := by
      rw [round?_of_prune_eq hprune]
      simp [mergeAny?, mergeWith?]
    rw [hround]

theorem dedup_singleton (t : Term) : dedup [t] = [t] := rfl

/-- There is nothing to do to a single term. -/
theorem reduce_singleton (t : Term) : reduce full? [t] = [t] := reduceRounds_singleton t

theorem implies_ofValues : (ofValues a us).implies (ofValues a vs) = us.subset vs := by
  have hsubset : (∅ : Distinct OpaqueLiteral).subset ∅ = true := rfl
  simp [implies, ofValues, Dictionary.get?, hsubset]

/-- Demands for different values of one attribute are merged. -/
theorem merge?_ofValues (h : ¬ (us == vs) = true)
    (hproper : ¬ (full? a == some (us.union vs)) = true) :
    merge? full? (ofValues a us) (ofValues a vs) = some (ofValues a (us.union vs)) := by
  have hls : ((∅ : Distinct OpaqueLiteral) == ∅) = true := rfl
  rw [merge?, ofValues, ofValues, if_pos hls, mergeValues?_cons, if_neg (not_not.2 rfl), if_neg h,
    if_pos (by rfl), if_neg hproper]
  rfl

end Term

/-- No value is in both of the sets. -/
def ValueSet.Disjoint (us vs : ValueSet) : Prop := ∀ v, us.Mem v → ¬ vs.Mem v

namespace ValueSet

variable {a : String} {us vs ws full : ValueSet}

theorem Disjoint.symm (h : us.Disjoint vs) : vs.Disjoint us := fun v hv hu ↦ h v hu hv

/-- Of disjoint demands none contains the other one. -/
theorem Demand.not_subset (hu : us.Demand r a) (hv : vs.Demand r a) (h : us.Disjoint vs) :
    ¬ us.subset vs = true := by
  rw [subset_iff (hu.sameShape hv)]
  obtain ⟨v, hmem⟩ := hu.nonempty
  exact fun hall ↦ h v hmem (hall v hmem)

end ValueSet

namespace Term

variable {a : String} {us vs : ValueSet}

/-- **Disjoint demands on one attribute become one demand**, unless together they allow all. -/
theorem reduce_ofValues (hu : us.Demand r a) (hv : vs.Demand r a) (h : us.Disjoint vs)
    (hproper : ¬ (ctx.full? a == some (us.union vs)) = true) :
    reduce ctx.full? [ofValues a us, ofValues a vs] = [ofValues a (us.union vs)] := by
  have himplies : ¬ (ofValues a us).implies (ofValues a vs) = true := by
    rw [implies_ofValues]
    exact hu.not_subset hv h
  have himplied : ¬ (ofValues a vs).implies (ofValues a us) = true := by
    rw [implies_ofValues]
    exact hv.not_subset hu h.symm
  have hne : ¬ (us == vs) = true := fun heq ↦ by
    obtain ⟨v, hmem⟩ := hu.nonempty
    exact h v hmem ((ValueSet.mem_congr heq v).1 hmem)
  have hdedup : dedup [ofValues a us, ofValues a vs] = [ofValues a us, ofValues a vs] := by
    refine Distinct.toList_ofList (List.pairwise_pair.2 (Bool.eq_false_iff.2 fun heq ↦ himplies ?_))
    exact implies_of_beq (valid_ofValues hu).orderly (valid_ofValues hv).orderly heq
  have hprune : prune [] [ofValues a us, ofValues a vs] = [ofValues a us, ofValues a vs] := by
    simp [prune, himplies, himplied]
  have hmerge : mergeAny? ctx.full? [] [ofValues a us, ofValues a vs] =
      some [ofValues a (us.union vs)] := by
    simp [mergeAny?, mergeWith?, merge?_ofValues hne hproper, dedup_singleton]
  rw [reduce, hdedup, reduceRounds_eq, if_neg (by simp [ofValues, isAlways]),
    round?_of_prune_eq hprune, hmerge]
  exact reduceRounds_singleton _

end Term

/-! ## Conjunctions -/

namespace Term

variable {a : String} {us vs : ValueSet}

theorem always_conjoin?_ofValues : always.conjoin? (ofValues a vs) = some (ofValues a vs) := by
  refine conjoin?_eq_some.2 ⟨rfl, rfl, ?_⟩
  exact Bool.false_ne_true

theorem conjoin?_ofValues (h : ¬ (us.inter vs).isEmpty = true) :
    (ofValues a us).conjoin? (ofValues a vs) = some (ofValues a (us.inter vs)) := by
  refine conjoin?_eq_some.2 ⟨?_, rfl, Bool.false_ne_true⟩
  show (constrain? a vs [(a, us)] >>= fun cs ↦ some cs) = some [(a, us.inter vs)]
  rw [constrain?_cons, if_pos rfl, if_neg h]
  rfl

end Term

namespace Predicate

variable {p q : Predicate} {ps qs : List Predicate} {s t u : Term} {ts : List Term}

/-- The predicate is expanded into one term. -/
def ReadsAs (ctx : Interpretation) (p : Predicate) (t : Term) : Prop :=
  p.expand ctx false = .ok [t]

theorem readsAs_always : ReadsAs ctx .always .always := rfl

theorem readsAs_and (hp : ReadsAs ctx p s) (hq : ReadsAs ctx q t) (hu : s.conjoin? t = some u) :
    ReadsAs ctx (.and p q) u := by
  have hconj : Term.conjunctions [s] [t] = [u] := by simp [Term.conjunctions, hu]
  rw [ReadsAs] at hp hq ⊢
  rw [expand, hp]
  show Term.combine ctx (!false) [s] (fun _ ↦ expand ctx q false) = .ok [u]
  rw [hq, Term.combine]
  show Except.ok (Term.reduce ctx.full? (Term.conjunctions [s] [t])) = .ok [u]
  rw [hconj, Term.reduce_singleton]

theorem readsAs_foldl_and (hp : ReadsAs ctx p s) (h : List.Forall₂ (ReadsAs ctx) ps ts)
    (hu : ts.foldlM Term.conjoin? s = some u) : ReadsAs ctx (ps.foldl .and p) u := by
  induction h generalizing p s with
  | nil =>
    cases hu
    exact hp
  | @cons q t ps ts hq _ ih =>
    obtain ⟨v, hv, hu⟩ := Option.bind_eq_some_iff.1 hu
    exact ih (readsAs_and hp hq hv) hu

/-- **A conjunction of predicates that are read as terms is read as their conjunction.** -/
theorem readsAs_conjunction (h : List.Forall₂ (ReadsAs ctx) ps ts)
    (hfirst : ∀ t ∈ ts, Term.always.conjoin? t = some t)
    (hu : ts.foldlM Term.conjoin? .always = some u) : ReadsAs ctx (conjunction ps) u := by
  cases h with
  | nil =>
    cases hu
    exact readsAs_always
  | cons hp h =>
    rw [List.forall_mem_cons] at hfirst
    rw [List.foldlM_cons, hfirst.1] at hu
    exact readsAs_foldl_and hp h hu

/-! ## Disjunctions of demands on one attribute -/

section values

variable {a : String} {us vs : ValueSet} {vss : List ValueSet}

theorem readsAs_or (hp : ReadsAs ctx p (.ofValues a us)) (hq : ReadsAs ctx q (.ofValues a vs))
    (hu : us.Demand r a) (hv : vs.Demand r a) (h : us.Disjoint vs)
    (hproper : ¬ (ctx.full? a == some (us.union vs)) = true) :
    ReadsAs ctx (.or p q) (.ofValues a (us.union vs)) := by
  rw [ReadsAs] at hp hq ⊢
  rw [expand, hp]
  show Term.combine ctx false [.ofValues a us] (fun _ ↦ expand ctx q false) = _
  rw [hq, Term.combine]
  show Except.ok (Term.reduce ctx.full? [.ofValues a us, .ofValues a vs]) = _
  rw [Term.reduce_ofValues hu hv h hproper]

/-- **A disjunction of disjoint demands is read as the demand for all of their values**, as long as
some value is in none of them. -/
theorem readsAs_foldl_or {full : ValueSet} (hfull : ctx.full? a = some full)
    (hp : ReadsAs ctx p (.ofValues a us))
    (h : List.Forall₂ (fun q vs ↦ ReadsAs ctx q (.ofValues a vs)) ps vss)
    (hu : us.Demand r a) (hvss : ∀ vs ∈ vss, vs.Demand r a)
    (hdisjoint : (us :: vss).Pairwise ValueSet.Disjoint) {v : Option Value} (hv : full.Mem v)
    (hout : ∀ vs ∈ us :: vss, ¬ vs.Mem v) :
    ReadsAs ctx (ps.foldl .or p) (.ofValues a (vss.foldl ValueSet.union us)) := by
  induction h generalizing p us with
  | nil => exact hp
  | @cons q vs ps vss hq _ ih =>
    rw [List.forall_mem_cons] at hvss
    rw [List.forall_mem_cons, List.forall_mem_cons] at hout
    rw [List.pairwise_cons, List.forall_mem_cons, List.pairwise_cons] at hdisjoint
    obtain ⟨⟨huv, hurest⟩, hvrest, hrest⟩ := hdisjoint
    have hmem := ValueSet.mem_union (hu.sameShape hvss.1)
    have hproper : ¬ (ctx.full? a == some (us.union vs)) = true := by
      rw [hfull, Option.some_beq_some]
      intro heq
      exact ((hmem v).1 ((ValueSet.mem_congr heq v).1 hv)).elim hout.1 hout.2.1
    refine ih (readsAs_or hp hq hu hvss.1 huv hproper) (hu.union hvss.1) hvss.2 ?_ ?_
    · refine List.pairwise_cons.2 ⟨fun ws hws w hw ↦ ?_, hrest⟩
      exact ((hmem w).1 hw).elim (hurest ws hws w) (hvrest ws hws w)
    · exact List.forall_mem_cons.2 ⟨fun h ↦ ((hmem v).1 h).elim hout.1 hout.2.1, hout.2.2⟩

end values

/-! ## Disjunctions of terms -/

theorem expand_foldl_or {before : List Term} (hp : p.expand ctx false = .ok before)
    (h : List.Forall₂ (ReadsAs ctx) ps ts) (hvalid : Term.AllValid r (before ++ ts))
    (hreduced : Term.Reduced (before ++ ts)) :
    (ps.foldl .or p).expand ctx false = .ok (before ++ ts) := by
  induction h generalizing p before with
  | nil => rwa [List.append_nil]
  | @cons q t ps ts hq _ ih =>
    have happend : before ++ t :: ts = before ++ [t] ++ ts := by simp
    rw [happend] at hvalid hreduced ⊢
    refine ih ?_ hvalid hreduced
    rw [ReadsAs] at hq
    rw [expand, hp]
    show Term.combine ctx false before (fun _ ↦ expand ctx q false) = _
    rw [hq, Term.combine]
    show Except.ok (Term.reduce ctx.full? (before ++ [t])) = _
    rw [Term.reduce_eq_self (Term.allValid_append.1 hvalid).1.orderly
      (hreduced.sublist (List.sublist_append_left _ _))]

/-- **A disjunction of terms to which nothing can be done is read as the list of them.** -/
theorem expand_disjunction (h : List.Forall₂ (ReadsAs ctx) ps ts) (hvalid : Term.AllValid r ts)
    (hreduced : Term.Reduced ts) : (disjunction ps).expand ctx false = .ok ts := by
  cases h with
  | nil => rfl
  | @cons p t ps ts hp h =>
    have hfirst : p.expand ctx false = .ok [t] := hp
    have hall : (ps.foldl .or p).expand ctx false = .ok ([t] ++ ts) :=
      expand_foldl_or hfirst h hvalid hreduced
    exact hall

end Predicate

end RuleCoverage
