import RuleCoverage.Proofs.NormalForm.Alternatives
import RuleCoverage.Proofs.NormalForm.Proper

/-!
# Expansions that lose no weight

What a predicate is expanded into weighs no more than the predicate.  If it weighs as much, then
nothing was dropped on the way, and two terms were merged only if the merged one weighs as much as
they did.  So whatever is true of the terms of atoms and kept by such steps is true of the expansion
(`Predicate.weighsWithin_expand`); a property of this sort is `Term.Conserved`.
-/

set_option autoImplicit false

namespace RuleCoverage

variable {ctx : Interpretation} {r : Reading ctx} {w : Weighting}

namespace Term

variable {K Ka Kb : List Term → Prop} {m n : Nat} {ss ts us : List Term}

/-- The terms weigh less than `n`, or they weigh `n` at most and have a property. -/
def WeighsWithin (w : Weighting) (n : Nat) (K : List Term → Prop) (ts : List Term) : Prop :=
  totalWeight w ts < n ∨ (totalWeight w ts ≤ n ∧ K ts)

theorem WeighsWithin.le (h : WeighsWithin w n K ts) : totalWeight w ts ≤ n :=
  h.elim Nat.le_of_lt And.left

theorem weighsWithin_nil (hn : 1 ≤ n) : WeighsWithin w n K [] := .inl hn

/-- Terms in good order, whose constraints leave something out. -/
def AllProper (r : Reading ctx) (ts : List Term) : Prop :=
  ∀ t ∈ ts, t.Valid r ∧ t.Proper r

theorem AllProper.valid (h : AllProper r ts) : AllValid r ts := fun t ht ↦ (h t ht).1

theorem allProper_append : AllProper r (ss ++ ts) ↔ AllProper r ss ∧ AllProper r ts :=
  List.forall_mem_append

/-- A property of lists of terms, given the atoms that these come from, that is kept wherever no
weight is lost. -/
structure Conserved (r : Reading ctx) (w : Weighting)
    (K : List Predicate → List Term → Prop) : Prop where
  merge : ∀ {A us s t rest m}, us.Perm (s :: t :: rest) → AllProper r us →
    merge? ctx.full? s t = some m → m.Proper r → s.weight w + t.weight w ≤ m.weight w → K A us →
      K A (rest ++ [m])
  append : ∀ {A B ss ts}, K A ss → K B ts → K (A ++ B) (ss ++ ts)
  conjunctions : ∀ {A B ss ts}, AllProper r ss → AllProper r ts → ss ≠ [] → ts ≠ [] →
    totalWeight w ss * totalWeight w ts ≤ totalWeight w (conjunctions ss ts) → K A ss → K B ts →
      K (A ++ B) (conjunctions ss ts)

/-- **Reducing stays within a weight.** -/
theorem weighsWithin_reduce {K : List Predicate → List Term → Prop} (hK : Conserved r w K)
    {A : List Predicate} (hts : AllProper r ts) (h : WeighsWithin w n (K A) ts) :
    WeighsWithin w n (K A) (reduce ctx.full? ts) := by
  have hdrop : ∀ {us vs}, us.Sublist vs → AllProper r vs ∧ WeighsWithin w n (K A) vs →
      AllProper r us ∧ WeighsWithin w n (K A) us := by
    rintro us vs hsub ⟨hvs, h⟩
    refine ⟨fun t ht ↦ hvs t (hsub.subset ht), ?_⟩
    rcases eq_or_totalWeight_lt (w := w) hvs.valid hsub with rfl | hlt
    · exact h
    · exact .inl (Nat.lt_of_lt_of_le hlt h.le)
  refine (reduce_induction (Q := fun us ↦ AllProper r us ∧ WeighsWithin w n (K A) us)
    (hdrop (Distinct.dedup_sublist _)) ?_ (hdrop (prune_sublist [] _)) ?_ ⟨hts, h⟩).2
  · rintro us s t rest m hperm hm ⟨hus, h⟩
    have hall : AllProper r (s :: t :: rest) := fun u hu ↦ hus u (hperm.mem_iff.2 hu)
    obtain ⟨hs, hsp⟩ := hall s (by simp)
    obtain ⟨ht, htp⟩ := hall t (by simp)
    have hmp := hsp.merge? htp hm
    have hmw := weight_merge? (w := w) hs ht hm
    refine ⟨allProper_append.2 ⟨fun u hu ↦ hall u (by simp [hu]),
      List.forall_mem_singleton.2 ⟨hs.merge? ht hm, hmp⟩⟩, ?_⟩
    rw [WeighsWithin, totalWeight_perm hperm, totalWeight_cons, totalWeight_cons] at h
    rw [WeighsWithin, totalWeight_append, totalWeight_singleton]
    rcases h with hlt | ⟨hle, hKus⟩
    · exact .inl (by omega)
    by_cases hlost : m.weight w < s.weight w + t.weight w
    · exact .inl (by omega)
    · exact .inr ⟨by omega, hK.merge hperm hus hm hmp (Nat.not_lt.1 hlost) hKus⟩
  · rintro us hal ⟨hus, h⟩
    obtain ⟨t, ht, hal⟩ := List.any_eq_true.1 hal
    obtain rfl := eq_always hal
    exact hdrop (List.singleton_sublist.2 ht) ⟨hus, h⟩

theorem allProper_reduce (hts : AllProper r ts) : AllProper r (reduce ctx.full? ts) :=
  fun t ht ↦ ⟨allValid_reduce hts.valid t ht,
    forall_reduce Proper.merge? proper_always (fun u hu ↦ (hts u hu).2) t ht⟩

theorem allProper_conjunctions (hs : AllProper r ss) (ht : AllProper r ts) :
    AllProper r (conjunctions ss ts) := by
  intro u hu
  simp only [conjunctions, List.mem_flatMap, List.mem_filterMap] at hu
  obtain ⟨s, hsm, t, htm, hu⟩ := hu
  exact ⟨(hs s hsm).1.conjoin? (ht t htm).1 hu, (hs s hsm).2.conjoin? (ht t htm).2 hu⟩

theorem weighsWithin_conjunctions {K : List Predicate → List Term → Prop} (hK : Conserved r w K)
    {A B : List Predicate} (hm : 1 ≤ m) (hn : 1 ≤ n) (hss : AllProper r ss) (hts : AllProper r ts)
    (hs : WeighsWithin w m (K A) ss) (ht : WeighsWithin w n (K B) ts) :
    WeighsWithin w (m * n) (K (A ++ B)) (conjunctions ss ts) := by
  have hle : totalWeight w (conjunctions ss ts) ≤ totalWeight w ss * totalWeight w ts :=
    totalWeight_conjunctions
  by_cases hlost : totalWeight w (conjunctions ss ts) < m * n
  · exact .inl hlost
  have hprod := Nat.mul_le_mul hs.le ht.le
  have hnil : ss ≠ [] ∧ ts ≠ [] := by
    constructor
    · rintro rfl
      rw [totalWeight_nil, Nat.zero_mul] at hle
      have := Nat.mul_le_mul hm hn
      omega
    · rintro rfl
      rw [totalWeight_nil, Nat.mul_zero] at hle
      have := Nat.mul_le_mul hm hn
      omega
  refine .inr ⟨hle.trans hprod, ?_⟩
  rcases hs with hs | ⟨hs, hKs⟩
  · have := Nat.mul_lt_mul_of_lt_of_le hs ht.le hn
    omega
  rcases ht with ht | ⟨ht, hKt⟩
  · have := Nat.mul_lt_mul_of_le_of_lt hs ht hm
    omega
  exact hK.conjunctions hss hts hnil.1 hnil.2 (by omega) hKs hKt

theorem weighsWithin_append {K : List Predicate → List Term → Prop} (hK : Conserved r w K)
    {A B : List Predicate} (hs : WeighsWithin w m (K A) ss) (ht : WeighsWithin w n (K B) ts) :
    WeighsWithin w (m + n) (K (A ++ B)) (ss ++ ts) := by
  have hsle := hs.le
  have htle := ht.le
  rw [WeighsWithin, totalWeight_append]
  rcases hs with hs | ⟨hs, hKs⟩
  · exact .inl (by omega)
  rcases ht with ht | ⟨ht, hKt⟩
  · exact .inl (by omega)
  · exact .inr ⟨by omega, hK.append hKs hKt⟩

/-- Joining expansions stays within the weights of the parts, multiplied or added up. -/
theorem weighsWithin_combine {K : List Predicate → List Term → Prop} (hK : Conserved r w K)
    {A B : List Predicate} {conjunctive : Bool} {right : Unit → Except Error (List Term)}
    (hm : 1 ≤ m) (hn : 1 ≤ n) (hss : AllProper r ss) (hs : WeighsWithin w m (K A) ss)
    (hright : ∀ ts, right () = .ok ts → AllProper r ts ∧ WeighsWithin w n (K B) ts)
    (h : combine ctx conjunctive ss right = .ok us) :
    AllProper r us ∧ WeighsWithin w (if conjunctive then m * n else m + n) (K (A ++ B)) us := by
  rw [combine] at h
  cases conjunctive with
  | true =>
    simp only [if_true] at h ⊢
    split at h
    · cases h
      exact ⟨List.forall_mem_nil _, weighsWithin_nil (Nat.mul_le_mul hm hn)⟩
    · obtain ⟨ts, hr, rfl⟩ := map_eq_ok.1 h
      obtain ⟨hts, ht⟩ := hright ts hr
      have hall := allProper_conjunctions hss hts
      exact ⟨allProper_reduce hall,
        weighsWithin_reduce hK hall (weighsWithin_conjunctions hK hm hn hss hts hs ht)⟩
  | false =>
    simp only [Bool.false_eq_true, if_false] at h ⊢
    obtain ⟨ts, hr, rfl⟩ := map_eq_ok.1 h
    obtain ⟨hts, ht⟩ := hright ts hr
    have hall := allProper_append.2 ⟨hss, hts⟩
    exact ⟨allProper_reduce hall, weighsWithin_reduce hK hall (weighsWithin_append hK hs ht)⟩

end Term

namespace Predicate

/-- What an atom is read as is what the atoms of its class are read as. -/
theorem gives_of_expandAtom {ctx : Interpretation} {atom : Predicate} {a : String} {ws : ValueSet}
    {negated : Bool} (h : expandAtom ctx atom negated = .ok [.ofValues a ws]) :
    ctx.Gives (atom.tag, !negated) ws ∧ ∃ v, ws.Mem v := by
  rcases expandAtom_cases h with ⟨b, -, -, hts⟩ | ⟨b, full, vs, hn, hvs, hfull, -, hts⟩ |
    ⟨-, -, -, hts⟩
  · split at hts <;> cases hts
  · generalize hus : (if negated then vs.complement else vs).inter full = us at hts
    split at hts
    · cases hts
    rename_i hne
    split at hts
    · cases hts
    cases hts
    refine ⟨⟨atom, _, vs, full, rfl, hn, hvs, hfull, ?_⟩, ValueSet.nonempty_of_isEmpty hne⟩
    cases negated <;> exact hus
  · cases hts

/-- **An atom stays within the weight of its class.** -/
theorem weighsWithin_expandAtom {ctx' : Interpretation} {L : String → Prop}
    {K : List Term → Prop} {atom : Predicate} {negated : Bool} {ts : List Term}
    (hgives : ∀ {k ws}, ctx'.Gives k ws → ctx.Gives k ws)
    (halways : (∃ a, atom.named? = some a ∧ (ctx'.isMissing a = true ∨ ctx'.full? a ≠ none)) →
      K [.always])
    (hvalues : ∀ {a full}, atom.named? = some a → ctx'.full? a = some full → ∀ vs : ValueSet,
      K [.ofValues a ((if negated then vs.complement else vs).inter full)])
    (hliteral : ctx'.values? atom = .ok none → K [.ofLiteral ⟨atom, !negated⟩])
    (h : expandAtom ctx' atom negated = .ok ts) :
    Term.WeighsWithin (ctx.weighting L) ((ctx.weighting L).literal (atom.tag, !negated)) K ts := by
  have hpos := (ctx.weighting L).literal_pos (atom.tag, !negated)
  have halways' : K [.always] → Term.WeighsWithin (ctx.weighting L)
      ((ctx.weighting L).literal (atom.tag, !negated)) K [.always] := by
    refine fun hK ↦ .inr ⟨?_, hK⟩
    rwa [Term.totalWeight_singleton, Term.weight_always]
  rcases expandAtom_cases h with ⟨a, hn, hmissing, rfl⟩ | ⟨a, full, vs, hn, -, hfull, -, hts⟩ |
    ⟨hvs, -, -, rfl⟩
  · split
    · exact halways' (halways ⟨a, hn, .inl hmissing⟩)
    · exact Term.weighsWithin_nil hpos
  · have hK := hvalues hn hfull vs
    generalize (if negated then vs.complement else vs).inter full = ws at hts hK
    split at hts
    · exact hts ▸ Term.weighsWithin_nil hpos
    split at hts
    · exact hts ▸ halways' (halways ⟨a, hn, .inr (by rw [hfull]; exact Option.some_ne_none full)⟩)
    subst hts
    obtain ⟨hg, v, hv⟩ := gives_of_expandAtom h
    refine .inr ⟨?_, hK⟩
    rw [Term.totalWeight_singleton, Term.weight_ofValues, Interpretation.weighting_literal,
      (hgives hg).classAlternatives_eq]
    exact (Interpretation.weighting_values_le a hv).trans
      (Nat.mul_le_mul_left 2 (Nat.le_max_right ..))
  · refine .inr ⟨?_, hliteral hvs⟩
    rw [Term.totalWeight_singleton, Term.weight_ofLiteral]
    exact le_rfl

variable {S P : Predicate → Prop} [DecidablePred S] {K : List Predicate → List Term → Prop}
  {ts : List Term} {negated : Bool}

theorem allProper_expand (hknows : ∀ p, r.Knows p) (p : Predicate)
    (h : p.expand ctx negated = .ok ts) : Term.AllProper r ts := by
  have hk : p.AllAtoms r.Knows := p.allAtoms_iff.2 fun a _ _ ↦ hknows a
  exact fun t ht ↦ ⟨(expand_spec p hk h).1 t ht, proper_expand p hk h t ht⟩

section Expand

variable
  (hatom : ∀ {atom : Predicate} {negated ts}, atom.IsAtom → P atom →
    expandAtom ctx atom negated = .ok ts →
      Term.WeighsWithin w (w.literal (atom.tag, !negated)) (K [atom]) ts)
  (hsole : ∀ {p : Predicate} {negated ts}, S p → p.AllAtoms P → p.expand ctx negated = .ok ts →
    Term.WeighsWithin w 1 (K p.atoms) ts)

include hsole in
/-- A predicate about a sole attribute stays within its weight, so only others need a look. -/
theorem weighsWithin_unless_sole {p : Predicate} (hp : p.AllAtoms P)
    (h : p.expand ctx negated = .ok ts)
    (hother : ¬ S p → Term.WeighsWithin w (p.weight w S negated) (K p.atoms) ts) :
    Term.WeighsWithin w (p.weight w S negated) (K p.atoms) ts := by
  by_cases hs : S p
  · rw [weight_of_sole hs]
    exact hsole hs hp h
  · exact hother hs

include hatom hsole in
theorem weighsWithin_expand_of_isAtom {atom : Predicate} (hisAtom : atom.IsAtom)
    (hatoms : atom.atoms = [atom]) (hp : atom.AllAtoms P) (h : atom.expand ctx negated = .ok ts) :
    Term.WeighsWithin w (atom.weight w S negated) (K atom.atoms) ts := by
  refine weighsWithin_unless_sole hsole hp h fun hs ↦ ?_
  rw [hisAtom.weight_eq_of_not_sole hs, hatoms]
  refine hatom hisAtom (hisAtom.allAtoms_iff.1 hp) ?_
  cases atom <;> first | exact hisAtom.elim | exact h

include hatom hsole in
/-- **An expansion stays within the weight of the predicate**, and whatever is conserved is true of
it, unless it weighs less. -/
theorem weighsWithin_expand (hK : Term.Conserved r w K) (halways : K [.always] [.always])
    (hnever : K [.never] [.always]) (hknows : ∀ p, r.Knows p) (p : Predicate) (hp : p.AllAtoms P)
    (h : p.expand ctx negated = .ok ts) :
    Term.WeighsWithin w (p.weight w S negated) (K p.atoms) ts := by
  induction p generalizing negated ts with
  | always =>
    cases negated <;> cases h
    · exact .inr ⟨le_rfl, halways⟩
    · exact Term.weighsWithin_nil le_rfl
  | never =>
    cases negated <;> cases h
    · exact Term.weighsWithin_nil le_rfl
    · exact .inr ⟨le_rfl, hnever⟩
  | not a ih =>
    refine weighsWithin_unless_sole hsole hp h fun hs ↦ ?_
    rw [weight, if_neg hs]
    exact ih hp h
  | and a b iha ihb | or a b iha ihb =>
    refine weighsWithin_unless_sole hsole hp h fun hs ↦ ?_
    obtain ⟨left, hl, h⟩ := bind_eq_ok.1 h
    have hjoined := (Term.weighsWithin_combine hK (one_le_weight a negated)
      (one_le_weight b negated) (allProper_expand hknows a hl) (iha hp.1 hl)
      (fun _ hr ↦ ⟨allProper_expand hknows b hr, ihb hp.2 hr⟩) h).2
    rw [weight, if_neg hs]
    cases negated <;> exact hjoined
  | bare | compare | isIn | between | isNull | test =>
    exact weighsWithin_expand_of_isAtom hatom hsole trivial rfl hp h

end Expand

end Predicate

end RuleCoverage
