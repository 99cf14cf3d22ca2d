import RuleCoverage.Proofs.NormalForm.EqualAtoms
import RuleCoverage.Proofs.NormalForm.RoundTrip.Inferred
import RuleCoverage.Proofs.NormalForm.Weights

/-!
# Predicates about one attribute

A predicate all of whose atoms are on one attribute and say something about its values is a demand
on this attribute, however it is put together: it is expanded into one term at most, and the term
has no literals (`Predicate.expand_cases_of_saysOf`).  The predicate that a demand is written as is
of this sort (`ValueSet.allAtoms_saysOf`).
-/

set_option autoImplicit false

namespace RuleCoverage

variable {ctx : Interpretation} {r : Reading ctx} {a : String} {k : Kind} {p atom : Predicate}
  {ts : List Term} {negated : Bool}

namespace Predicate

/-- The atom is on an attribute, and it says something about the values of a kind. -/
structure SaysOf (a : String) (k : Kind) (atom : Predicate) : Prop where
  named : atom.named? = some a
  meaning : ∃ m, atom.meaning? k = some m

/-- An atom that says something about the kind of its attribute is not opaque. -/
theorem SaysOf.values?_ne (h : atom.SaysOf a k) (hk : ctx.kind? a = some k) :
    ctx.values? atom ≠ .ok none := by
  intro hvs
  obtain ⟨m, hm⟩ := h.meaning
  cases hm.symm.trans (Interpretation.meaning?_eq_none h.named hk hvs)

end Predicate

/-! ## What is written -/

theorem Interpretation.said {b : String} {l : Kind} (hk : ctx.kind? a = some k)
    (h : ∃ m, atom.meaning? k = some m) (hn : some a = some b) (hl : ctx.kind? b = some l) :
    ∃ m, atom.meaning? l = some m := by
  cases hn
  cases hk.symm.trans hl
  exact h

/-- The feature that has no attributes, as far as the atoms are concerned that say something about
the kinds of their attributes. -/
def Interpretation.blankSaid (hctx : ctx.Plain) : Reading ctx :=
  { blank hctx with
    Knows := fun atom ↦ ∀ a k, atom.named? = some a → ctx.kind? a = some k →
      ∃ m, atom.meaning? k = some m
    truth_of_isMissing := fun _ ↦ (blank hctx).truth_of_isMissing trivial
    truth_of_values := fun _ ↦ (blank hctx).truth_of_values trivial
    compares_values := fun _ ↦ (blank hctx).compares_values trivial
    truth_congr := fun _ _ ↦ (blank hctx).truth_congr trivial trivial
    knows_isNull := fun _ _ _ _ _ ↦ ⟨_, rfl⟩
    knows_compare := fun hk _ _ ↦ fun _ _ ↦ said hk ⟨_, rfl⟩
    knows_isIn := fun hk vs hvs _ _ ↦ said hk <| Predicate.exists_meaning?_isIn fun s hs ↦ by
      obtain ⟨x, rfl⟩ := hvs s hs
      exact ⟨x, rfl⟩
    knows_between := fun hk _ _ _ _ ↦ fun _ _ ↦ said hk ⟨_, rfl⟩
    truth_eq := fun hk hnum hs ↦
      ⟨fun _ _ ↦ said hk ⟨_, Predicate.meaning?_eq hnum (hs _ hk).fits⟩,
        ((blank hctx).truth_eq hk hnum hs).2⟩
    truth_ne := fun hk hnum hs ↦
      ⟨fun _ _ ↦ said hk ⟨_, Predicate.meaning?_ne hnum (hs _ hk).fits⟩,
        ((blank hctx).truth_ne hk hnum hs).2⟩
    truth_isIn := fun hk hnum hvs ↦
      ⟨fun _ _ ↦ said hk ⟨_, Predicate.meaning?_isIn hnum fun s hs ↦ (hvs s hs _ hk).fits⟩,
        ((blank hctx).truth_isIn hk hnum hvs).2⟩ }

/-- **The predicate that a demand is written as is about its attribute alone.** -/
theorem ValueSet.allAtoms_saysOf {vs : ValueSet} (hctx : ctx.Plain) (hk : ctx.kind? a = some k)
    (hd : vs.Demand (Interpretation.blank hctx) a) :
    (vs.toPredicate ctx a).AllAtoms (Predicate.SaysOf a k) := by
  have hd' : vs.Demand (Interpretation.blankSaid hctx) a :=
    ⟨hd.full, hd.within, hd.nonempty, hd.writable⟩
  have hsaid := (Predicate.allAtoms_iff _).1 (ValueSet.writes_toPredicate hd').1
  have hon := (Predicate.allAtoms_iff _).1 (allAtoms_concerns hd.full)
  refine (Predicate.allAtoms_iff _).2 fun atom hatom hisAtom ↦ ?_
  have hn := (hon atom hatom hisAtom).named
  exact ⟨hn, hsaid atom hatom hisAtom a k hn hk⟩

/-! ## What is read -/

namespace Predicate

section read

variable (hk : ctx.kind? a = some k) (hp : p.AllAtoms (SaysOf a k))
include hk hp

/-- The terms have no literals. -/
theorem literals_of_saysOf (h : p.expand ctx negated = .ok ts) :
    ∀ t ∈ ts, t.literals.toList = [] := by
  intro t ht
  refine List.eq_nil_iff_forall_not_mem.2 (forall_expand
    (P := fun t ↦ ∀ l ∈ t.literals.toList, False) (List.forall_mem_nil _) ?_
    Term.forall_literals_conjoin? Term.forall_literals_merge? p hp h t ht)
  intro atom negated ts _ hatom h
  exact forall_expandAtom (List.forall_mem_nil _) (fun _ _ _ _ _ _ ↦ List.forall_mem_nil _)
    (fun hvs _ ↦ absurd hvs (hatom.values?_ne hk)) h

/-- Each term demands nothing or a value of the attribute. -/
theorem eq_always_or_ofValues (hvalid : Term.AllValid r ts) (h : p.expand ctx negated = .ok ts) :
    ∀ t ∈ ts, t = .always ∨ ∃ vs, t = .ofValues a vs := by
  have hwithin : p.AllAtoms (Within (· = a)) :=
    hp.imp fun atom h b hb ↦ Option.some.inj (hb.symm.trans h.named)
  intro t ht
  have hls := literals_of_saysOf hk hp h t ht
  have hcs := within_expand hwithin h t ht
  have hascending := (hvalid t ht).constraints.ascending
  obtain ⟨cs, ⟨ls, hdistinct⟩⟩ := t
  obtain rfl : ls = [] := hls
  cases cs with
  | nil => exact .inl rfl
  | cons c cs =>
    obtain ⟨b, vs⟩ := c
    obtain ⟨rfl, hcs⟩ := List.forall_mem_cons.1 hcs
    cases cs with
    | nil => exact .inr ⟨vs, rfl⟩
    | cons d cs =>
      have hlt := (List.pairwise_cons.1 hascending).1 d List.mem_cons_self
      rw [show d.1 = b from hcs d List.mem_cons_self] at hlt
      exact absurd hlt (String.lt_irrefl b)

/-- **A predicate about one attribute is expanded into one term at most.** -/
theorem expand_cases_of_saysOf (hknows : p.AllAtoms r.Knows) (h : p.expand ctx negated = .ok ts) :
    ts = [] ∨ ts = [.always] ∨ ∃ vs, ts = [.ofValues a vs] := by
  have hvalid := (expand_spec p hknows h).1
  have hshape := eq_always_or_ofValues hk hp hvalid h
  have hreduced := reduced_expand p hknows h
  match ts with
  | [] => exact .inl rfl
  | [t] =>
    rcases hshape t (List.mem_singleton_self t) with rfl | ⟨vs, rfl⟩
    · exact .inr (.inl rfl)
    · exact .inr (.inr ⟨vs, rfl⟩)
  | s :: t :: rest =>
    exfalso
    have hvalues : ∀ u ∈ s :: t :: rest, ∃ vs, u = .ofValues a vs := by
      refine fun u hu ↦ (hshape u hu).resolve_left ?_
      rintro rfl
      cases hreduced.always _ hu rfl
    obtain ⟨us, rfl⟩ := hvalues s (by simp)
    obtain ⟨vs, rfl⟩ := hvalues t (by simp)
    -- two demands on one attribute could be merged
    have hapart := (List.pairwise_cons.1 hreduced.apart).1 _ List.mem_cons_self
    by_cases heq : (us == vs) = true
    · refine hapart.not_implies (Term.implies_of_beq (hvalid _ (by simp)).orderly
        (hvalid _ (by simp)).orderly ?_)
      show ((a == a && us == vs) && true && true) = true
      rw [heq, beq_self_eq_true]
      rfl
    · refine hapart.not_mergeable (.inl ⟨rfl, rfl, ?_⟩)
      rw [if_neg heq]
      rfl

/-- The terms of a predicate about one attribute weigh one if the demands on the attribute do. -/
theorem totalWeight_expand_le_one {w : Weighting} (hw : ∀ vs, w.values a vs = 1)
    (hknows : p.AllAtoms r.Knows) (h : p.expand ctx negated = .ok ts) :
    Term.totalWeight w ts ≤ 1 := by
  rcases expand_cases_of_saysOf hk hp hknows h with rfl | rfl | ⟨vs, rfl⟩
  · exact Nat.zero_le 1
  · rw [Term.totalWeight_singleton, Term.weight_always]
  · rw [Term.totalWeight_singleton, Term.weight_ofValues, hw]

end read

end Predicate

end RuleCoverage
