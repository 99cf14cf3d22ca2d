import RuleCoverage.Proofs.NormalForm.WellFormed

/-!
# The rounds of a reduction

A reduction goes round by round until there is nothing to do, or until a term turns up that always
holds.  `Term.rounds?` are as many rounds as are needed, up to a limit.  A round that does something
leaves fewer terms, so one round more than there are terms is enough, and what the rounds end with
is what `Term.reduce` returns.

On well-formed terms that is a list of the same meaning in which each term stands for something of
its own (`Term.Unrelated`), so that neither the list nor any part of it is reduced any further.

## What is here

* `Term.rounds?_eq_reduceRounds` — the rounds end, and with what.
* `Term.reduce_wellFormed` — what the end of a reduction is like.
-/

set_option autoImplicit false

namespace RuleCoverage

namespace Term

variable {ctx : Interpretation} {full? : String → Option ValueSet} {s t : Term} {ts us : List Term}

/-! ## Rounds -/

/-- Rounds until there is nothing to do; none if the limit does not suffice for that. -/
def rounds? (full? : String → Option ValueSet) : (limit : Nat) → List Term → Option (List Term)
  | 0, _ => none
  | limit + 1, ts =>
    if ts.any isAlways then some [always]
    else match round? full? ts with
      | some us => rounds? full? limit us
      | none => some ts

/-- **One round more than there are terms is enough.** -/
theorem rounds?_eq_reduceRounds {limit : Nat} (h : ts.length < limit) :
    rounds? full? limit ts = some (reduceRounds full? ts) := by
  induction limit generalizing ts with
  | zero => exact absurd h (Nat.not_lt_zero _)
  | succ limit ih =>
    rw [rounds?, reduceRounds_eq]
    split
    · rfl
    cases hround : round? full? ts with
    | none => rfl
    | some us =>
      have := length_round? hround
      exact ih (by omega)

theorem rounds?_dedup (full? : String → Option ValueSet) (ts : List Term) :
    rounds? full? (ts.length + 1) (dedup ts) = some (reduce full? ts) :=
  rounds?_eq_reduceRounds (Nat.lt_succ_of_le (length_dedup_le ts))

/-! ## Unrelated terms -/

/-- The terms are different, neither is redundant beside the other one, and they cannot be merged in
either order. -/
structure Unrelated (full? : String → Option ValueSet) (s t : Term) : Prop where
  ne : (s == t) = false
  not_implies : s.implies t = false
  not_implied : t.implies s = false
  not_merged : merge? full? s t = none
  not_merged' : merge? full? t s = none

theorem Apart.unrelated (hs : s.Orderly ctx) (ht : t.Orderly ctx) (h : Apart s t) :
    Unrelated full? s t where
  ne := Bool.eq_false_iff.2 fun heq ↦ h.not_implies (implies_of_beq hs ht heq)
  not_implies := Bool.eq_false_iff.2 h.not_implies
  not_implied := Bool.eq_false_iff.2 h.not_implied
  not_merged := by
    rw [← Option.not_isSome_iff_eq_none, isSome_merge?_iff hs ht]
    exact h.not_mergeable
  not_merged' := by
    rw [← Option.not_isSome_iff_eq_none, isSome_merge?_iff ht hs]
    exact h.symm.not_mergeable

/-- A reduced list of well-formed terms: the term that always holds, or unrelated terms. -/
theorem Reduced.eq_or_unrelated (h : Reduced ts) (hts : ∀ t ∈ ts, t.Orderly ctx) :
    ts = [Term.always] ∨ (∀ t ∈ ts, t.isAlways = false) ∧ ts.Pairwise (Unrelated full?) := by
  by_cases halways : ∃ t ∈ ts, t.isAlways = true
  · obtain ⟨t, ht, hal⟩ := halways
    exact .inl (h.always t ht hal)
  · refine .inr ⟨fun t ht ↦ Bool.eq_false_iff.2 fun hal ↦ halways ⟨t, ht, hal⟩, ?_⟩
    exact h.apart.imp_of_mem fun hs ht hst ↦ hst.unrelated (hts _ hs) (hts _ ht)

/-- **A reduction comes to an end, keeps the meaning, and leaves nothing to reduce**: after at most
one round more than there are terms there is the term that always holds or a list of unrelated
terms, and that list and its parts are reduced already. -/
theorem reduce_wellFormed (hts : ∀ t ∈ ts, t.WellFormed ctx) :
    rounds? ctx.full? (ts.length + 1) (dedup ts) = some (reduce ctx.full? ts) ∧
      (∀ t ∈ reduce ctx.full? ts, t.WellFormed ctx) ∧
      (∀ ν : Valuation ctx, (∃ t ∈ reduce ctx.full? ts, ν.Satisfies t) ↔ ∃ t ∈ ts, ν.Satisfies t) ∧
      (reduce ctx.full? ts = [always] ∨ (∀ t ∈ reduce ctx.full? ts, t.isAlways = false) ∧
        (reduce ctx.full? ts).Pairwise (Unrelated ctx.full?)) ∧
      ∀ us, us.Sublist (reduce ctx.full? ts) → reduce ctx.full? us = us := by
  obtain ⟨ν₀⟩ := Valuation.nonempty ctx
  have hmeaning := isMeaning_satisfies ν₀
  have hwf := (hmeaning.reduce_spec hts).1
  have horderly : ∀ t ∈ reduce ctx.full? ts, t.Orderly ctx := fun t ht ↦ (hwf t ht).orderly
  have hreduced := hmeaning.reduced_reduce hts
  refine ⟨rounds?_dedup ctx.full? ts, hwf, fun ν ↦ ((isMeaning_satisfies ν).reduce_spec hts).2,
    hreduced.eq_or_unrelated horderly, fun us hus ↦ ?_⟩
  exact reduce_eq_self (fun t ht ↦ horderly t (hus.subset ht)) (hreduced.sublist hus)

/-- A deep river, a river that is not deep, and a deep canal: a river, or a deep canal. -/
theorem reduce_wellFormed_waters :
    let ctx := (Schema.ofCategories "class" (.ofList [.text "river", .text "canal"])).interpretation
    let river : ValueSet := .discrete (.only (.singleton (.text "river")))
    let canal : ValueSet := .discrete (.only (.singleton (.text "canal")))
    let deep : OpaqueLiteral := ⟨.test ⟨"is_deep", false, "deep"⟩, true⟩
    let ts : List Term := [⟨[("class", river)], .singleton deep⟩,
      ⟨[("class", river)], .singleton deep.negate⟩, ⟨[("class", canal)], .singleton deep⟩]
    (∀ t ∈ ts, t.WellFormed ctx) ∧
      reduce ctx.full? ts = [⟨[("class", canal)], .singleton deep⟩, ⟨[("class", river)], ∅⟩] ∧
      ∀ us, us.Sublist (reduce ctx.full? ts) → reduce ctx.full? us = us := by
  intro ctx river canal deep ts
  have hriver : river.Restricts ctx "class" := ⟨rfl, _, rfl, rfl, rfl, rfl⟩
  have hcanal : canal.Restricts ctx "class" := ⟨rfl, _, rfl, rfl, rfl, rfl⟩
  have hts : ∀ t ∈ ts, t.WellFormed ctx := by
    simp only [ts, List.forall_mem_cons, List.not_mem_nil, IsEmpty.forall_iff, implies_true,
      and_true]
    exact ⟨wellFormed_pair hriver trivial, wellFormed_pair hriver trivial,
      wellFormed_pair hcanal trivial⟩
  obtain ⟨hrounds, -, -, -, hparts⟩ := reduce_wellFormed hts
  exact ⟨hts, Option.some.inj (hrounds.symm.trans rfl), hparts⟩

end Term

end RuleCoverage
