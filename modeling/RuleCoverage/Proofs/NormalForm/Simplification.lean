import RuleCoverage.NormalForm.Simplified
import RuleCoverage.Proofs.NormalForm.Rendering

/-!
# Simplification keeps the meaning

One pass of simplification gives a predicate that is true exactly when the given one is, whatever
the predicates are about (`Predicate.writes_simplifyOnce`).  What can be said of the result of a
simplification follows from what can be said of each pass, since the result is one of the predicates
that the passes went through.

* `Predicate.simplifyOnce_cases` — the three outcomes of a pass.
* `Predicate.settle_induction` — what every pass keeps is true of the result.
* `Predicate.settle_cases` — the result comes out of a pass, or equals what does.
-/

set_option autoImplicit false

namespace RuleCoverage

/-- A predicate is read against the schema that it is given. -/
theorem Interpretation.schema?_of {p : Predicate} {schema? : Option Schema} {ctx : Interpretation}
    (h : Interpretation.of p schema? = .ok ctx) : ctx.schema? = schema? := by
  cases schema? with
  | some schema =>
    cases h
    rfl
  | none =>
    obtain ⟨_, -, h⟩ := bind_eq_ok.1 h
    cases h
    rfl

namespace Predicate

variable {ctx : Interpretation} {r : Reading ctx}

/-! ## One pass -/

/-- The outcome of a pass, given how the predicate is read and what it is expanded into. -/
theorem simplifyOnce_of_expand {schema? : Option Schema} {p : Predicate} {ts : List Term}
    (hctx : Interpretation.of p schema? = .ok ctx) (hts : p.expand ctx false = .ok ts)
    (effort : Effort) : simplifyOnce schema? effort p =
      .ok (if ts.isEmpty then .never
        else if ts.any Term.isAlways || isTautology ctx effort ts then .always
        else Term.disjunctionOf ctx ts) := by
  rw [simplifyOnce, hctx, ok_bind, hts, ok_bind]
  split
  · rfl
  · split <;> rfl

/-- What the outcome of a pass is: nothing can hold, everything does, or some terms say what. -/
theorem simplifyOnce_cases {schema : Option Schema} {effort : Effort} {p q : Predicate}
    (h : simplifyOnce schema effort p = .ok q) : ∃ ctx ts, Interpretation.of p schema = .ok ctx ∧
      p.expand ctx false = .ok ts ∧
      ((ts = [] ∧ q = .never) ∨
       (ts ≠ [] ∧ (ts.any Term.isAlways || isTautology ctx effort ts) = true ∧ q = .always) ∨
       (ts ≠ [] ∧ q = Term.disjunctionOf ctx ts)) := by
  obtain ⟨ctx, hctx, hp⟩ := bind_eq_ok.1 h
  obtain ⟨ts, hts, -⟩ := bind_eq_ok.1 hp
  refine ⟨ctx, ts, hctx, hts, ?_⟩
  rw [simplifyOnce_of_expand hctx hts, Except.ok.injEq] at h
  split at h
  · rename_i hempty
    exact .inl ⟨List.isEmpty_iff.1 hempty, h.symm⟩
  rename_i hne
  rw [List.isEmpty_iff] at hne
  split at h
  · rename_i htaut
    exact .inr (.inl ⟨hne, htaut, h.symm⟩)
  · exact .inr (.inr ⟨hne, h.symm⟩)

/-- Terms whose negation is found unsatisfiable always hold. -/
theorem anySat_of_isTautology {effort : Effort} {ts : List Term} (hts : Term.AllValid r ts)
    (h : isTautology ctx effort ts = true) : Term.AnySat r ts := by
  rw [isTautology, Bool.and_eq_true] at h
  have hneg := h.2
  split at hneg
  · rename_i hnil
    have hspec := Term.negateAll?_spec hts hnil
    by_contra hn
    obtain ⟨t, ht, -⟩ := hspec.2.2 hn
    cases ht
  · cases hneg

/-- **One pass keeps the meaning**, and what comes out is about nothing new. -/
theorem writes_simplifyOnce {schema : Option Schema} {effort : Effort} {p q : Predicate}
    (hctx : Interpretation.of p schema = .ok ctx) (hknows : p.AllAtoms r.Knows)
    (h : simplifyOnce schema effort p = .ok q) : q.Writes r (p.IsTrue r.truth) := by
  obtain ⟨ctx', ts, hctx', hts, hq⟩ := simplifyOnce_cases h
  cases hctx.symm.trans hctx'
  obtain ⟨hvalid, hsat⟩ := expand_spec p hknows hts
  rw [iff_true_right rfl] at hsat
  rcases hq with ⟨rfl, rfl⟩ | ⟨-, htaut, rfl⟩ | ⟨-, rfl⟩
  · refine ⟨trivial, iff_of_false id ?_⟩
    intro hp
    obtain ⟨t, ht, -⟩ := hsat.2 hp
    cases ht
  · refine ⟨trivial, iff_of_true trivial (hsat.1 ?_)⟩
    rcases Bool.or_eq_true_iff.1 htaut with hany | htaut
    · obtain ⟨t, ht, hal⟩ := List.any_eq_true.1 hany
      exact ⟨t, ht, Term.sat_of_isAlways hal⟩
    · exact anySat_of_isTautology hvalid htaut
  · exact (Term.writes_disjunctionOf hvalid).congr hsat

/-- That the result of a computation is `never` can be told by comparing it. -/
theorem eq_ok_never {x : Except Error Predicate} (h : (x.toOption.any (· == .never)) = true) :
    x = .ok .never := by
  cases x with
  | error e => cases h
  | ok p => exact congrArg Except.ok (eq_never_of_beq h)

/-- That the result of a computation is `always` can be told by comparing it. -/
theorem eq_ok_always {x : Except Error Predicate} (h : (x.toOption.any (· == .always)) = true) :
    x = .ok .always := by
  cases x with
  | error e => cases h
  | ok p => exact congrArg Except.ok (eq_always_of_beq h)

/-! ## Passes -/

theorem leastText_mem (p : Predicate) (ps : List Predicate) : leastText p ps ∈ p :: ps := by
  induction ps generalizing p with
  | nil => exact List.mem_singleton_self p
  | cons q rest ih =>
    rw [leastText]
    have h := ih (if q.text < p.text then q else p)
    rcases List.mem_cons.1 h with heq | h
    · rw [heq]
      split <;> simp
    · exact List.mem_cons_of_mem _ (List.mem_cons_of_mem _ h)

variable {pass : Predicate → Except Error Predicate} {P Q : Predicate → Prop}

/-- **What is true of the first predicate and kept by each pass is true of the result.** -/
theorem settle_induction (hpass : ∀ x y, P x → pass x = .ok y → P y) {n : Nat}
    {seen : List Predicate} {current q : Predicate} (hseen : ∀ x ∈ seen, P x) (hcur : P current)
    (h : settle pass n seen current = .ok q) : P q := by
  induction n generalizing seen current with
  | zero =>
    cases h
    exact hcur
  | succ n ih =>
    obtain ⟨next, hnext, h⟩ := bind_eq_ok.1 h
    have hPnext := hpass current next hcur hnext
    split at h
    · rename_i x cycle hdrop
      cases h
      have hsuffix := List.dropWhile_suffix (l := seen) (· != next)
      rw [hdrop] at hsuffix
      exact hseen _ (hsuffix.subset (leastText_mem x cycle))
    · refine ih ?_ hPnext h
      intro x hx
      rcases List.mem_append.1 hx with hx | hx
      · exact hseen x hx
      · rw [List.mem_singleton] at hx
        exact hx ▸ hPnext

/-- A predicate that the passes leave alone stays, once it has come up. -/
theorem settle_of_fixed {c : Predicate} (hc : pass c = .ok c) (hself : (c == c) = true)
    {rest : List Predicate} (hrest : ∀ x ∈ rest, ¬ (x == c) = true) (n : Nat) :
    settle pass n (rest ++ [c]) c = .ok c := by
  cases n with
  | zero => rfl
  | succ n =>
    have hdrop : (rest ++ [c]).dropWhile (· != c) = [c] := by
      rw [List.dropWhile_append_of_pos]
      · simp [bne, hself]
      · intro x hx
        simpa [bne] using hrest x hx
    rw [settle, hc]
    dsimp only [bind, Except.bind]
    rw [hdrop]
    rfl

/-- A predicate that the passes leave alone, and that equals no other one, is the result if the
first pass comes to it. -/
theorem settle_of_pass_fixed {c p : Predicate} (hc : pass c = .ok c)
    (heq : ∀ x, (x == c) = true ↔ x = c) (hp : pass p = .ok c) (n : Nat) :
    settle pass (n + 1) [p] p = .ok c := by
  rw [settle, hp]
  dsimp only [bind, Except.bind]
  by_cases hpc : p = c
  · -- the predicate itself comes back
    subst hpc
    have hdrop : [p].dropWhile (· != p) = [p] := by simp [bne, (heq p).2 rfl]
    rw [hdrop]
    rfl
  · have hne : ¬ (p == c) = true := fun h ↦ hpc ((heq p).1 h)
    have hdrop : [p].dropWhile (· != c) = [] := by simp [bne, hne]
    rw [hdrop]
    exact settle_of_fixed hc ((heq c).2 rfl) (by simpa using hne) n

theorem beq_never_iff {x : Predicate} : (x == never) = true ↔ x = never :=
  ⟨eq_never_of_beq, by rintro rfl; rfl⟩

theorem beq_always_iff {x : Predicate} : (x == always) = true ↔ x = always :=
  ⟨eq_always_of_beq, by rintro rfl; rfl⟩

variable {schema? : Option Schema} {effort : Effort}

theorem simplifyOnce_never : simplifyOnce schema? effort never = .ok never := by
  cases schema? <;> rfl

theorem simplifyOnce_always : simplifyOnce schema? effort always = .ok always := by
  cases schema? <;> rfl

/-- The result of some passes has come out of one of them, or it is the first predicate and equals
what has come out of one.  `P` is what the passes keep, and `Q` what is true of their results. -/
theorem settle_cases (hpass : ∀ x y, P x → pass x = .ok y → P y ∧ Q y) {n : Nat} {p : Predicate}
    {rest : List Predicate} {current q : Predicate} (hcur : P current) (hrest : ∀ x ∈ rest, Q x)
    (hlast : n = 0 → Q current) (h : settle pass n (p :: rest) current = .ok q) :
    Q q ∨ q = p ∧ ∃ y, Q y ∧ (p == y) = true := by
  induction n generalizing rest current with
  | zero =>
    cases h
    exact .inl (hlast rfl)
  | succ n ih =>
    obtain ⟨next, hnext, h⟩ := bind_eq_ok.1 h
    obtain ⟨hPnext, hQnext⟩ := hpass current next hcur hnext
    split at h
    · rename_i x cycle hdrop
      cases h
      have hmem := leastText_mem x cycle
      rw [← hdrop, List.dropWhile_cons] at hmem
      split at hmem
      · have hsuffix := List.dropWhile_suffix (l := rest) (· != next)
        exact .inl (hrest _ (hsuffix.subset hmem))
      · rename_i hp
        rcases List.mem_cons.1 hmem with heq | hmem
        · exact .inr ⟨heq, next, hQnext, by simpa [bne] using hp⟩
        · exact .inl (hrest _ hmem)
    · rw [List.cons_append] at h
      refine ih hPnext ?_ (fun _ ↦ hQnext) h
      intro x hx
      rcases List.mem_append.1 hx with hx | hx
      · exact hrest x hx
      · rw [List.mem_singleton] at hx
        exact hx ▸ hQnext

end Predicate

end RuleCoverage
