import RuleCoverage.Predicate.Basic
import RuleCoverage.Literal.Equality

/-!
# Comparing predicates part by part

Predicates are compared part by part like literals (`RuleCoverage.Literal.Equality`): from left to
right, up to the first difference, and with an error where literals have no single truth value.

* `Predicate.equal?` compares part by part;
* where it finds predicates equal, they are equal (`Predicate.beq_of_equal?`).
-/

set_option autoImplicit false

namespace RuleCoverage

namespace Predicate

/-- Compares predicates part by part. -/
def equal? : Predicate → Predicate → Except Error Bool
  | .and a b, .and c d | .or a b, .or c d => do
    if ← equal? a c then equal? b d else return false
  | .not a, .not b => equal? a b
  | .compare a op v, .compare b op' w => do
    if ← a.equal? b then if op == op' then v.equal? w else return false else return false
  | .isIn a vs, .isIn b ws => do if ← a.equal? b then return vs == ws else return false
  | .between a l h li hi, .between b l' h' li' hi' => do
    if ← a.equal? b then
      if ← l.equal? l' then
        if ← h.equal? h' then return li == li' && hi == hi' else return false
      else return false
    else return false
  | .isNull a, .isNull b => a.equal? b
  | p, q => .ok (p == q)

theorem beq_of_equal? (p q : Predicate) (h : equal? p q = .ok true) : beq p q = true := by
  fun_induction equal? p q with
  | case1 a b c d iha ihb | case2 a b c d iha ihb =>
    obtain ⟨ha, hb⟩ := Literal.true_of_guarded h
    simp [beq, iha ha, ihb hb]
  | case3 a b ih => simpa [beq] using ih h
  | case4 a op v b op' w =>
    obtain ⟨ha, h⟩ := Literal.true_of_guarded h
    split at h
    · rename_i hop
      have h₁ := Literal.beq_of_equal? _ _ ha
      have h₂ := Literal.beq_of_equal? _ _ h
      simp only [beq, hop, Bool.and_true, Bool.and_eq_true]
      exact ⟨h₁, h₂⟩
    · simp [pure, Except.pure] at h
  | case5 a vs b ws =>
    obtain ⟨ha, h⟩ := Literal.true_of_guarded h
    have h₁ := Literal.beq_of_equal? _ _ ha
    simp only [pure, Except.pure, Except.ok.injEq] at h
    simp only [beq, h, Bool.and_true]
    exact h₁
  | case6 a l u li ui b l' u' li' ui' =>
    obtain ⟨ha, h⟩ := Literal.true_of_guarded h
    obtain ⟨hl, h⟩ := Literal.true_of_guarded h
    obtain ⟨hu, h⟩ := Literal.true_of_guarded h
    simp only [pure, Except.pure, Except.ok.injEq, Bool.and_eq_true] at h
    have h₁ := Literal.beq_of_equal? _ _ ha
    have h₂ := Literal.beq_of_equal? _ _ hl
    have h₃ := Literal.beq_of_equal? _ _ hu
    simp only [beq, h.1, h.2, Bool.and_true, Bool.and_eq_true]
    exact ⟨⟨h₁, h₂⟩, h₃⟩
  | case7 a b => exact Literal.beq_of_equal? _ _ h
  | case8 p q => simpa [BEq.beq] using h

end Predicate

end RuleCoverage
