import RuleCoverage.Proofs.NormalForm.Simplification

/-!
# Where the passes of a simplification end

A predicate is *stable* if simplification leaves it alone: a pass gives it back, or a predicate that
equals it (`Predicate.Stable`).  The passes end at a stable predicate if two things are known
(`Predicate.stable_of_settle`): they lead to a predicate that a pass leaves alone, and they never
come back to a predicate before the last one unless there was nothing left to do.

If nothing is come back to, what has been seen before may be forgotten, and simplification goes on
from what the first pass comes to (`Predicate.settle_of_first_pass`).

A pass may leave a predicate as it is but for the search for tautologies, which may find that it
always holds (`Predicate.Stays`).
-/

set_option autoImplicit false

namespace RuleCoverage

namespace Predicate

variable {pass : Predicate → Except Error Predicate} {p q c x y z : Predicate} {m n : Nat}

/-- A number of passes leads from one predicate to another. -/
def Passes (pass : Predicate → Except Error Predicate) : Nat → Predicate → Predicate → Prop
  | 0, x, z => x = z
  | n + 1, x, z => ∃ y, pass x = .ok y ∧ Passes pass n y z

theorem Passes.snoc (h : Passes pass n x y) (hy : pass y = .ok z) : Passes pass (n + 1) x z := by
  induction n generalizing x with
  | zero =>
    obtain rfl : x = y := h
    exact ⟨z, hy, rfl⟩
  | succ n ih =>
    obtain ⟨w, hw, h⟩ := h
    exact ⟨w, hw, ih h⟩

/-- From a predicate that a pass leaves alone the passes lead nowhere else. -/
theorem Passes.eq_of_fixed (hx : pass x = .ok x) (h : Passes pass n x z) : z = x := by
  induction n with
  | zero => exact Eq.symm h
  | succ n ih =>
    obtain ⟨y, hy, h⟩ := h
    cases hx.symm.trans hy
    exact ih h

/-- What a pass leaves alone is where all passes from it lead, and they leave that alone. -/
theorem Passes.fixed (hx : pass x = .ok x) (h : Passes pass n x z) : pass z = .ok z := by
  rw [h.eq_of_fixed hx, hx]

/-- A pass gives the predicate back, or one that equals it. -/
def Stable (pass : Predicate → Except Error Predicate) (q : Predicate) : Prop :=
  ∃ y, pass q = .ok y ∧ ((q == y) = true ∨ y = q)

theorem leastText_replicate (c : Predicate) (n : Nat) : leastText c (List.replicate n c) = c := by
  induction n with
  | zero => rfl
  | succ n ih =>
    rw [List.replicate_succ, leastText, if_neg (String.lt_irrefl _), ih]

/-- A predicate that a pass leaves alone is the result, whether or not it is found to come back: it
need not equal itself. -/
theorem settle_of_fixed_self (hc : pass c = .ok c) (n k : Nat) :
    settle pass n (List.replicate k c) c = .ok c := by
  induction n generalizing k with
  | zero => rfl
  | succ n ih =>
    rw [settle, hc, ok_bind]
    cases hself : (c == c) with
    | false =>
      have hdrop : (List.replicate k c).dropWhile (· != c) = [] := by simp [bne, hself]
      rw [hdrop]
      dsimp only
      rw [← List.replicate_succ']
      exact ih (k + 1)
    | true =>
      cases k with
      | zero => exact ih 1
      | succ k =>
        have hdrop : (List.replicate (k + 1) c).dropWhile (· != c) = c :: List.replicate k c := by
          simp [List.replicate_succ, bne, hself]
        rw [hdrop]
        exact congrArg Except.ok (leastText_replicate c k)

/-- **Simplification leaves a stable predicate alone.** -/
theorem Stable.settle_eq (h : Stable pass q) (n : Nat) : settle pass (n + 1) [q] q = .ok q := by
  obtain ⟨y, hy, heq | rfl⟩ := h
  · have hdrop : [q].dropWhile (· != y) = [q] := by simp [bne, heq]
    rw [settle, hy, ok_bind, hdrop]
    rfl
  · exact settle_of_fixed_self hy (n + 1) 1

/-- The predicates seen before the last one: a pass led from each of them to another predicate, and
more passes from there to the last one. -/
def LeadTo (pass : Predicate → Except Error Predicate) (earlier : List Predicate)
    (last : Predicate) : Prop :=
  ∀ x ∈ earlier, ∃ y k, pass x = .ok y ∧ ¬ (x == y) = true ∧ Passes pass k y last

variable {earlier : List Predicate} {last next : Predicate}

theorem LeadTo.snoc (h : LeadTo pass earlier last) (hnext : pass last = .ok next)
    (hne : ¬ (last == next) = true) : LeadTo pass (earlier ++ [last]) next := by
  intro x hx
  rcases List.mem_append.1 hx with hx | hx
  · obtain ⟨y, k, hy, hxy, hk⟩ := h x hx
    exact ⟨y, k + 1, hy, hxy, hk.snoc hnext⟩
  · obtain rfl := List.mem_singleton.1 hx
    exact ⟨next, 0, hnext, hne, rfl⟩

/-- Where the passes do not come back as long as there is something to do, the next one comes to no
predicate seen before the last one. -/
theorem LeadTo.ne_next (h : LeadTo pass earlier last)
    (hback : ∀ {x y z n}, pass x = .ok y → Passes pass (n + 1) y z → (x == z) = true →
      pass y = .ok y)
    (hnext : pass last = .ok next) : ∀ x ∈ earlier, (x != next) = true := by
  intro x hx
  obtain ⟨y, k, hy, hne, hk⟩ := h x hx
  have hpasses : Passes pass (k + 1) y next := hk.snoc hnext
  rw [bne, Bool.not_eq_true', Bool.eq_false_iff]
  intro heq
  rw [hpasses.eq_of_fixed (hback hy hpasses heq)] at heq
  exact hne heq

/-- **The passes end at a stable predicate**, if they lead to one that a pass leaves alone and do
not come back to a predicate before the last one as long as there is something to do. -/
theorem stable_of_settle_append (hback : ∀ {x y z n}, pass x = .ok y →
      Passes pass (n + 1) y z → (x == z) = true → pass y = .ok y)
    (hend : ∀ {z}, Passes pass n last z → pass z = .ok z) (hseen : LeadTo pass earlier last)
    (h : settle pass n (earlier ++ [last]) last = .ok q) : Stable pass q := by
  induction n generalizing earlier last with
  | zero =>
    cases h
    exact ⟨q, hend rfl, .inr rfl⟩
  | succ n ih =>
    obtain ⟨next, hnext, h⟩ := bind_eq_ok.1 h
    rw [List.dropWhile_append_of_pos (hseen.ne_next hback hnext)] at h
    cases heq : (last == next) with
    | true =>
      have hdrop : [last].dropWhile (· != next) = [last] := by simp [bne, heq]
      rw [hdrop] at h
      cases h
      exact ⟨next, hnext, .inl heq⟩
    | false =>
      have hdrop : [last].dropWhile (· != next) = [] := by simp [bne, heq]
      rw [hdrop] at h
      exact ih (fun hz ↦ hend ⟨next, hnext, hz⟩) (hseen.snoc hnext (by simp [heq])) h

theorem stable_of_settle (hback : ∀ {x y z n}, pass x = .ok y → Passes pass (n + 1) y z →
      (x == z) = true → pass y = .ok y)
    (hend : ∀ {z}, Passes pass n p z → pass z = .ok z) (h : settle pass n [p] p = .ok q) :
    Stable pass q :=
  stable_of_settle_append hback hend (List.forall_mem_nil _) h

/-- A predicate that the passes do not come back to may be forgotten. -/
theorem settle_cons (hnot : ∀ {z n}, Passes pass (n + 1) c z → ¬ (x == z) = true)
    {seen : List Predicate} {current : Predicate} (h : Passes pass m c current) (n : Nat) :
    settle pass n (x :: seen) current = settle pass n seen current := by
  induction n generalizing seen current m with
  | zero => rfl
  | succ n ih =>
    rw [settle, settle]
    cases hnext : pass current with
    | error e => rfl
    | ok next =>
      have hne : (x == next) = false := Bool.eq_false_iff.2 (hnot (h.snoc hnext))
      have hdrop : (x :: seen).dropWhile (· != next) = seen.dropWhile (· != next) := by
        simp [bne, hne]
      rw [ok_bind, ok_bind, hdrop]
      split
      · rfl
      · exact ih (h.snoc hnext)

/-- **After the first pass simplification goes on as from there**, unless the first pass comes to
what equals the given predicate. -/
theorem settle_of_first_pass (hx : pass x = .ok c)
    (hback : ∀ {z n}, Passes pass (n + 1) c z → (x == z) = true → pass c = .ok c) (n : Nat) :
    settle pass (n + 1) [x] x = if x == c then .ok x else settle pass n [c] c := by
  rw [settle, hx, ok_bind]
  cases heq : (x == c) with
  | true =>
    have hdrop : [x].dropWhile (· != c) = [x] := by simp [bne, heq]
    rw [hdrop]
    rfl
  | false =>
    have hdrop : [x].dropWhile (· != c) = [] := by simp [bne, heq]
    rw [hdrop]
    refine settle_cons (m := 0) (fun {z n} hz hxz ↦ ?_) rfl n
    rw [hz.eq_of_fixed (hback hz hxz), heq] at hxz
    cases hxz

/-! ## What a pass leaves alone unless it always holds -/

variable {schema? : Option Schema} {effort : Effort}

/-- A pass leaves the predicate as it is, unless a search finds that it always holds. -/
def Stays (schema? : Option Schema) (effort : Effort) (p : Predicate) : Prop :=
  ∃ found : Bool, (found = true → effort.detectsTautologies = true) ∧
    simplifyOnce schema? effort p = .ok (if found then .always else p)

theorem stays_of_fixed (h : simplifyOnce schema? effort p = .ok p) : p.Stays schema? effort :=
  ⟨false, Bool.noConfusion, h⟩

/-- The passes from a predicate that stays end there, or with `always`. -/
theorem Stays.settle_eq (h : p.Stays schema? effort) (n : Nat) : ∃ found : Bool,
    (found = true → effort.detectsTautologies = true) ∧
      settle (simplifyOnce schema? effort) (n + 1) [p] p = .ok (if found then .always else p) := by
  obtain ⟨found, hfound, hpass⟩ := h
  refine ⟨found, hfound, ?_⟩
  cases found with
  | false => exact settle_of_fixed_self hpass (n + 1) 1
  | true => exact settle_of_pass_fixed simplifyOnce_always (fun _ ↦ beq_always_iff) hpass n

theorem Stays.eq_or (h : p.Stays schema? effort)
    (hq : simplifyOnce schema? effort p = .ok q) : q = .always ∨ q = p := by
  obtain ⟨_ | _, -, hpass⟩ := h
  · exact .inr (Except.ok.inj (hq.symm.trans hpass))
  · exact .inl (Except.ok.inj (hq.symm.trans hpass))

/-- The passes from what stays lead nowhere else but to `always`. -/
theorem Stays.eq_or_of_passes (hstays : p.Stays schema? effort)
    (h : Passes (simplifyOnce schema? effort) n p z) : z = .always ∨ z = p := by
  cases n with
  | zero => exact .inr (Eq.symm h)
  | succ n =>
    obtain ⟨y, hy, h⟩ := h
    rcases hstays.eq_or hy with rfl | rfl
    · exact .inl (h.eq_of_fixed simplifyOnce_always)
    · exact .inr (h.eq_of_fixed hy)

/-- Passes from what stays end at a predicate that is left alone. -/
theorem Stays.fixed_of_passes (hstays : p.Stays schema? effort)
    (h : Passes (simplifyOnce schema? effort) (n + 1) p z) :
    simplifyOnce schema? effort z = .ok z := by
  obtain ⟨y, hy, h⟩ := h
  rcases hstays.eq_or hy with rfl | rfl
  · exact h.fixed simplifyOnce_always
  · exact h.fixed hy

/-- What stays is left alone if a later pass comes back to where it came from: nothing but `always`
leads to `always` and comes back. -/
theorem Stays.eq_of_passes_back (hstays : y.Stays schema? effort)
    (hy : simplifyOnce schema? effort x = .ok y)
    (h : Passes (simplifyOnce schema? effort) (n + 1) y z) (hxz : (x == z) = true) :
    simplifyOnce schema? effort y = .ok y := by
  obtain ⟨y', hy', h⟩ := h
  rcases hstays.eq_or hy' with rfl | rfl
  · rw [h.eq_of_fixed simplifyOnce_always] at hxz
    rw [eq_always_of_beq hxz] at hy
    rw [← Except.ok.inj (simplifyOnce_always.symm.trans hy)]
    exact simplifyOnce_always
  · exact hy'

end Predicate

end RuleCoverage
