import Mathlib.Algebra.Order.BigOperators.Group.List
import RuleCoverage.Proofs.NormalForm.Irreducible

/-!
# How much there is in a list of terms

A `Weighting` gives a weight to each constraint and to each opaque literal.  The weight of a term is
the product of the weights of its parts, and that of a list of terms is the sum of theirs, so it is
a kind of number of alternatives.  Joining lists multiplies their weights at most.  A list is
reduced by dropping terms, which makes it lighter, and by merging two of them, which makes it
lighter unless the union of two value sets weighs as much as the sets.

* `Term.weight_conjoin?`, `Term.merge?_weight` — joining and merging two terms.
* `Term.totalWeight_conjunctions` — joining two lists.
-/

set_option autoImplicit false

namespace RuleCoverage

/-- Weights of constraints and of opaque literals that go with the operations on value sets. -/
structure Weighting where
  values : String → ValueSet → Nat
  /-- The weight of the literals of a class. -/
  literal : Predicate.Tag × Bool → Nat
  values_pos : ∀ {a vs}, (∃ v, vs.Mem v) → 1 ≤ values a vs
  values_congr : ∀ {a us vs}, (us == vs) = true → values a us = values a vs
  values_inter : ∀ a us vs, values a (us.inter vs) ≤ values a us * values a vs
  values_union : ∀ a us vs, values a (us.union vs) ≤ values a us + values a vs
  literal_pos : ∀ k, 1 ≤ literal k

namespace Term

variable {ctx : Interpretation} {r : Reading ctx} {w : Weighting}
  {full? : String → Option ValueSet} {s t u m : Term} {ss ts us : List Term}
  {cs cs' ds ms : List (String × ValueSet)}

/-! ## Constraints -/

/-- The product of the weights of constraints. -/
def constraintsWeight (w : Weighting) (cs : List (String × ValueSet)) : Nat :=
  (cs.map fun c ↦ w.values c.1 c.2).prod

@[simp] theorem constraintsWeight_nil : constraintsWeight w [] = 1 := rfl

@[simp] theorem constraintsWeight_cons {c : String × ValueSet} :
    constraintsWeight w (c :: cs) = w.values c.1 c.2 * constraintsWeight w cs := List.prod_cons

@[simp] theorem constraintsWeight_append :
    constraintsWeight w (cs ++ ds) = constraintsWeight w cs * constraintsWeight w ds := by
  simp [constraintsWeight]

theorem constraintsWeight_pos (hcs : ConstraintsValid r cs) : 1 ≤ constraintsWeight w cs := by
  refine List.one_le_prod_of_one_le fun x hx ↦ ?_
  obtain ⟨c, hc, rfl⟩ := List.mem_map.1 hx
  exact w.values_pos (hcs.demands c hc).nonempty

theorem constraintsWeight_congr (h : (cs == ds) = true) :
    constraintsWeight w cs = constraintsWeight w ds := by
  induction cs generalizing ds with
  | nil =>
    cases ds with
    | nil => rfl
    | cons => cases h
  | cons c cs ih =>
    cases ds with
    | nil => cases h
    | cons d ds =>
      obtain ⟨a, us⟩ := c
      obtain ⟨b, vs⟩ := d
      rw [List.cons_beq_cons, Bool.and_eq_true] at h
      obtain ⟨rfl, huv⟩ : a = b ∧ (us == vs) = true := by simpa [BEq.beq] using h.1
      rw [constraintsWeight_cons, constraintsWeight_cons, ih h.2, w.values_congr huv]

theorem constraintsWeight_constrain? {a : String} {vs : ValueSet}
    (h : constrain? a vs cs = some cs') :
    constraintsWeight w cs' ≤ constraintsWeight w cs * w.values a vs := by
  replace h := constrains_of_constrain? h
  induction h with
  | last => simp
  | @overlap us rest _ =>
    have hinter := Nat.mul_le_mul_right (constraintsWeight w rest) (w.values_inter a us vs)
    simp only [constraintsWeight_cons]
    rwa [Nat.mul_right_comm]
  | before =>
    rw [constraintsWeight_cons]
    exact (Nat.mul_comm _ _).le
  | behind _ _ ih =>
    simp only [constraintsWeight_cons]
    rw [Nat.mul_assoc]
    exact Nat.mul_le_mul_left _ ih

theorem constraintsWeight_foldlM
    (h : ds.foldlM (fun acc c ↦ constrain? c.1 c.2 acc) cs = some cs') :
    constraintsWeight w cs' ≤ constraintsWeight w cs * constraintsWeight w ds := by
  induction ds generalizing cs with
  | nil =>
    cases h
    simp
  | cons d ds ih =>
    obtain ⟨mid, hmid, h⟩ := Option.bind_eq_some_iff.1 h
    rw [constraintsWeight_cons, ← Nat.mul_assoc]
    exact (ih h).trans (Nat.mul_le_mul_right _ (constraintsWeight_constrain? hmid))

/-! ## Literals -/

/-- The product of the weights of opaque literals. -/
def literalsWeight (w : Weighting) (ls : List OpaqueLiteral) : Nat :=
  (ls.map fun l ↦ w.literal l.class_).prod

theorem literalsWeight_pos (ls : List OpaqueLiteral) : 1 ≤ literalsWeight w ls := by
  refine List.one_le_prod_of_one_le fun x hx ↦ ?_
  obtain ⟨l, -, rfl⟩ := List.mem_map.1 hx
  exact w.literal_pos _

@[simp] theorem literalsWeight_cons {l : OpaqueLiteral} {ls : List OpaqueLiteral} :
    literalsWeight w (l :: ls) = w.literal l.class_ * literalsWeight w ls := by
  simp [literalsWeight]

@[simp] theorem literalsWeight_append {ls ms : List OpaqueLiteral} :
    literalsWeight w (ls ++ ms) = literalsWeight w ls * literalsWeight w ms := by
  simp [literalsWeight]

theorem literalsWeight_perm {ls ms : List OpaqueLiteral} (h : ls.Perm ms) :
    literalsWeight w ls = literalsWeight w ms := (h.map _).prod_eq

theorem literalsWeight_sublist {ls ms : List OpaqueLiteral} (h : ls.Sublist ms) :
    literalsWeight w ls ≤ literalsWeight w ms := by
  refine (h.map _).prod_le_prod' fun x hx ↦ ?_
  obtain ⟨l, -, rfl⟩ := List.mem_map.1 hx
  exact w.literal_pos _

/-- Different literals of a term are of different classes. -/
theorem nodup_classes {ls : Distinct OpaqueLiteral} (hls : ∀ l ∈ ls.toList, l.atom.IsMember) :
    (ls.toList.map OpaqueLiteral.class_).Nodup := by
  refine List.pairwise_map.2 (ls.distinct.imp_of_mem fun {l m} hl hm hne hclass ↦ ?_)
  rw [(OpaqueLiteral.decidedBy_tag l m (hls l hl) (hls m hm)).2 hclass] at hne
  cases hne

/-- Sets of literals of the same classes weigh the same. -/
theorem literalsWeight_congr {ls ms : Distinct OpaqueLiteral}
    (hls : ∀ l ∈ ls.toList, l.atom.IsMember) (hms : ∀ l ∈ ms.toList, l.atom.IsMember)
    (h : ∀ k, (∃ l ∈ ls.toList, l.class_ = k) ↔ ∃ m ∈ ms.toList, m.class_ = k) :
    literalsWeight w ls.toList = literalsWeight w ms.toList := by
  have hperm : (ls.toList.map OpaqueLiteral.class_).Perm (ms.toList.map OpaqueLiteral.class_) := by
    refine (List.perm_ext_iff_of_nodup (nodup_classes hls) (nodup_classes hms)).2 fun k ↦ ?_
    rw [List.mem_map, List.mem_map]
    exact h k
  have hprod := (hperm.map w.literal).prod_eq
  rwa [List.map_map, List.map_map] at hprod

/-! ## Terms -/

/-- The product of the weights of all parts of a term. -/
def weight (w : Weighting) (t : Term) : Nat :=
  constraintsWeight w t.constraints * literalsWeight w t.literals.toList

theorem weight_always : always.weight w = 1 := rfl

theorem weight_ofValues (a : String) (vs : ValueSet) :
    (ofValues a vs).weight w = w.values a vs := by
  show w.values a vs * 1 * 1 = _
  rw [Nat.mul_one, Nat.mul_one]

theorem weight_ofLiteral (l : OpaqueLiteral) : (ofLiteral l).weight w = w.literal l.class_ := by
  show 1 * (w.literal l.class_ * 1) = _
  rw [Nat.one_mul, Nat.mul_one]

theorem weight_pos (ht : t.Valid r) : 1 ≤ t.weight w :=
  Nat.mul_le_mul (constraintsWeight_pos ht.constraints) (literalsWeight_pos _)

/-- A conjunction weighs no more than its parts together. -/
theorem weight_conjoin? (h : s.conjoin? t = some u) : u.weight w ≤ s.weight w * t.weight w := by
  obtain ⟨hcs, hls, -⟩ := conjoin?_eq_some.1 h
  obtain ⟨ys, hys, heq⟩ := Distinct.exists_union_toList s.literals t.literals
  rw [weight, weight, weight, hls, heq, literalsWeight_append, Nat.mul_mul_mul_comm]
  exact Nat.mul_le_mul (constraintsWeight_foldlM hcs)
    (Nat.mul_le_mul_left _ (literalsWeight_sublist hys))

/-! ## Merging -/

/-- Where two lists of constraints are merged: they agree before and behind one attribute, and its
value sets are joined. -/
theorem exists_of_mergeValues? (h : mergeValues? full? cs ds = some ms) :
    ∃ before a us vs behind before' behind', cs = before ++ (a, us) :: behind ∧
      ds = before' ++ (a, vs) :: behind' ∧ (before == before') = true ∧
      (behind == behind') = true ∧
      (ms = before ++ behind ∨ ms = before ++ (a, us.union vs) :: behind) := by
  replace h := merges_of_mergeValues? h
  induction h with
  | @agree a us vs _ _ _ huv _ ih =>
    obtain ⟨before, b, us', vs', behind, before', behind', rfl, rfl, hbefore, hbehind, hms⟩ := ih
    have hfirst : ((a, us) :: before == (a, vs) :: before') = true := by
      rw [List.cons_beq_cons, hbefore, Bool.and_true]
      show (a == a && us == vs) = true
      rw [huv, beq_self_eq_true, Bool.and_true]
    refine ⟨_, b, us', vs', behind, _, behind', rfl, rfl, hfirst, hbehind, ?_⟩
    exact hms.imp (by rintro rfl; rfl) (by rintro rfl; rfl)
  | join hrest => exact ⟨[], _, _, _, _, [], _, rfl, rfl, rfl, hrest, .inr rfl⟩
  | leaveOut hrest => exact ⟨[], _, _, _, _, [], _, rfl, rfl, rfl, hrest, .inl rfl⟩

/-- What has the constraints of two terms and the literals that they share weighs no more than one
of them. -/
theorem weight_of_inter_literals (hcs : (s.constraints == t.constraints) = true)
    (hmcs : m.constraints = s.constraints) (hmls : m.literals = s.literals.inter t.literals) :
    m.weight w ≤ s.weight w ∨ m.weight w ≤ t.weight w := by
  rw [weight, weight, weight, hmcs, hmls, ← constraintsWeight_congr hcs]
  exact (Distinct.inter_sublist_or s.literals t.literals).imp
    (fun h ↦ Nat.mul_le_mul_left _ (literalsWeight_sublist h))
    fun h ↦ Nat.mul_le_mul_left _ (literalsWeight_sublist h)

/-- A merged term is lighter than the two terms together, unless two of their value sets are joined:
then all three weigh what these value sets do, times the weight of what the terms have in common. -/
theorem merge?_weight (hs : s.Valid r) (ht : t.Valid r) (h : merge? full? s t = some m) :
    m.weight w < s.weight w + t.weight w ∨
      ∃ a us vs rest, (a, us) ∈ s.constraints ∧ (a, vs) ∈ t.constraints ∧
        (∀ c ∈ m.constraints, c ∈ s.constraints ∨ c = (a, us.union vs)) ∧ 1 ≤ rest ∧
        s.weight w = rest * w.values a us ∧ t.weight w = rest * w.values a vs ∧
        m.weight w = rest * w.values a (us.union vs) := by
  have hspos := weight_pos (w := w) hs
  have htpos := weight_pos (w := w) ht
  rcases merge?_cases h with ⟨hls, hmls, hms⟩ | ⟨hcs, hmcs, hmls, -⟩
  · obtain ⟨before, a, us, vs, behind, before', behind', hsc, htc, hbefore, hbehind, hm⟩ :=
      exists_of_mergeValues? hms
    have hlits : literalsWeight w s.literals.toList = literalsWeight w t.literals.toList :=
      literalsWeight_congr hs.opaques.members ht.opaques.members
        ((Distinct.beq_iff OpaqueLiteral.decidedBy_tag hs.opaques.members ht.opaques.members).1 hls)
    let rest := constraintsWeight w before * constraintsWeight w behind *
      literalsWeight w s.literals.toList
    have hsw : s.weight w = rest * w.values a us := by
      rw [weight, hsc, constraintsWeight_append, constraintsWeight_cons]
      ring
    have htw : t.weight w = rest * w.values a vs := by
      rw [weight, htc, ← hlits, constraintsWeight_append, constraintsWeight_cons,
        ← constraintsWeight_congr hbefore, ← constraintsWeight_congr hbehind]
      ring
    have hrest : 1 ≤ rest := Nat.pos_of_ne_zero fun h0 ↦ by simp [hsw, h0] at hspos
    rcases hm with hm | hm
    · -- nothing is left of the demand
      have hmw : m.weight w = rest := by
        rw [weight, hm, hmls, constraintsWeight_append]
      have hle : rest ≤ s.weight w := by
        rw [hsw]
        exact Nat.le_mul_of_pos_right _ (Nat.pos_of_ne_zero fun h0 ↦ by simp [hsw, h0] at hspos)
      exact .inl (by omega)
    · refine .inr ⟨a, us, vs, rest, by simp [hsc], by simp [htc], ?_, hrest, hsw, htw, ?_⟩
      · intro c hc
        simp only [hm, hsc, List.mem_append, List.mem_cons] at hc ⊢
        tauto
      · rw [weight, hm, hmls, constraintsWeight_append, constraintsWeight_cons]
        ring
  · have hle := weight_of_inter_literals (w := w) hcs hmcs hmls
    exact .inl (by omega)

theorem weight_merge? (hs : s.Valid r) (ht : t.Valid r) (h : merge? full? s t = some m) :
    m.weight w ≤ s.weight w + t.weight w := by
  rcases merge?_weight (w := w) hs ht h with hlt | ⟨a, us, vs, rest, -, -, -, -, hsw, htw, hmw⟩
  · exact hlt.le
  · rw [hsw, htw, hmw, ← Nat.mul_add]
    exact Nat.mul_le_mul_left _ (w.values_union a us vs)

/-! ## Lists of terms -/

/-- The sum of the weights of some terms. -/
def totalWeight (w : Weighting) (ts : List Term) : Nat := (ts.map (weight w)).sum

@[simp] theorem totalWeight_nil : totalWeight w [] = 0 := rfl

@[simp] theorem totalWeight_cons : totalWeight w (t :: ts) = t.weight w + totalWeight w ts :=
  List.sum_cons

@[simp] theorem totalWeight_append :
    totalWeight w (ts ++ us) = totalWeight w ts + totalWeight w us := by
  simp [totalWeight]

theorem totalWeight_singleton : totalWeight w [t] = t.weight w := by simp

theorem totalWeight_perm (h : ts.Perm us) : totalWeight w ts = totalWeight w us :=
  (h.map _).sum_eq

theorem totalWeight_sublist (h : us.Sublist ts) : totalWeight w us ≤ totalWeight w ts :=
  (h.map _).sum_le_sum fun _ _ ↦ Nat.zero_le _

theorem weight_le_totalWeight (h : t ∈ ts) : t.weight w ≤ totalWeight w ts := by
  have hle := totalWeight_sublist (w := w) (List.singleton_sublist.2 h)
  rwa [totalWeight_singleton] at hle

/-- Some of the terms of a list weigh as much as all of them only if they are all of them. -/
theorem eq_or_totalWeight_lt (hts : AllValid r ts) (h : us.Sublist ts) :
    us = ts ∨ totalWeight w us < totalWeight w ts := by
  induction h with
  | slnil => exact .inl rfl
  | @cons us ts t hsub ih =>
    have ht := weight_pos (w := w) (hts t List.mem_cons_self)
    have hle := totalWeight_sublist (w := w) hsub
    right
    rw [totalWeight_cons]
    omega
  | @cons_cons us ts t hsub ih =>
    refine (ih fun u hu ↦ hts u (List.mem_cons_of_mem _ hu)).imp (congrArg (t :: ·)) fun hlt ↦ ?_
    rw [totalWeight_cons, totalWeight_cons]
    omega

theorem totalWeight_filterMap_conjoin? :
    totalWeight w (ts.filterMap s.conjoin?) ≤ s.weight w * totalWeight w ts := by
  induction ts with
  | nil => simp
  | cons t ts ih =>
    rw [List.filterMap_cons, totalWeight_cons, Nat.mul_add]
    split
    · exact ih.trans (Nat.le_add_left _ _)
    · rename_i u hu
      rw [totalWeight_cons]
      exact Nat.add_le_add (weight_conjoin? hu) ih

/-- Joining two lists multiplies their weights at most. -/
theorem totalWeight_conjunctions :
    totalWeight w (conjunctions ss ts) ≤ totalWeight w ss * totalWeight w ts := by
  rw [conjunctions]
  induction ss with
  | nil => simp
  | cons s ss ih =>
    rw [List.flatMap_cons, totalWeight_append, totalWeight_cons, Nat.add_mul]
    exact Nat.add_le_add totalWeight_filterMap_conjoin? ih

end Term

end RuleCoverage
