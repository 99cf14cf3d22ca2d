import RuleCoverage.NormalForm.Term
import RuleCoverage.Proofs.NormalForm.Reading

/-!
# What constraints and opaque literals say

The two halves of a term.  Constraints hold when each attribute is in its value set; opaque literals
hold when each atom is as true as its sign says.  Constraints are in good order when the attributes
ascend and each value set is a demand that can be met (`ConstraintsValid`).

## What is here

* `Term.hold_constrain?`, `Term.valid_constrain?` — adding a constraint to others adds its demand,
  keeps the order, and fails only where the demands contradict each other.
* `AllOpaque.sat_union`, `AllOpaque.sat_congr` — opaque literals that are equal say the same, so it
  does not matter which of them a set keeps.
-/

set_option autoImplicit false

namespace RuleCoverage

variable {ctx : Interpretation} {r : Reading ctx}

/-! ## Opaque literals -/

namespace OpaqueLiteral

/-- The atom is as true as the literal says. -/
def Sat (r : Reading ctx) (l : OpaqueLiteral) : Prop := r.truth l.atom ↔ l.positive = true

/-- What a literal is up to equality. -/
def class_ (l : OpaqueLiteral) : Predicate.Tag × Bool := (l.atom.tag, l.positive)

theorem sat_negate (l : OpaqueLiteral) : l.negate.Sat r ↔ ¬ l.Sat r := by
  rw [Sat, Sat, negate]
  cases l.positive <;> simp

/-- Literals of one class say the same. -/
theorem sat_congr {l m : OpaqueLiteral} (hl : r.IsOpaque l.atom) (hm : r.IsOpaque m.atom)
    (h : l.class_ = m.class_) : l.Sat r ↔ m.Sat r := by
  rw [class_, class_, Prod.mk.injEq] at h
  rw [Sat, Sat, hl.truth_iff hm h.1, h.2]

end OpaqueLiteral

/-- All of the atoms are opaque. -/
def AllOpaque (r : Reading ctx) (ls : Distinct OpaqueLiteral) : Prop :=
  ∀ l ∈ ls.toList, r.IsOpaque l.atom

namespace AllOpaque

variable {ls ms : Distinct OpaqueLiteral}

theorem members (h : AllOpaque r ls) : ∀ l ∈ ls.toList, l.atom.IsMember :=
  fun l hl ↦ (h l hl).member

/-- What some literals say holds if each of them is among others that hold. -/
theorem sat_of_classes (hl : AllOpaque r ls) (hm : AllOpaque r ms)
    (h : ∀ m ∈ ms.toList, ∃ l ∈ ls.toList, l.class_ = m.class_)
    (hsat : ∀ l ∈ ls.toList, l.Sat r) : ∀ m ∈ ms.toList, m.Sat r := by
  intro m hmem
  obtain ⟨l, hlmem, hclass⟩ := h m hmem
  exact (OpaqueLiteral.sat_congr (hl l hlmem) (hm m hmem) hclass).1 (hsat l hlmem)

theorem union (hl : AllOpaque r ls) (hm : AllOpaque r ms) : AllOpaque r (ls.union ms) :=
  fun l h ↦ (Distinct.mem_of_mem_union h).elim (hl l) (hm l)

theorem inter (hl : AllOpaque r ls) (hm : AllOpaque r ms) : AllOpaque r (ls.inter ms) :=
  fun l h ↦ (Distinct.mem_of_mem_inter h).elim (hl l) (hm l)

theorem sat_union (hl : AllOpaque r ls) (hm : AllOpaque r ms) :
    (∀ l ∈ (ls.union ms).toList, l.Sat r) ↔
      (∀ l ∈ ls.toList, l.Sat r) ∧ ∀ m ∈ ms.toList, m.Sat r := by
  have hclass := fun k ↦
    Distinct.exists_union OpaqueLiteral.decidedBy_tag hl.members hm.members k
  constructor
  · intro h
    refine ⟨sat_of_classes (hl.union hm) hl ?_ h, sat_of_classes (hl.union hm) hm ?_ h⟩
    · exact fun l hmem ↦ (hclass _).2 (.inl ⟨l, hmem, rfl⟩)
    · exact fun m hmem ↦ (hclass _).2 (.inr ⟨m, hmem, rfl⟩)
  · rintro ⟨hls, hms⟩ l hmem
    exact (Distinct.mem_of_mem_union hmem).elim (hls l) (hms l)

theorem sat_congr (hl : AllOpaque r ls) (hm : AllOpaque r ms) (h : (ls == ms) = true) :
    (∀ l ∈ ls.toList, l.Sat r) ↔ ∀ m ∈ ms.toList, m.Sat r := by
  have hclass := (Distinct.beq_iff OpaqueLiteral.decidedBy_tag hl.members hm.members).1 h
  constructor
  · exact sat_of_classes hl hm fun m hmem ↦ (hclass _).2 ⟨m, hmem, rfl⟩
  · exact sat_of_classes hm hl fun l hmem ↦ (hclass _).1 ⟨l, hmem, rfl⟩

end AllOpaque

/-- No atom stands among the literals both as it is and negated. -/
def Consistent (ls : Distinct OpaqueLiteral) : Prop :=
  ∀ l ∈ ls.toList, ∀ m ∈ ls.toList, l.atom.tag = m.atom.tag → l.positive = m.positive

theorem Consistent.inter {ls ms : Distinct OpaqueLiteral} (hl : Consistent ls)
    (hm : Consistent ms) : Consistent (ls.inter ms) := by
  rcases Distinct.inter_sublist_or ls ms with h | h
  · exact fun l hl' m hm' ↦ hl l (h.subset hl') m (h.subset hm')
  · exact fun l hl' m hm' ↦ hm l (h.subset hl') m (h.subset hm')

/-! ## Constraints -/

/-- The attributes are what the constraints demand. -/
def ConstraintsHold (r : Reading ctx) (cs : List (String × ValueSet)) : Prop :=
  ∀ c ∈ cs, c.2.Mem (r.value c.1)

/-- The constraints are demands on ascending attributes. -/
structure ConstraintsValid (r : Reading ctx) (cs : List (String × ValueSet)) : Prop where
  demands : ∀ c ∈ cs, c.2.Demand r c.1
  ascending : cs.Pairwise fun c d ↦ c.1 < d.1

theorem constraintsHold_cons {a : String} {vs : ValueSet} {cs : List (String × ValueSet)} :
    ConstraintsHold r ((a, vs) :: cs) ↔ vs.Mem (r.value a) ∧ ConstraintsHold r cs :=
  List.forall_mem_cons

theorem constraintsValid_cons {a : String} {vs : ValueSet} {cs : List (String × ValueSet)} :
    ConstraintsValid r ((a, vs) :: cs) ↔
      vs.Demand r a ∧ (∀ c ∈ cs, a < c.1) ∧ ConstraintsValid r cs := by
  constructor
  · rintro ⟨hd, ha⟩
    rw [List.forall_mem_cons] at hd
    rw [List.pairwise_cons] at ha
    exact ⟨hd.1, ha.1, hd.2, ha.2⟩
  · rintro ⟨hd, ha, hcs⟩
    exact ⟨List.forall_mem_cons.2 ⟨hd, hcs.demands⟩, List.pairwise_cons.2 ⟨ha, hcs.ascending⟩⟩

namespace Term

section constrain

variable {a : String} {vs : ValueSet} {cs cs' : List (String × ValueSet)}

theorem constrain?_cons (a b : String) (us vs : ValueSet) (rest : List (String × ValueSet)) :
    constrain? a vs ((b, us) :: rest) =
      if b = a then
        if (us.inter vs).isEmpty then none else some ((b, us.inter vs) :: rest)
      else if a < b then some ((a, vs) :: (b, us) :: rest)
      else (constrain? a vs rest).map ((b, us) :: ·) := by
  rw [constrain?]
  simp only [beq_iff_eq]

/-- How a constraint is added to other ones: it overlaps with the one on its attribute, or it gets
its place among the others. -/
inductive Constrains (a : String) (vs : ValueSet) :
    List (String × ValueSet) → List (String × ValueSet) → Prop
  | last : Constrains a vs [] [(a, vs)]
  | overlap {us : ValueSet} {rest : List (String × ValueSet)}
      (hne : ¬ (us.inter vs).isEmpty = true) :
      Constrains a vs ((a, us) :: rest) ((a, us.inter vs) :: rest)
  | before {b : String} {us : ValueSet} {rest : List (String × ValueSet)} (hab : a < b) :
      Constrains a vs ((b, us) :: rest) ((a, vs) :: (b, us) :: rest)
  | behind {b : String} {us : ValueSet} {rest rest' : List (String × ValueSet)} (hba : b < a)
      (hrest : Constrains a vs rest rest') :
      Constrains a vs ((b, us) :: rest) ((b, us) :: rest')

theorem constrains_of_constrain? (h : constrain? a vs cs = some cs') : Constrains a vs cs cs' := by
  induction cs generalizing cs' with
  | nil =>
    cases h
    exact .last
  | cons d rest ih =>
    obtain ⟨b, us⟩ := d
    rw [constrain?_cons] at h
    split at h
    · rename_i hba
      subst hba
      split at h
      · cases h
      · rename_i hne
        cases h
        exact .overlap hne
    rename_i hba
    split at h
    · rename_i hab
      cases h
      exact .before hab
    · rename_i hab
      obtain ⟨rest', hrest, rfl⟩ := Option.map_eq_some_iff.1 h
      refine .behind ?_ (ih hrest)
      by_contra hlt
      exact hba (String.le_antisymm (String.not_lt.1 hab) (String.not_lt.1 hlt))

/-- A constraint is added to the constraints on other attributes. -/
theorem Constrains.attr_of_mem (h : Constrains a vs cs cs') :
    ∀ c ∈ cs', c.1 = a ∨ ∃ d ∈ cs, c.1 = d.1 := by
  induction h with
  | last => simp
  | overlap =>
    exact List.forall_mem_cons.2
      ⟨.inl rfl, fun c hc ↦ .inr ⟨c, List.mem_cons_of_mem _ hc, rfl⟩⟩
  | before => exact List.forall_mem_cons.2 ⟨.inl rfl, fun c hc ↦ .inr ⟨c, hc, rfl⟩⟩
  | behind _ _ ih =>
    refine List.forall_mem_cons.2 ⟨.inr ⟨_, List.mem_cons_self, rfl⟩, fun c hc ↦ ?_⟩
    exact (ih c hc).imp_right fun ⟨d, hd, hcd⟩ ↦ ⟨d, List.mem_cons_of_mem _ hd, hcd⟩

theorem valid_constrain? (hvs : vs.Demand r a) (hcs : ConstraintsValid r cs)
    (h : constrain? a vs cs = some cs') : ConstraintsValid r cs' := by
  replace h := constrains_of_constrain? h
  induction h with
  | last => exact constraintsValid_cons.2 ⟨hvs, by simp, ⟨by simp, .nil⟩⟩
  | overlap hne =>
    obtain ⟨hus, ha, hrest⟩ := constraintsValid_cons.1 hcs
    exact constraintsValid_cons.2 ⟨hus.inter hvs hne, ha, hrest⟩
  | before hab =>
    have hb := (constraintsValid_cons.1 hcs).2.1
    exact constraintsValid_cons.2
      ⟨hvs, List.forall_mem_cons.2 ⟨hab, fun c hc ↦ String.lt_trans hab (hb c hc)⟩, hcs⟩
  | behind hba hadded ih =>
    obtain ⟨hus, hb, hrest⟩ := constraintsValid_cons.1 hcs
    refine constraintsValid_cons.2 ⟨hus, fun c hc ↦ ?_, ih hrest⟩
    rcases hadded.attr_of_mem c hc with hca | ⟨d, hd, hcd⟩
    · rwa [hca]
    · rw [hcd]
      exact hb d hd

theorem hold_constrain? (hvs : vs.Demand r a) (hcs : ConstraintsValid r cs) :
    (∃ cs', constrain? a vs cs = some cs' ∧ ConstraintsHold r cs') ↔
      ConstraintsHold r cs ∧ vs.Mem (r.value a) := by
  induction cs with
  | nil =>
    simp [constrain?, ConstraintsHold]
  | cons d rest ih =>
    obtain ⟨b, us⟩ := d
    obtain ⟨hus, hb, hrest⟩ := constraintsValid_cons.1 hcs
    rw [constrain?_cons]
    split
    · rename_i hba
      subst hba
      have hinter := ValueSet.mem_inter (hus.sameShape hvs) (r.value b)
      split
      · rename_i hempty
        have hnot := (ValueSet.isEmpty_iff _).1 hempty (r.value b)
        rw [hinter] at hnot
        rw [constraintsHold_cons]
        refine iff_of_false (fun ⟨_, h, _⟩ ↦ (by cases h)) fun h ↦ hnot ⟨h.1.1, h.2⟩
      · simp only [Option.some.injEq, exists_eq_left', constraintsHold_cons, hinter]
        exact and_right_comm
    split
    · simp only [Option.some.injEq, exists_eq_left', constraintsHold_cons]
      exact and_comm
    · simp only [Option.map_eq_some_iff, constraintsHold_cons, and_assoc, ← ih hrest]
      constructor
      · rintro ⟨_, ⟨rest', hr, rfl⟩, h⟩
        rw [constraintsHold_cons] at h
        exact ⟨h.1, rest', hr, h.2⟩
      · rintro ⟨hu, rest', hr, h⟩
        exact ⟨_, ⟨rest', hr, rfl⟩, constraintsHold_cons.2 ⟨hu, h⟩⟩

end constrain

end Term

end RuleCoverage
