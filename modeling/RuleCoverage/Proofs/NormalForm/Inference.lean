import RuleCoverage.Proofs.Feature.Conformance
import RuleCoverage.Proofs.NormalForm.Simplification

/-!
# Inferred kinds

Without a schema the kind of an attribute is what the literals say that it is compared with.  If
there are none it is that of texts; otherwise it is the kind that all of them have, and there is
none if they differ, or if all comparisons are with empty sets.

* `Interpretation.kind?_of_named` — only attributes that are named have a kind.
* `Interpretation.inferKind?_eq_some_iff` — which one that is.
-/

set_option autoImplicit false

namespace RuleCoverage

/-! ## Attributes -/

namespace Distinct

theorem mem_insert {s : Distinct String} {a b : String} :
    a ∈ (s.insert b).toList ↔ a ∈ s.toList ∨ a = b := by
  refine ⟨mem_of_mem_insert, fun h ↦ ?_⟩
  rcases h with h | rfl
  · exact mem_insert_of_mem h
  · rw [insert]
    split
    · rename_i hc
      obtain ⟨b, hb, hba⟩ := List.any_eq_true.1 hc
      rwa [← beq_iff_eq.1 hba]
    · exact List.mem_append_right _ (List.mem_singleton_self a)

theorem mem_foldl_insert {s : Distinct String} {xs : List String} {a : String} :
    a ∈ (xs.foldl insert s).toList ↔ a ∈ s.toList ∨ a ∈ xs := by
  induction xs generalizing s with
  | nil => simp
  | cons x xs ih => rw [List.foldl_cons, ih, mem_insert, List.mem_cons, or_assoc]

theorem mem_union {s t : Distinct String} {a : String} :
    a ∈ (s.union t).toList ↔ a ∈ s.toList ∨ a ∈ t.toList :=
  mem_foldl_insert

end Distinct

/-- An atom names the attribute. -/
def Predicate.Names (p : Predicate) (a : String) : Prop := ∃ atom ∈ p.atoms, atom.named? = some a

/-- An attribute is compared with something. -/
def Predicate.Compares (p : Predicate) (a : String) : Prop :=
  ∃ atom ∈ p.atoms, atom.named? = some a ∧ ∃ vs, atom.literals? = some vs ∧ vs ≠ []

theorem Predicate.mem_attributes {p : Predicate} {a : String} :
    a ∈ p.attributes.toList ↔ p.Names a := by
  induction p with
  | and p q ihp ihq | or p q ihp ihq =>
    have hunion : a ∈ (p.attributes.union q.attributes).toList ↔ p.Names a ∨ q.Names a := by
      rw [Distinct.mem_union, ihp, ihq]
    refine hunion.trans ?_
    simp only [Names, atoms, List.mem_append, or_and_right, exists_or]
  | not p ih => exact ih
  | always | never | bare | test =>
    simp [attributes, Names, atoms, named?, attr?]
  | compare b | isIn b | between b | isNull b =>
    cases hb : b.text? <;> simp [attributes, Names, atoms, named?, attr?, hb, eq_comm]

namespace Interpretation

variable {p : Predicate} {ctx : Interpretation} {a : String}

/-! ## Kinds -/

/-- A kind that some literals have in common is that of each of them. -/
theorem kind?_of_commonKind? {vs : List Literal} {k : Kind} (h : commonKind? vs = some k) :
    ∃ v ∈ vs, v.kind? = some k := by
  cases vs with
  | nil => cases h
  | cons v vs =>
    rw [commonKind?] at h
    split at h
    · exact ⟨v, List.mem_cons_self, h⟩
    · cases h

/-- An inferred kind is that of a literal that the attribute is compared with, or that of texts. -/
theorem literal_of_inferKind? {atoms : List Predicate} {k : Kind}
    (h : inferKind? atoms a = some k) : k = .string ∨ ∃ atom ∈ atoms, atom.named? = some a ∧
      ∃ s ∈ atom.scalars, s.kind? = some k := by
  rw [inferKind?] at h
  split at h
  · exact .inl (Option.some.inj h).symm
  · obtain ⟨v, hv, hkind⟩ := kind?_of_commonKind? h
    obtain ⟨vs, hvs, hv⟩ := List.mem_flatten.1 hv
    obtain ⟨atom, hatom, hliterals⟩ := List.mem_filterMap.1 hvs
    obtain ⟨hatom, hnamed⟩ := List.mem_filter.1 hatom
    refine .inr ⟨atom, hatom, beq_iff_eq.1 hnamed, ?_⟩
    cases v with
    | list | dict => cases hkind
    | scalar s =>
      refine ⟨s, ?_, hkind⟩
      rw [Predicate.scalars, hliterals]
      exact List.mem_filterMap.2 ⟨_, hv, rfl⟩

/-- Without a schema, the kind of an attribute is that of a literal, or that of texts. -/
theorem literal_of_kind? (h : Interpretation.of p none = .ok ctx) {k : Kind}
    (hk : ctx.kind? a = some k) : k = .string ∨ ∃ atom ∈ p.atoms, atom.named? = some a ∧
      ∃ s ∈ atom.scalars, s.kind? = some k := by
  obtain ⟨_, -, h⟩ := bind_eq_ok.1 h
  cases h
  rw [kind?] at hk
  have hmem := Dictionary.mem_of_get? (Option.join_eq_some_iff.1 hk)
  obtain ⟨b, -, heq⟩ := List.mem_map.1 hmem
  obtain ⟨rfl, hkind⟩ := Prod.mk.inj heq
  exact literal_of_inferKind? hkind

theorem commonKind?_eq_some_iff {vs : List Literal} {k : Kind} :
    commonKind? vs = some k ↔ vs ≠ [] ∧ ∀ v ∈ vs, v.kind? = some k := by
  cases vs with
  | nil => simp [commonKind?]
  | cons v vs =>
    rw [commonKind?, List.forall_mem_cons, and_iff_right (List.cons_ne_nil _ _)]
    split
    · rename_i hall
      simp only [List.all_eq_true, beq_iff_eq] at hall
      exact ⟨fun hv ↦ ⟨hv, fun w hw ↦ (hall w hw).trans hv⟩, fun h ↦ h.1⟩
    · rename_i hall
      refine iff_of_false (fun h ↦ by cases h) fun h ↦ hall ?_
      simp only [List.all_eq_true, beq_iff_eq]
      exact fun w hw ↦ (h.2 w hw).trans h.1.symm

/-- An attribute that is compared with nothing is taken for one of texts. -/
theorem inferKind?_eq_string {atoms : List Predicate}
    (h : ∀ atom ∈ atoms, atom.named? = some a → atom.literals? = none) :
    inferKind? atoms a = some .string := by
  have hnone : (atoms.filter fun p ↦ (p.attr?.bind Literal.text?) == some a).filterMap
      Predicate.literals? = [] := by
    rw [List.filterMap_eq_nil_iff]
    intro atom hatom
    obtain ⟨hatom, hn⟩ := List.mem_filter.1 hatom
    exact h atom hatom (beq_iff_eq.1 hn)
  simp only [inferKind?, hnone]

/-- An attribute that is compared with something has the kind of the literals. -/
theorem inferKind?_eq_some_iff {atoms : List Predicate} {k : Kind}
    (h : ∃ atom ∈ atoms, atom.named? = some a ∧ atom.literals? ≠ none) :
    inferKind? atoms a = some k ↔
      (∃ atom ∈ atoms, atom.named? = some a ∧ ∃ vs, atom.literals? = some vs ∧ vs ≠ []) ∧
        ∀ atom ∈ atoms, atom.named? = some a → ∀ vs, atom.literals? = some vs →
          ∀ v ∈ vs, v.kind? = some k := by
  have hmem : ∀ vs, vs ∈ (atoms.filter fun p ↦ (p.attr?.bind Literal.text?) == some a).filterMap
      Predicate.literals? ↔
        ∃ atom ∈ atoms, atom.named? = some a ∧ atom.literals? = some vs := by
    intro vs
    simp only [List.mem_filterMap, List.mem_filter, beq_iff_eq, and_assoc]
    rfl
  rw [inferKind?]
  generalize (atoms.filter fun p ↦ (p.attr?.bind Literal.text?) == some a).filterMap
    Predicate.literals? = compared at hmem
  split
  · obtain ⟨atom, hatom, hn, hls⟩ := h
    obtain ⟨vs, hvs⟩ := Option.ne_none_iff_exists'.1 hls
    exact absurd ((hmem vs).2 ⟨atom, hatom, hn, hvs⟩) List.not_mem_nil
  · rw [commonKind?_eq_some_iff, ne_eq, List.flatten_eq_nil_iff, not_forall]
    simp only [List.mem_flatten, hmem]
    constructor
    · rintro ⟨⟨vs, hvs⟩, hall⟩
      rw [Classical.not_imp] at hvs
      obtain ⟨⟨atom, hatom, hn, hls⟩, hne⟩ := hvs
      exact ⟨⟨atom, hatom, hn, vs, hls, hne⟩, fun atom hatom hn vs hls v hv ↦
        hall v ⟨vs, ⟨atom, hatom, hn, hls⟩, hv⟩⟩
    · rintro ⟨⟨atom, hatom, hn, vs, hls, hne⟩, hall⟩
      refine ⟨⟨vs, Classical.not_imp.2 ⟨⟨atom, hatom, hn, hls⟩, hne⟩⟩, ?_⟩
      rintro v ⟨vs, ⟨atom, hatom, hn, hls⟩, hv⟩
      exact hall atom hatom hn vs hls v hv

/-- It does not matter in which order the atoms stand, or how often. -/
theorem inferKind?_congr {atoms atoms' : List Predicate}
    (h : ∀ atom, atom ∈ atoms ↔ atom ∈ atoms') :
    inferKind? atoms a = inferKind? atoms' a := by
  by_cases hls : ∃ atom ∈ atoms, atom.named? = some a ∧ atom.literals? ≠ none
  · have hls' : ∃ atom ∈ atoms', atom.named? = some a ∧ atom.literals? ≠ none := by
      simpa only [h] using hls
    refine Option.ext fun k ↦ ?_
    rw [inferKind?_eq_some_iff hls, inferKind?_eq_some_iff hls']
    simp only [h]
  · have hnone : ∀ atom ∈ atoms, atom.named? = some a → atom.literals? = none :=
      fun atom hatom hn ↦ by_contra fun hne ↦ hls ⟨atom, hatom, hn, hne⟩
    rw [inferKind?_eq_string hnone, inferKind?_eq_string (by simpa only [h] using hnone)]

/-- The kind of an attribute that is named is inferred. -/
theorem kind?_of_named (h : Interpretation.of p none = .ok ctx) (ha : p.Names a) :
    ctx.kind? a = inferKind? p.atoms a := by
  obtain ⟨_, -, h⟩ := bind_eq_ok.1 h
  cases h
  rw [← Predicate.mem_attributes] at ha
  have hget : ∀ attrs : List String, a ∈ attrs →
      Dictionary.get? a (attrs.map fun b ↦ (b, inferKind? p.atoms b)) =
        some (inferKind? p.atoms a) := by
    intro attrs hattrs
    induction attrs with
    | nil => cases hattrs
    | cons b attrs ih =>
      rw [List.map_cons, Dictionary.get?]
      split
      · rename_i hba
        rw [beq_iff_eq.1 hba]
      · rename_i hba
        refine ih ((List.mem_cons.1 hattrs).resolve_left fun hab ↦ hba ?_)
        rw [hab, beq_self_eq_true]
  show (Dictionary.get? a _).join = _
  rw [hget _ ha, Option.join_some]

/-- An attribute that has a kind is named. -/
theorem names_of_kind? (h : Interpretation.of p none = .ok ctx) {k : Kind}
    (hk : ctx.kind? a = some k) : p.Names a := by
  obtain ⟨_, -, h⟩ := bind_eq_ok.1 h
  cases h
  rw [kind?] at hk
  have hmem := Dictionary.mem_of_get? (Option.join_eq_some_iff.1 hk)
  obtain ⟨b, hb, heq⟩ := List.mem_map.1 hmem
  obtain ⟨rfl, -⟩ := Prod.mk.inj heq
  exact Predicate.mem_attributes.1 hb

end Interpretation

end RuleCoverage
