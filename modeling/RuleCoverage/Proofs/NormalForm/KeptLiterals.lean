import RuleCoverage.Proofs.NormalForm.Conservation
import RuleCoverage.Proofs.NormalForm.Inference

/-!
# Literals stay where no weight is lost

An opaque literal weighs two at least, so a conjunction of two terms that weighs as much as the
terms has all their literals (`Term.literals_of_conjoin?`), and so have the conjunctions of two
lists that weigh as much as the lists.  If demands weigh nothing, two terms are not merged without a
loss.  Hence the atoms on attributes without a kind are still there in an expansion that has lost no
weight (`Term.conserved_keepsKindless`).
-/

set_option autoImplicit false

namespace RuleCoverage

namespace Term

variable {ctx : Interpretation} {r : Reading ctx} {w : Weighting} {s t u : Term} {ss ts : List Term}

section heavy

variable (hliteral : ∀ k, 2 ≤ w.literal k)
include hliteral

/-- Some of the literals weigh as much as all of them only if they are all of them. -/
theorem eq_or_literalsWeight_lt {ls ms : List OpaqueLiteral} (h : ls.Sublist ms) :
    ls = ms ∨ literalsWeight w ls < literalsWeight w ms := by
  induction h with
  | slnil => exact .inl rfl
  | @cons ls ms l hsub _ =>
    right
    have hle := literalsWeight_sublist (w := w) hsub
    have hpos := literalsWeight_pos (w := w) ms
    have htwo := Nat.mul_le_mul_right (literalsWeight w ms) (hliteral l.class_)
    rw [literalsWeight_cons]
    omega
  | @cons_cons ls ms l _ ih =>
    refine ih.imp (congrArg (l :: ·)) fun hlt ↦ ?_
    rw [literalsWeight_cons, literalsWeight_cons]
    exact Nat.mul_lt_mul_of_pos_left hlt (w.literal_pos _)

/-- A conjunction that weighs as much as its parts has all their literals. -/
theorem literals_of_conjoin? (hs : s.Valid r) (ht : t.Valid r) (h : s.conjoin? t = some u)
    (hle : s.weight w * t.weight w ≤ u.weight w) :
    u.literals.toList = s.literals.toList ++ t.literals.toList := by
  obtain ⟨hcs, hls, -⟩ := conjoin?_eq_some.1 h
  obtain ⟨ys, hys, heq⟩ := Distinct.exists_union_toList s.literals t.literals
  rw [hls, heq]
  refine (eq_or_literalsWeight_lt hliteral hys).elim (congrArg _) fun hlt ↦ absurd hle ?_
  have hspos := weight_pos (w := w) hs
  have hcpos := constraintsWeight_pos (w := w) ht.constraints
  rw [Nat.not_le]
  calc u.weight w
      ≤ constraintsWeight w s.constraints * constraintsWeight w t.constraints *
          (literalsWeight w s.literals.toList * literalsWeight w ys) := by
        rw [weight, hls, heq, literalsWeight_append]
        exact Nat.mul_le_mul_right _ (constraintsWeight_foldlM hcs)
    _ = s.weight w * (constraintsWeight w t.constraints * literalsWeight w ys) := by
        rw [weight, Nat.mul_mul_mul_comm]
    _ < s.weight w * t.weight w := by
        rw [weight.eq_def w t]
        exact Nat.mul_lt_mul_of_pos_left (Nat.mul_lt_mul_of_pos_left hlt hcpos) hspos

end heavy

/-- Two lists whose conjunctions weigh as much as they do have one for each pair of terms, and it
weighs as much as the pair. -/
theorem conjoin?_of_totalWeight_conjunctions (hss : AllValid r ss) (hts : AllValid r ts)
    (h : totalWeight w ss * totalWeight w ts ≤ totalWeight w (conjunctions ss ts)) :
    ∀ s ∈ ss, ∀ t ∈ ts, ∃ u, s.conjoin? t = some u ∧ s.weight w * t.weight w ≤ u.weight w := by
  have hone : ∀ {s : Term}, s.Valid r → s.weight w * totalWeight w ts ≤
      totalWeight w (ts.filterMap s.conjoin?) → ∀ t ∈ ts, ∃ u, s.conjoin? t = some u ∧
        s.weight w * t.weight w ≤ u.weight w := by
    clear h
    intro s hs h
    induction ts with
    | nil => exact List.forall_mem_nil _
    | cons t ts ih =>
      have hpos := Nat.mul_le_mul (weight_pos (w := w) hs)
        (weight_pos (w := w) (hts t List.mem_cons_self))
      have hrest : totalWeight w (ts.filterMap s.conjoin?) ≤ s.weight w * totalWeight w ts :=
        totalWeight_filterMap_conjoin?
      have hts' : AllValid r ts := fun u hu ↦ hts u (List.mem_cons_of_mem _ hu)
      rw [totalWeight_cons, Nat.mul_add, List.filterMap_cons] at h
      split at h
      · omega
      · rename_i u hu
        have hpair := weight_conjoin? (w := w) hu
        rw [totalWeight_cons] at h
        exact List.forall_mem_cons.2 ⟨⟨u, hu, by omega⟩, ih hts' (by omega)⟩
  rw [conjunctions] at h
  induction ss with
  | nil => exact List.forall_mem_nil _
  | cons s ss ih =>
    have hfirst : totalWeight w (ts.filterMap s.conjoin?) ≤ s.weight w * totalWeight w ts :=
      totalWeight_filterMap_conjoin?
    have hrest : totalWeight w (conjunctions ss ts) ≤ totalWeight w ss * totalWeight w ts :=
      totalWeight_conjunctions
    rw [conjunctions] at hrest
    rw [List.flatMap_cons, totalWeight_append, totalWeight_cons, Nat.add_mul] at h
    exact List.forall_mem_cons.2 ⟨hone (hss s List.mem_cons_self) (by omega),
      ih (fun u hu ↦ hss u (List.mem_cons_of_mem _ hu)) (by omega)⟩

/-- The atoms on attributes that have no kind are among the literals of the terms. -/
def KeepsKindless (ctx : Interpretation) (atoms : List Predicate) (ts : List Term) : Prop :=
  ∀ atom ∈ atoms, ∀ a, atom.named? = some a → ctx.kind? a = none →
    ∃ t ∈ ts, ∃ l ∈ t.literals.toList, l.atom = atom

/-- **Atoms on attributes without a kind stay where no weight is lost**, if demands weigh one and
literals two at least. -/
theorem conserved_keepsKindless (hliteral : ∀ k, 2 ≤ w.literal k)
    (hvalues : ∀ a vs, ctx.kind? a ≠ none → w.values a vs = 1) :
    Conserved r w (KeepsKindless ctx) where
  append := by
    intro A B ss ts hA hB atom hatom a hn hk
    rcases List.mem_append.1 hatom with hatom | hatom
    · obtain ⟨t, ht, h⟩ := hA atom hatom a hn hk
      exact ⟨t, List.mem_append_left _ ht, h⟩
    · obtain ⟨t, ht, h⟩ := hB atom hatom a hn hk
      exact ⟨t, List.mem_append_right _ ht, h⟩
  conjunctions := by
    intro A B ss ts hss hts hsne htne hle hA hB atom hatom a hn hk
    have hpairs := conjoin?_of_totalWeight_conjunctions hss.valid hts.valid hle
    have hmem : ∀ s ∈ ss, ∀ t ∈ ts, ∃ u ∈ conjunctions ss ts,
        u.literals.toList = s.literals.toList ++ t.literals.toList := by
      intro s hs t ht
      obtain ⟨u, hu, hweight⟩ := hpairs s hs t ht
      refine ⟨u, ?_, literals_of_conjoin? hliteral (hss s hs).1 (hts t ht).1 hu hweight⟩
      rw [conjunctions, List.mem_flatMap]
      exact ⟨s, hs, List.mem_filterMap.2 ⟨t, ht, hu⟩⟩
    rcases List.mem_append.1 hatom with hatom | hatom
    · obtain ⟨s, hs, l, hl, rfl⟩ := hA atom hatom a hn hk
      obtain ⟨t, ht⟩ := List.exists_mem_of_ne_nil ts htne
      obtain ⟨u, hu, hls⟩ := hmem s hs t ht
      exact ⟨u, hu, l, hls ▸ List.mem_append_left _ hl, rfl⟩
    · obtain ⟨t, ht, l, hl, rfl⟩ := hB atom hatom a hn hk
      obtain ⟨s, hs⟩ := List.exists_mem_of_ne_nil ss hsne
      obtain ⟨u, hu, hls⟩ := hmem s hs t ht
      exact ⟨u, hu, l, hls ▸ List.mem_append_right _ hl, rfl⟩
  merge := by
    -- the union of two demands weighs one, and not two
    intro A us s t rest m hperm hus hm _ hle _
    have hmem : ∀ u ∈ s :: t :: rest, u ∈ us := fun u hu ↦ hperm.mem_iff.2 hu
    have hs := hmem s (by simp)
    have ht := hmem t (by simp)
    exfalso
    rcases merge?_weight (w := w) (hus s hs).1 (hus t ht).1 hm with
      hlt | ⟨a, vs, vs', k, hvs, -, -, hk, hsw, htw, hmw⟩
    · exact absurd hle (Nat.not_le.2 hlt)
    obtain ⟨full, hfull, -⟩ := ((hus s hs).1.constraints.demands _ hvs).full
    have hone := fun vs ↦ hvalues a vs (Interpretation.kind?_ne_none hfull)
    rw [hsw, htw, hmw, hone, hone, hone] at hle
    omega

end Term

end RuleCoverage
