import Mathlib.Data.List.Perm.Subperm
import RuleCoverage.Proofs.Distinct

/-!
# Counting the members of sets

Sets hold no two equal members, so a set that is contained in another one is not larger, and equal
sets have, up to equality, the same members the same number of times.
-/

set_option autoImplicit false

namespace RuleCoverage

namespace Distinct

variable {α κ : Type} [BEq α] {s t u : Distinct α} {P : α → Prop} {f : α → κ}

theorem nodup_map (hf : DecidedBy P f) (hs : ∀ a ∈ s.toList, P a) : (s.toList.map f).Nodup := by
  rw [List.Nodup, List.pairwise_map]
  refine s.distinct.imp_of_mem fun {a b} ha hb hab hkey ↦ ?_
  rw [(hf a b (hs a ha) (hs b hb)).2 hkey] at hab
  cases hab

/-- The classes of a subset are among those of the set, each one once. -/
theorem map_subperm (hf : DecidedBy P f) (hs : ∀ a ∈ s.toList, P a) (ht : ∀ a ∈ t.toList, P a)
    (h : s.subset t = true) : (s.toList.map f).Subperm (t.toList.map f) := by
  refine (nodup_map hf hs).subperm fun k hk ↦ ?_
  obtain ⟨a, ha, rfl⟩ := List.mem_map.1 hk
  obtain ⟨b, hb, hba⟩ := (subset_iff hf hs ht).1 h (f a) ⟨a, ha, rfl⟩
  exact List.mem_map.2 ⟨b, hb, hba⟩

/-- Equal sets have the same classes. -/
theorem map_perm_of_beq (hf : DecidedBy P f) (hs : ∀ a ∈ s.toList, P a)
    (ht : ∀ a ∈ t.toList, P a) (h : (s == t) = true) : (s.toList.map f).Perm (t.toList.map f) := by
  change (s.subset t && t.subset s) = true at h
  rw [Bool.and_eq_true] at h
  exact (map_subperm hf hs ht h.1).antisymm (map_subperm hf ht hs h.2)

theorem size_eq_length_map (s : Distinct α) (f : α → κ) : s.size = (s.toList.map f).length :=
  (List.length_map ..).symm

/-! ## Sets of scalars -/

section scalars

variable {s t : Distinct Scalar}

theorem size_le_of_subset (h : s.subset t = true) : s.size ≤ t.size := by
  rw [size_eq_length_map s Scalar.key, size_eq_length_map t Scalar.key]
  exact (map_subperm Scalar.decidedBy_key (fun _ _ ↦ trivial) (fun _ _ ↦ trivial) h).length_le

theorem size_congr (h : (s == t) = true) : s.size = t.size := by
  rw [size_eq_length_map s Scalar.key, size_eq_length_map t Scalar.key]
  exact (map_perm_of_beq Scalar.decidedBy_key (fun _ _ ↦ trivial) (fun _ _ ↦ trivial) h).length_eq

/-- A subset that is no smaller has all the members. -/
theorem subset_of_size_le (h : s.subset t = true) (hsize : t.size ≤ s.size) :
    t.subset s = true := by
  have hsub := map_subperm Scalar.decidedBy_key (fun _ _ ↦ trivial) (fun _ _ ↦ trivial) h
  rw [size_eq_length_map s Scalar.key, size_eq_length_map t Scalar.key] at hsize
  have hperm := hsub.perm_of_length_le hsize
  rw [subset_iff Scalar.decidedBy_key (fun _ _ ↦ trivial) fun _ _ ↦ trivial]
  rintro k ⟨a, ha, rfl⟩
  exact List.mem_map.1 (hperm.mem_iff.2 (List.mem_map_of_mem ha))

end scalars

end Distinct

end RuleCoverage
