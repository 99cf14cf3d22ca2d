import RuleCoverage.Proofs.NormalForm.Irreducible
import RuleCoverage.Proofs.NormalForm.Rendering

/-!
# What is written in order is read in order

Members of sets, literals of terms and terms of a normal form are written in the order of their
texts.  Putting them in order once more changes nothing.
-/

set_option autoImplicit false

namespace RuleCoverage

theorem String.lt_or_eq_or_gt (s t : String) : s < t ∨ s = t ∨ t < s := by
  by_cases h : s < t
  · exact .inl h
  by_cases h' : t < s
  · exact .inr (.inr h')
  · exact .inr (.inl (String.le_antisymm (String.not_lt.1 h') (String.not_lt.1 h)))

section byText

variable {α : Type}

/-- Values are in the order of their texts. -/
def textOrder (text : α → String) (x y : α) : Bool := !(text y < text x)

theorem textOrder_iff {text : α → String} {x y : α} :
    textOrder text x y = true ↔ text x ≤ text y := by
  rw [textOrder, Bool.not_eq_true', decide_eq_false_iff_not, String.not_lt]

theorem textOrder_trans {text : α → String} (x y z : α) (hxy : textOrder text x y = true)
    (hyz : textOrder text y z = true) : textOrder text x z = true := by
  rw [textOrder_iff] at hxy hyz ⊢
  exact String.le_trans hxy hyz

theorem textOrder_total {text : α → String} (x y : α) :
    (textOrder text x y || textOrder text y x) = true := by
  rw [Bool.or_eq_true, textOrder_iff, textOrder_iff]
  exact String.le_total _ _

/-- Values that are in the order of their texts stay where they are. -/
theorem mergeSort_textOrder_mergeSort (text : α → String) (xs : List α) :
    (xs.mergeSort (textOrder text)).mergeSort (textOrder text) = xs.mergeSort (textOrder text) :=
  List.mergeSort_of_pairwise (List.pairwise_mergeSort textOrder_trans textOrder_total xs)

end byText

/-! ## Members of sets -/

namespace Distinct

variable {s t : Distinct Scalar}

theorem sorted_eq (s : Distinct Scalar) : s.sorted = s.toList.mergeSort (textOrder Scalar.repr) :=
  rfl

theorem sorted_perm (s : Distinct Scalar) : s.sorted.Perm s.toList := List.mergeSort_perm _ _

/-- The set as a membership in it is written. -/
def resorted (s : Distinct Scalar) : Distinct Scalar := ofList s.sorted

theorem toList_resorted (s : Distinct Scalar) : s.resorted.toList = s.sorted := by
  refine toList_ofList ((s.sorted_perm.pairwise_iff fun {x y} h ↦ ?_).2 s.distinct)
  rwa [BEq.comm]

theorem sorted_resorted (s : Distinct Scalar) : s.resorted.sorted = s.sorted := by
  rw [sorted_eq, toList_resorted]
  exact mergeSort_textOrder_mergeSort Scalar.repr s.toList

theorem mem_resorted {x : Scalar} : x ∈ s.resorted.toList ↔ x ∈ s.toList := by
  rw [toList_resorted, s.sorted_perm.mem_iff]

theorem hasKey_resorted {k : Option Scalar.Key} : s.resorted.HasKey k ↔ s.HasKey k :=
  exists_congr fun _ ↦ and_congr_left fun _ ↦ mem_resorted

theorem resorted_empty : (∅ : Distinct Scalar).resorted = ∅ := by
  have hsorted : (∅ : Distinct Scalar).sorted = [] := List.mergeSort_nil
  rw [resorted, hsorted]
  rfl

theorem size_resorted (s : Distinct Scalar) : s.resorted.size = s.size := by
  rw [size, toList_resorted, s.sorted_perm.length_eq, size]

end Distinct

/-! ## Terms of a normal form -/

namespace Predicate

theorem sorted_map {α : Type} (f : α → Predicate) (xs : List α) :
    sorted (xs.map f) = (xs.mergeSort (textOrder fun x ↦ (f x).text)).map f := by
  rw [sorted, List.map_map, ← List.map_mergeSort (r := textOrder fun x ↦ (f x).text)
    (f := (fun p : Predicate ↦ (p.text, p)) ∘ f) (fun _ _ _ _ ↦ rfl), List.map_map]
  rfl

end Predicate

namespace Term

variable {t : Term}

/-- The order in which opaque literals are written: by the texts of their atoms, and a negation
before the atom itself. -/
def literalOrder (l m : OpaqueLiteral) : Bool :=
  l.atom.text < m.atom.text || (l.atom.text == m.atom.text && (!l.positive || m.positive))

theorem sortedLiterals_eq (t : Term) :
    t.sortedLiterals = t.literals.toList.mergeSort literalOrder := by
  rw [sortedLiterals, ← List.map_mergeSort (r := literalOrder)
    (f := fun l : OpaqueLiteral ↦ (l.atom.text, l)) (fun _ _ _ _ ↦ rfl), List.map_map]
  exact List.map_id' _

theorem sortedLiterals_perm (t : Term) : t.sortedLiterals.Perm t.literals.toList := by
  rw [sortedLiterals_eq]
  exact List.mergeSort_perm _ _

theorem literalOrder_iff {l m : OpaqueLiteral} : literalOrder l m = true ↔
    l.atom.text < m.atom.text ∨
      (l.atom.text = m.atom.text ∧ (l.positive = false ∨ m.positive = true)) := by
  simp [literalOrder]

theorem literalOrder_trans (l m n : OpaqueLiteral) (hlm : literalOrder l m = true)
    (hmn : literalOrder m n = true) : literalOrder l n = true := by
  rw [literalOrder_iff] at hlm hmn ⊢
  rcases hlm with hlm | ⟨hlm, h⟩ <;> rcases hmn with hmn | ⟨hmn, h'⟩
  · exact .inl (String.lt_trans hlm hmn)
  · exact .inl (hmn ▸ hlm)
  · exact .inl (hlm ▸ hmn)
  · refine .inr ⟨hlm.trans hmn, ?_⟩
    cases hm : m.positive <;> simp_all

theorem literalOrder_total (l m : OpaqueLiteral) :
    (literalOrder l m || literalOrder m l) = true := by
  rw [Bool.or_eq_true, literalOrder_iff, literalOrder_iff]
  rcases String.lt_or_eq_or_gt l.atom.text m.atom.text with h | h | h
  · exact .inl (.inl h)
  · cases hl : l.positive <;> cases hm : m.positive <;> simp [h]
  · exact .inr (.inl h)

theorem pairwise_sortedLiterals (t : Term) :
    t.sortedLiterals.Pairwise fun l m ↦ literalOrder l m = true := by
  rw [sortedLiterals_eq]
  exact List.pairwise_mergeSort literalOrder_trans literalOrder_total _

/-- Literals that were read in the order in which they were written are written so again. -/
theorem sortedLiterals_of_toList {u : Term} (h : u.literals.toList = t.sortedLiterals) :
    u.sortedLiterals = t.sortedLiterals := by
  rw [sortedLiterals_eq u, h]
  exact List.mergeSort_of_pairwise t.pairwise_sortedLiterals

end Term

end RuleCoverage
