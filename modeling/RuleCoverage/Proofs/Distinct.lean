import RuleCoverage.Literal.Basic

/-!
# Sets up to a classification

A `Distinct` set holds its members up to `==`.  Where `==` amounts to being of the same class, such
as scalars of the same key, the operations are the operations on classes, whichever representative
they keep.

The classification need not decide `==` everywhere: predicates with lists in them are compared in a
way that is not even transitive.  So the statements are about sets whose members are known to have a
property, and `DecidedBy P f` says that among values with the property `P` the classes are decided
by `f`.

## What is here

* `Distinct.mem_of_mem_union`, `Distinct.mem_of_mem_inter` — no operation makes up members.
* `Distinct.exists_foldl_insert`, `Distinct.toList_ofList` — in what order the members stand.
* `Distinct.exists_union`, `Distinct.exists_inter`, `Distinct.exists_diff` — which classes there are
  in the result.
* `Distinct.subset_iff`, `Distinct.beq_iff` — comparing sets is comparing their classes.
-/

set_option autoImplicit false

namespace RuleCoverage

namespace Distinct

variable {α κ : Type} [BEq α] {s t : Distinct α} {x : α}

/-! ## Members -/

@[simp] theorem not_mem_empty (x : α) : x ∉ (∅ : Distinct α).toList := by
  intro h
  cases h

@[simp] theorem mem_singleton {a : α} : a ∈ (singleton x).toList ↔ a = x := List.mem_singleton

theorem mem_of_mem_insert {a : α} (h : a ∈ (s.insert x).toList) : a ∈ s.toList ∨ a = x := by
  rw [insert] at h
  split at h
  · exact .inl h
  · simpa using h

theorem mem_of_mem_foldl {xs : List α} {a : α} (h : a ∈ (xs.foldl insert s).toList) :
    a ∈ s.toList ∨ a ∈ xs := by
  induction xs generalizing s with
  | nil => exact .inl h
  | cons x xs ih =>
    rcases ih h with h | h
    · rcases mem_of_mem_insert h with h | rfl
      · exact .inl h
      · exact .inr List.mem_cons_self
    · exact .inr (List.mem_cons_of_mem _ h)

theorem mem_of_mem_ofList {xs : List α} {a : α} (h : a ∈ (ofList xs).toList) : a ∈ xs :=
  (mem_of_mem_foldl h).resolve_left (not_mem_empty a)

theorem mem_insert_of_mem {a : α} (h : a ∈ s.toList) : a ∈ (s.insert x).toList := by
  rw [insert]
  split
  · exact h
  · exact List.mem_append_left _ h

theorem mem_foldl_of_mem {xs : List α} {a : α} (h : a ∈ s.toList) :
    a ∈ (xs.foldl insert s).toList := by
  induction xs generalizing s with
  | nil => exact h
  | cons x xs ih => exact ih (mem_insert_of_mem h)

/-- Each item of a list is in its set, or an equal one is. -/
theorem exists_mem_ofList {xs : List α} {a : α} (h : a ∈ xs) :
    ∃ b ∈ (ofList xs).toList, b = a ∨ (b == a) = true := by
  rw [ofList]
  generalize (empty : Distinct α) = s
  induction xs generalizing s with
  | nil => cases h
  | cons x xs ih =>
    rcases List.mem_cons.1 h with rfl | h
    · rw [List.foldl_cons]
      by_cases hc : s.contains a = true
      · obtain ⟨b, hb, hba⟩ := List.any_eq_true.1 hc
        exact ⟨b, mem_foldl_of_mem (mem_insert_of_mem hb), .inr hba⟩
      · refine ⟨a, mem_foldl_of_mem ?_, .inl rfl⟩
        rw [insert, dif_neg hc]
        exact List.mem_append_right _ (List.mem_singleton_self a)
    · exact ih h (s.insert x)

theorem mem_of_mem_union {a : α} (h : a ∈ (s.union t).toList) : a ∈ s.toList ∨ a ∈ t.toList :=
  mem_of_mem_foldl h

theorem mem_filter {p : α → Bool} {a : α} :
    a ∈ (s.filter p).toList ↔ a ∈ s.toList ∧ p a = true := by
  rw [toList_filter, List.mem_filter]

theorem mem_diff {a : α} : a ∈ (s.diff t).toList ↔ a ∈ s.toList ∧ ¬ t.contains a = true := by
  rw [diff, mem_filter, Bool.not_eq_true', Bool.not_eq_true]

/-- The members of an intersection are all from the one set or all from the other. -/
theorem inter_sublist_or (s t : Distinct α) :
    (s.inter t).toList.Sublist s.toList ∨ (s.inter t).toList.Sublist t.toList := by
  rw [inter]
  split
  · exact .inl List.filter_sublist
  · exact .inr List.filter_sublist

theorem mem_of_mem_inter {a : α} (h : a ∈ (s.inter t).toList) : a ∈ s.toList ∨ a ∈ t.toList :=
  (inter_sublist_or s t).imp (fun hs ↦ hs.subset h) fun ht ↦ ht.subset h

theorem isEmpty_iff (s : Distinct α) : s.isEmpty = true ↔ ∀ a, a ∉ s.toList := by
  rw [isEmpty, List.isEmpty_iff, List.eq_nil_iff_forall_not_mem]

/-! ## Members as lists -/

/-- Adding values leaves the members where they are and puts some of the values behind them. -/
theorem exists_foldl_insert (xs : List α) (s : Distinct α) :
    ∃ ys, ys.Sublist xs ∧ (xs.foldl insert s).toList = s.toList ++ ys := by
  induction xs generalizing s with
  | nil => exact ⟨[], .slnil, by simp⟩
  | cons x xs ih =>
    obtain ⟨ys, hys, heq⟩ := ih (s.insert x)
    rw [List.foldl_cons, heq, insert]
    split
    · exact ⟨ys, hys.cons x, rfl⟩
    · exact ⟨x :: ys, hys.cons_cons x, by simp⟩

theorem exists_union_toList (s t : Distinct α) :
    ∃ ys, ys.Sublist t.toList ∧ (s.union t).toList = s.toList ++ ys :=
  exists_foldl_insert t.toList s

theorem dedup_sublist (xs : List α) : (ofList xs).toList.Sublist xs := by
  obtain ⟨ys, hys, heq⟩ := exists_foldl_insert xs (empty : Distinct α)
  rw [ofList, heq]
  exact hys

theorem toList_insert_of_not_contains (h : ¬ s.contains x = true) :
    (s.insert x).toList = s.toList ++ [x] := by
  rw [insert, dif_neg h]

theorem toList_foldl_insert {xs : List α}
    (h : (s.toList ++ xs).Pairwise fun a b ↦ (a == b) = false) :
    (xs.foldl insert s).toList = s.toList ++ xs := by
  induction xs generalizing s with
  | nil => rw [List.foldl_nil, List.append_nil]
  | cons x xs ih =>
    have hx : ¬ s.contains x = true := by
      rw [contains, List.any_eq_true]
      rintro ⟨a, ha, hax⟩
      have hne := (List.pairwise_append.1 h).2.2 a ha x List.mem_cons_self
      rw [hax] at hne
      cases hne
    have hlist := toList_insert_of_not_contains hx
    rw [List.foldl_cons, ih, hlist, List.append_assoc, List.singleton_append]
    rwa [hlist, List.append_assoc, List.singleton_append]

/-- The set of a list without repetitions is the list. -/
theorem toList_ofList {xs : List α} (h : xs.Pairwise fun a b ↦ (a == b) = false) :
    (ofList xs).toList = xs :=
  toList_foldl_insert (s := empty) h

/-! ## Classes -/

/-- Among the values with `P`, two are equal when they are of the same class. -/
def DecidedBy (P : α → Prop) (f : α → κ) : Prop :=
  ∀ a b, P a → P b → ((a == b) = true ↔ f a = f b)

variable {P : α → Prop} {f : α → κ}

theorem contains_iff (hf : DecidedBy P f) (hs : ∀ a ∈ s.toList, P a) (hx : P x) :
    s.contains x = true ↔ ∃ a ∈ s.toList, f a = f x := by
  rw [contains, List.any_eq_true]
  exact exists_congr fun a ↦ and_congr_right fun ha ↦ hf a x (hs a ha) hx

theorem exists_insert (hf : DecidedBy P f) (hs : ∀ a ∈ s.toList, P a) (hx : P x) (k : κ) :
    (∃ a ∈ (s.insert x).toList, f a = k) ↔ (∃ a ∈ s.toList, f a = k) ∨ f x = k := by
  rw [insert]
  split
  · rename_i h
    obtain ⟨a, ha, hax⟩ := (contains_iff hf hs hx).1 h
    refine ⟨.inl, fun h ↦ h.elim id fun hk ↦ ⟨a, ha, hax.trans hk⟩⟩
  · simp only [List.mem_append, List.mem_singleton, or_and_right, exists_or, exists_eq_left]

theorem exists_foldl (hf : DecidedBy P f) {xs : List α} (hs : ∀ a ∈ s.toList, P a)
    (hxs : ∀ a ∈ xs, P a) (k : κ) :
    (∃ a ∈ (xs.foldl insert s).toList, f a = k) ↔
      (∃ a ∈ s.toList, f a = k) ∨ ∃ a ∈ xs, f a = k := by
  induction xs generalizing s with
  | nil => simp
  | cons x xs ih =>
    have hx := hxs x List.mem_cons_self
    have hinsert : ∀ a ∈ (s.insert x).toList, P a := fun a ha ↦ by
      rcases mem_of_mem_insert ha with ha | rfl
      · exact hs a ha
      · exact hx
    rw [List.foldl_cons, ih hinsert fun a ha ↦ hxs a (List.mem_cons_of_mem _ ha),
      exists_insert hf hs hx]
    simp only [List.mem_cons, exists_eq_or_imp, or_assoc]

theorem exists_ofList (hf : DecidedBy P f) {xs : List α} (hxs : ∀ a ∈ xs, P a) (k : κ) :
    (∃ a ∈ (ofList xs).toList, f a = k) ↔ ∃ a ∈ xs, f a = k := by
  have hempty : ∀ a, a ∉ (empty : Distinct α).toList := not_mem_empty
  rw [ofList, exists_foldl hf (fun a ha ↦ absurd ha (hempty a)) hxs]
  refine or_iff_right ?_
  rintro ⟨a, ha, -⟩
  exact hempty a ha

theorem exists_union (hf : DecidedBy P f) (hs : ∀ a ∈ s.toList, P a) (ht : ∀ a ∈ t.toList, P a)
    (k : κ) :
    (∃ a ∈ (s.union t).toList, f a = k) ↔
      (∃ a ∈ s.toList, f a = k) ∨ ∃ a ∈ t.toList, f a = k :=
  exists_foldl hf hs ht k

theorem exists_diff (hf : DecidedBy P f) (hs : ∀ a ∈ s.toList, P a) (ht : ∀ a ∈ t.toList, P a)
    (k : κ) :
    (∃ a ∈ (s.diff t).toList, f a = k) ↔
      (∃ a ∈ s.toList, f a = k) ∧ ¬ ∃ a ∈ t.toList, f a = k := by
  simp only [mem_diff]
  constructor
  · rintro ⟨a, ⟨ha, hn⟩, rfl⟩
    exact ⟨⟨a, ha, rfl⟩, fun h ↦ hn ((contains_iff hf ht (hs a ha)).2 h)⟩
  · rintro ⟨⟨a, ha, rfl⟩, hn⟩
    exact ⟨a, ⟨ha, fun h ↦ hn ((contains_iff hf ht (hs a ha)).1 h)⟩, rfl⟩

theorem exists_inter (hf : DecidedBy P f) (hs : ∀ a ∈ s.toList, P a) (ht : ∀ a ∈ t.toList, P a)
    (k : κ) :
    (∃ a ∈ (s.inter t).toList, f a = k) ↔
      (∃ a ∈ s.toList, f a = k) ∧ ∃ a ∈ t.toList, f a = k := by
  -- whichever set the members are taken from
  have hfilter : ∀ u v : Distinct α, (∀ a ∈ u.toList, P a) → (∀ a ∈ v.toList, P a) →
      ((∃ a ∈ (u.filter v.contains).toList, f a = k) ↔
        (∃ a ∈ u.toList, f a = k) ∧ ∃ a ∈ v.toList, f a = k) := by
    intro u v hu hv
    simp only [mem_filter]
    constructor
    · rintro ⟨a, ⟨ha, hc⟩, rfl⟩
      exact ⟨⟨a, ha, rfl⟩, (contains_iff hf hv (hu a ha)).1 hc⟩
    · rintro ⟨⟨a, ha, rfl⟩, h⟩
      exact ⟨a, ⟨ha, (contains_iff hf hv (hu a ha)).2 h⟩, rfl⟩
  rw [inter]
  split
  · exact hfilter s t hs ht
  · rw [hfilter t s ht hs, and_comm]

/-! ## Comparing sets -/

theorem subset_iff (hf : DecidedBy P f) (hs : ∀ a ∈ s.toList, P a) (ht : ∀ a ∈ t.toList, P a) :
    s.subset t = true ↔ ∀ k, (∃ a ∈ s.toList, f a = k) → ∃ a ∈ t.toList, f a = k := by
  rw [subset, List.all_eq_true]
  constructor
  · rintro h k ⟨a, ha, rfl⟩
    exact (contains_iff hf ht (hs a ha)).1 (h a ha)
  · intro h a ha
    exact (contains_iff hf ht (hs a ha)).2 (h (f a) ⟨a, ha, rfl⟩)

theorem beq_iff (hf : DecidedBy P f) (hs : ∀ a ∈ s.toList, P a) (ht : ∀ a ∈ t.toList, P a) :
    (s == t) = true ↔ ∀ k, (∃ a ∈ s.toList, f a = k) ↔ ∃ a ∈ t.toList, f a = k := by
  have hdef : (s == t) = (s.subset t && t.subset s) := rfl
  rw [hdef, Bool.and_eq_true, subset_iff hf hs ht, subset_iff hf ht hs]
  exact ⟨fun h k ↦ ⟨h.1 k, h.2 k⟩, fun h ↦ ⟨fun k ↦ (h k).1, fun k ↦ (h k).2⟩⟩

end Distinct

/-! ## Sets of scalars -/

namespace Scalar

/-- Equality of scalars is equality of their keys. -/
theorem decidedBy_key : Distinct.DecidedBy (fun _ ↦ True) key := fun a b _ _ ↦ beq_iff_key a b

end Scalar

end RuleCoverage
