import RuleCoverage.Proofs.NormalForm.Terms

/-!
# Stronger terms and merged terms

A term that implies another one can be left out of a disjunction, and two terms that differ in one
place can be replaced by a single one.

## What is here

* `Term.sat_of_implies` — what a stronger term demands, a weaker one demands too.
* `Term.implies_refl`, `Term.implies_trans` — terms are preordered by strength.
* `Term.sat_merge?`, `Term.Valid.merge?` — a merged term says what either of the two says.
-/

set_option autoImplicit false

namespace RuleCoverage

variable {ctx : Interpretation} {r : Reading ctx}

namespace Dictionary

variable {β : Type} {a : String} {v : β} {entries : List (String × β)}

theorem mem_of_get? (h : get? a entries = some v) : (a, v) ∈ entries := by
  induction entries with
  | nil => cases h
  | cons e rest ih =>
    obtain ⟨k, w⟩ := e
    rw [get?] at h
    split at h
    · rename_i hk
      cases h
      rw [beq_iff_eq] at hk
      rw [hk]
      exact List.mem_cons_self
    · exact List.mem_cons_of_mem _ (ih h)

theorem get?_of_mem (hasc : entries.Pairwise fun e f ↦ e.1 < f.1) (h : (a, v) ∈ entries) :
    get? a entries = some v := by
  induction entries with
  | nil => cases h
  | cons e rest ih =>
    obtain ⟨k, w⟩ := e
    rw [List.pairwise_cons] at hasc
    rw [get?]
    rcases List.mem_cons.1 h with heq | hmem
    · cases heq
      rw [if_pos (beq_self_eq_true _)]
    · have hne : ¬ (k == a) = true := by
        rw [beq_iff_eq]
        intro hka
        exact String.lt_irrefl a (hka ▸ hasc.1 _ hmem)
      rw [if_neg hne]
      exact ih hasc.2 hmem

end Dictionary

namespace Term

variable {s t u : Term}

/-! ## Strength -/

theorem implies_iff (hs : s.Orderly ctx) (ht : t.Orderly ctx) : s.implies t = true ↔
    (∀ m ∈ t.literals.toList, ∃ l ∈ s.literals.toList, l.class_ = m.class_) ∧
      ∀ c ∈ t.constraints, ∃ us, (c.1, us) ∈ s.constraints ∧ us.subset c.2 = true := by
  rw [implies, Bool.and_eq_true, Distinct.subset_iff OpaqueLiteral.decidedBy_tag
    ht.members hs.members, List.all_eq_true]
  refine and_congr ⟨fun h m hm ↦ h _ ⟨m, hm, rfl⟩, ?_⟩ ?_
  · rintro h k ⟨m, hm, rfl⟩
    exact h m hm
  · refine forall_congr' fun c ↦ imp_congr_right fun _ ↦ ⟨fun h ↦ ?_, ?_⟩
    · simp only at h
      split at h
      · rename_i us hus
        exact ⟨us, Dictionary.mem_of_get? hus, h⟩
      · cases h
    · rintro ⟨us, hus, hsub⟩
      simp only [Dictionary.get?_of_mem hs.ascending hus, hsub]

theorem implies_refl (hs : s.Orderly ctx) : s.implies s = true := by
  rw [implies_iff hs hs]
  refine ⟨fun m hm ↦ ⟨m, hm, rfl⟩, fun c hc ↦ ⟨c.2, hc, ?_⟩⟩
  rw [ValueSet.subset_iff rfl]
  exact fun _ h ↦ h

theorem implies_trans (hs : s.Orderly ctx) (ht : t.Orderly ctx) (hu : u.Orderly ctx)
    (hst : s.implies t = true) (htu : t.implies u = true) : s.implies u = true := by
  rw [implies_iff hs ht] at hst
  rw [implies_iff ht hu] at htu
  rw [implies_iff hs hu]
  refine ⟨?_, ?_⟩
  · intro n hn
    obtain ⟨m, hm, hmn⟩ := htu.1 n hn
    obtain ⟨l, hl, hlm⟩ := hst.1 m hm
    exact ⟨l, hl, hlm.trans hmn⟩
  · intro c hc
    obtain ⟨vs, hvs, hvc⟩ := htu.2 c hc
    obtain ⟨us, hus, huv⟩ := hst.2 _ hvs
    have hfu := hs.fits _ hus
    have hfv := ht.fits _ hvs
    have hfc := hu.fits c hc
    refine ⟨us, hus, ?_⟩
    rw [ValueSet.subset_iff (hfu.sameShape hfv)] at huv
    rw [ValueSet.subset_iff (hfv.sameShape hfc)] at hvc
    rw [ValueSet.subset_iff (hfu.sameShape hfc)]
    exact fun v hv ↦ hvc v (huv v hv)

/-- A weaker term holds where a stronger one does. -/
theorem holds_of_implies {value : String → Option Value} {ctx' : Interpretation}
    {r' : Reading ctx'} (hs : s.Orderly ctx) (ht : t.Orderly ctx) (hsl : AllOpaque r' s.literals)
    (htl : AllOpaque r' t.literals) (h : s.implies t = true)
    (hholds : s.Holds value r'.truth) : t.Holds value r'.truth := by
  rw [implies_iff hs ht] at h
  refine ⟨?_, hsl.sat_of_classes htl h.1 hholds.2⟩
  intro c hc
  obtain ⟨us, hus, hsub⟩ := h.2 c hc
  have hshape := (hs.fits _ hus).sameShape (ht.fits c hc)
  exact (ValueSet.subset_iff hshape).1 hsub _ (hholds.1 _ hus)

/-- **A stronger term says all that a weaker one says.** -/
theorem sat_of_implies (hs : s.Valid r) (ht : t.Valid r) (h : s.implies t = true)
    (hsat : s.Sat r) : t.Sat r :=
  holds_of_implies hs.orderly ht.orderly hs.opaques ht.opaques h hsat

/-! ## Merging in one value set -/

section mergeValues

variable {cs ds ms : List (String × ValueSet)}

theorem mergeValues?_cons {full? : String → Option ValueSet} {a b : String} {us vs : ValueSet} :
    mergeValues? full? ((a, us) :: cs) ((b, vs) :: ds) =
      if a ≠ b then none
      else if us == vs then (mergeValues? full? cs ds).map ((a, us) :: ·)
      else if cs == ds then
        some (if full? a == some (us.union vs) then cs else (a, us.union vs) :: cs)
      else none := by
  rw [mergeValues?]
  simp only [bne_iff_ne]

/-- How constraints are merged: they agree but for the values of one attribute, which are joined, or
left out if they are all that the attribute may be. -/
inductive Merges (full? : String → Option ValueSet) : List (String × ValueSet) →
    List (String × ValueSet) → List (String × ValueSet) → Prop
  | agree {a : String} {us vs : ValueSet} {cs ds ms : List (String × ValueSet)}
      (huv : (us == vs) = true) (hrest : Merges full? cs ds ms) :
      Merges full? ((a, us) :: cs) ((a, vs) :: ds) ((a, us) :: ms)
  | join {a : String} {us vs : ValueSet} {cs ds : List (String × ValueSet)}
      (hrest : (cs == ds) = true) (hfull : ¬ (full? a == some (us.union vs)) = true) :
      Merges full? ((a, us) :: cs) ((a, vs) :: ds) ((a, us.union vs) :: cs)
  | leaveOut {a : String} {us vs : ValueSet} {cs ds : List (String × ValueSet)}
      (hrest : (cs == ds) = true) (hfull : (full? a == some (us.union vs)) = true) :
      Merges full? ((a, us) :: cs) ((a, vs) :: ds) cs

variable {full? : String → Option ValueSet}

theorem merges_of_mergeValues? (h : mergeValues? full? cs ds = some ms) :
    Merges full? cs ds ms := by
  induction cs generalizing ds ms with
  | nil => simp [mergeValues?] at h
  | cons c cs ih =>
    obtain ⟨a, us⟩ := c
    cases ds with
    | nil => simp [mergeValues?] at h
    | cons d ds =>
      obtain ⟨b, vs⟩ := d
      rw [mergeValues?_cons] at h
      split at h
      · cases h
      rename_i hab
      obtain rfl := not_ne_iff.1 hab
      split at h
      · rename_i huv
        obtain ⟨rest, hrest, rfl⟩ := Option.map_eq_some_iff.1 h
        exact .agree huv (ih hrest)
      split at h
      · rename_i hrest
        cases h
        split
        · rename_i hfull
          exact .leaveOut hrest hfull
        · rename_i hfull
          exact .join hrest hfull
      · cases h

/-- Merged constraints are about attributes of the first ones. -/
theorem Merges.attr_of_mem (h : Merges full? cs ds ms) : ∀ c ∈ ms, ∃ d ∈ cs, c.1 = d.1 := by
  induction h with
  | agree _ _ ih =>
    refine List.forall_mem_cons.2 ⟨⟨_, List.mem_cons_self, rfl⟩, fun c hc ↦ ?_⟩
    obtain ⟨d, hd, hcd⟩ := ih c hc
    exact ⟨d, List.mem_cons_of_mem _ hd, hcd⟩
  | join =>
    exact List.forall_mem_cons.2
      ⟨⟨_, List.mem_cons_self, rfl⟩, fun c hc ↦ ⟨c, List.mem_cons_of_mem _ hc, rfl⟩⟩
  | leaveOut => exact fun c hc ↦ ⟨c, List.mem_cons_of_mem _ hc, rfl⟩

/-- What unions keep is true of merged constraints. -/
theorem Merges.forall_mem {C : String → ValueSet → Prop} (h : Merges full? cs ds ms)
    (hunion : ∀ {a us vs}, C a us → C a vs →
      ¬ (full? a == some (us.union vs)) = true → C a (us.union vs))
    (hcs : ∀ c ∈ cs, C c.1 c.2) (hds : ∀ c ∈ ds, C c.1 c.2) : ∀ c ∈ ms, C c.1 c.2 := by
  induction h with
  | agree _ _ ih =>
    rw [List.forall_mem_cons] at hcs hds
    exact List.forall_mem_cons.2 ⟨hcs.1, ih hcs.2 hds.2⟩
  | join _ hfull =>
    rw [List.forall_mem_cons] at hcs hds
    exact List.forall_mem_cons.2 ⟨hunion hcs.1 hds.1 hfull, hcs.2⟩
  | leaveOut => exact (List.forall_mem_cons.1 hcs).2

/-- Merged constraints are in the order of the attributes of the first ones. -/
theorem Merges.ascending (h : Merges full? cs ds ms) (hcs : cs.Pairwise fun c d ↦ c.1 < d.1) :
    ms.Pairwise fun c d ↦ c.1 < d.1 := by
  induction h with
  | agree _ hrest ih =>
    rw [List.pairwise_cons] at hcs
    refine List.pairwise_cons.2 ⟨fun c hc ↦ ?_, ih hcs.2⟩
    obtain ⟨d, hd, hcd⟩ := hrest.attr_of_mem c hc
    rw [hcd]
    exact hcs.1 d hd
  | join =>
    rw [List.pairwise_cons] at hcs
    exact List.pairwise_cons.2 hcs
  | leaveOut => exact (List.pairwise_cons.1 hcs).2

theorem valid_mergeValues? (hcs : ConstraintsValid r cs) (hds : ConstraintsValid r ds)
    (h : mergeValues? ctx.full? cs ds = some ms) : ConstraintsValid r ms where
  demands := (merges_of_mergeValues? h).forall_mem (fun hus hvs _ ↦ hus.union hvs) hcs.demands
    hds.demands
  ascending := (merges_of_mergeValues? h).ascending hcs.ascending

/-- Merged constraints ask for what either of the two asks for, of any values that the attributes
may have. -/
theorem Merges.forall_mem_iff {value : String → Option Value} (h : Merges ctx.full? cs ds ms)
    (hvalue : ∀ {a full}, ctx.full? a = some full → full.Mem (value a))
    (hcs : ∀ c ∈ cs, c.2.Fits ctx c.1) (hds : ∀ d ∈ ds, d.2.Fits ctx d.1) :
    (∀ m ∈ ms, m.2.Mem (value m.1)) ↔
      (∀ c ∈ cs, c.2.Mem (value c.1)) ∨ ∀ d ∈ ds, d.2.Mem (value d.1) := by
  induction h with
  | agree huv _ ih =>
    rw [List.forall_mem_cons] at hcs hds
    rw [List.forall_mem_cons, List.forall_mem_cons, List.forall_mem_cons, ih hcs.2 hds.2,
      ← ValueSet.mem_congr huv, and_or_left]
  | join hrest =>
    rw [List.forall_mem_cons] at hcs hds
    rw [List.forall_mem_cons, List.forall_mem_cons, List.forall_mem_cons,
      ← forall_mem_congr hrest, ← or_and_right, ← ValueSet.mem_union (hcs.1.sameShape hds.1)]
  | @leaveOut a us vs _ _ hrest hfull =>
    rw [List.forall_mem_cons] at hcs hds
    rw [List.forall_mem_cons, List.forall_mem_cons, ← forall_mem_congr hrest, ← or_and_right,
      ← ValueSet.mem_union (hcs.1.sameShape hds.1)]
    -- the union is all that the attribute can be
    obtain ⟨full, hfull', -⟩ := hcs.1
    rw [hfull'] at hfull
    have hmem := (ValueSet.mem_congr (show (full == us.union vs) = true from hfull) _).1
      (hvalue hfull')
    exact (and_iff_right hmem).symm

end mergeValues

/-! ## Merging in the sign of one literal -/

section signs

variable {ls ms : Distinct OpaqueLiteral}

/-- What the overlap and the rest of a set say is what the set says. -/
theorem sat_of_inter_of_diff (hl : AllOpaque r ls) (hm : AllOpaque r ms)
    (hboth : ∀ n ∈ (ls.inter ms).toList, n.Sat r) (hrest : ∀ n ∈ (ls.diff ms).toList, n.Sat r) :
    ∀ n ∈ ls.toList, n.Sat r := by
  intro n hn
  by_cases hc : ms.contains n = true
  · rw [Distinct.contains_iff OpaqueLiteral.decidedBy_tag hm.members (hl n hn).member] at hc
    obtain ⟨n', hn', hclass⟩ := (Distinct.exists_inter OpaqueLiteral.decidedBy_tag hl.members
      hm.members _).2 ⟨⟨n, hn, rfl⟩, hc⟩
    exact (OpaqueLiteral.sat_congr (hl.inter hm n' hn') (hl n hn) hclass).1
      (hboth n' hn')
  · exact hrest n (Distinct.mem_diff.2 ⟨hn, hc⟩)

/-- The overlap of two sets of literals says no more than either of them. -/
theorem sat_inter_of_sat (hl : AllOpaque r ls) (hm : AllOpaque r ms)
    (h : (∀ n ∈ ls.toList, n.Sat r) ∨ ∀ n ∈ ms.toList, n.Sat r) :
    ∀ n ∈ (ls.inter ms).toList, n.Sat r := by
  have hclass := fun n (hn : n ∈ (ls.inter ms).toList) ↦ (Distinct.exists_inter
    OpaqueLiteral.decidedBy_tag hl.members hm.members _).1 ⟨n, hn, rfl⟩
  rcases h with h | h
  · exact hl.sat_of_classes (hl.inter hm) (fun n hn ↦ (hclass n hn).1) h
  · exact hm.sat_of_classes (hl.inter hm) (fun n hn ↦ (hclass n hn).2) h

/-- Consistent sets that differ in an atom and its negation have one of them each. -/
theorem diff_eq_singleton {l m : OpaqueLiteral} (hlc : Consistent ls) (hmc : Consistent ms)
    (hdiff : (ls.diff ms).toList ++ (ms.diff ls).toList = [l, m])
    (htag : l.atom.tag = m.atom.tag) (hsign : l.positive ≠ m.positive) :
    (ls.diff ms).toList = [l] ∧ (ms.diff ls).toList = [m] := by
  have hof : ∀ {s t : Distinct OpaqueLiteral} {n : OpaqueLiteral}, n ∈ (s.diff t).toList →
      n ∈ s.toList := fun h ↦ (Distinct.mem_diff.1 h).1
  rcases hls : (ls.diff ms).toList with _ | ⟨x, _ | ⟨y, rest⟩⟩
  · rw [hls, List.nil_append] at hdiff
    exact absurd (hmc l (hof (by rw [hdiff]; simp)) m (hof (by rw [hdiff]; simp)) htag) hsign
  · rw [hls] at hdiff
    obtain ⟨rfl, hms⟩ : x = l ∧ (ms.diff ls).toList = [m] := by simpa using hdiff
    exact ⟨rfl, hms⟩
  · rw [hls] at hdiff
    obtain ⟨rfl, rfl, -⟩ : x = l ∧ y = m ∧ rest ++ (ms.diff ls).toList = [] := by
      simpa using hdiff
    exact absurd (hlc x (hof (by rw [hls]; simp)) y (hof (by rw [hls]; simp)) htag) hsign

/-- An atom or its negation holds, so what the two sets share is all they say together. -/
theorem sat_inter_iff {l m : OpaqueLiteral} (hl : AllOpaque r ls) (hm : AllOpaque r ms)
    (hls : (ls.diff ms).toList = [l]) (hms : (ms.diff ls).toList = [m])
    (htag : l.atom.tag = m.atom.tag) (hsign : l.positive ≠ m.positive) :
    (∀ n ∈ (ls.inter ms).toList, n.Sat r) ↔
      (∀ n ∈ ls.toList, n.Sat r) ∨ ∀ n ∈ ms.toList, n.Sat r := by
  refine ⟨?_, sat_inter_of_sat hl hm⟩
  intro hboth
  have hlmem : l ∈ ls.toList := (Distinct.mem_diff.1 (hls ▸ List.mem_singleton_self l)).1
  have hmmem : m ∈ ms.toList := (Distinct.mem_diff.1 (hms ▸ List.mem_singleton_self m)).1
  by_cases hsat : l.Sat r
  · refine .inl (sat_of_inter_of_diff hl hm hboth ?_)
    intro n hn
    rw [hls, List.mem_singleton] at hn
    rwa [hn]
  · have hnegate : m.Sat r ↔ l.negate.Sat r := by
      refine OpaqueLiteral.sat_congr (hm m hmmem) (hl l hlmem) (Prod.ext htag.symm ?_)
      show m.positive = !l.positive
      cases hlp : l.positive <;> cases hmp : m.positive <;> simp_all
    have hmsat := hnegate.2 ((OpaqueLiteral.sat_negate l).2 hsat)
    -- the overlap the other way round has the same classes
    refine .inr (sat_of_inter_of_diff hm hl ?_ fun n hn ↦ ?_)
    · refine (hl.inter hm).sat_of_classes (hm.inter hl) ?_ hboth
      intro n hn
      have h := (Distinct.exists_inter OpaqueLiteral.decidedBy_tag hm.members hl.members _).1
        ⟨n, hn, rfl⟩
      exact (Distinct.exists_inter OpaqueLiteral.decidedBy_tag hl.members hm.members _).2 h.symm
    · rw [hms, List.mem_singleton] at hn
      rwa [hn]

end signs

/-! ## Merging terms -/

/-- The two ways in which terms are merged. -/
theorem merge?_cases {full? : String → Option ValueSet} (h : merge? full? s t = some u) :
    ((s.literals == t.literals) = true ∧ u.literals = s.literals ∧
      mergeValues? full? s.constraints t.constraints = some u.constraints) ∨
    ((s.constraints == t.constraints) = true ∧ u.constraints = s.constraints ∧
      u.literals = s.literals.inter t.literals ∧ ∃ l m,
        (s.literals.diff t.literals).toList ++ (t.literals.diff s.literals).toList = [l, m] ∧
        (l.atom == m.atom) = true ∧ l.positive ≠ m.positive) := by
  rw [merge?] at h
  split at h
  · rename_i hls
    obtain ⟨cs, hcs, rfl⟩ := Option.map_eq_some_iff.1 h
    exact .inl ⟨hls, rfl, hcs⟩
  split at h
  · rename_i hcs
    split at h
    · rename_i l m hdiff
      split at h
      · rename_i hlm
        rw [Bool.and_eq_true, bne_iff_ne] at hlm
        cases h
        exact .inr ⟨hcs, rfl, rfl, l, m, hdiff, hlm⟩
      · cases h
    · cases h
  · cases h

theorem Valid.merge? (hs : s.Valid r) (ht : t.Valid r) (h : merge? ctx.full? s t = some u) :
    u.Valid r := by
  rcases merge?_cases h with ⟨-, hls, hcs⟩ | ⟨-, hcs, hls, -⟩
  · exact ⟨valid_mergeValues? hs.constraints ht.constraints hcs, hls ▸ hs.opaques,
      hls ▸ hs.consistent⟩
  · exact ⟨hcs ▸ hs.constraints, hls ▸ hs.opaques.inter ht.opaques,
      hls ▸ hs.consistent.inter ht.consistent⟩

/-- A merged term holds where either of the two terms does. -/
theorem holds_merge?_iff {value : String → Option Value} {ctx' : Interpretation}
    {r' : Reading ctx'} (hvalue : ∀ {a full}, ctx.full? a = some full → full.Mem (value a))
    (hs : s.Orderly ctx) (ht : t.Orderly ctx) (hsl : AllOpaque r' s.literals)
    (htl : AllOpaque r' t.literals) (h : merge? ctx.full? s t = some u) :
    u.Holds value r'.truth ↔ s.Holds value r'.truth ∨ t.Holds value r'.truth := by
  rcases merge?_cases h with ⟨hls, hul, hcs⟩ | ⟨hcs, huc, hul, l, m, hdiff, hatom, hsign⟩
  · have hlit := hsl.sat_congr htl hls
    have hvals := (merges_of_mergeValues? hcs).forall_mem_iff hvalue hs.fits ht.fits
    calc u.Holds value r'.truth
      _ ↔ _ ∧ ∀ l ∈ s.literals.toList, l.Sat r' := by rw [Holds, hul, hvals]; rfl
      _ ↔ _ := by rw [or_and_right]; exact or_congr_right (and_congr_right fun _ ↦ hlit)
  · have htag := Predicate.tag_eq_of_beq hatom
    obtain ⟨hsl', htl'⟩ := diff_eq_singleton hs.consistent ht.consistent hdiff htag hsign
    have hlit := sat_inter_iff hsl htl hsl' htl' htag hsign
    have hvals := @forall_mem_congr value _ _ hcs
    calc u.Holds value r'.truth
      _ ↔ _ ∧ ∀ l ∈ (s.literals.inter t.literals).toList, l.Sat r' := by
        rw [Holds, hul, huc]; rfl
      _ ↔ _ := by rw [hlit, and_or_left]; exact or_congr_right (and_congr_left fun _ ↦ hvals)

/-- **A merged term says what either of the two terms says.** -/
theorem sat_merge? (hs : s.Valid r) (ht : t.Valid r) (h : merge? ctx.full? s t = some u) :
    u.Sat r ↔ s.Sat r ∨ t.Sat r :=
  holds_merge?_iff r.full_mem hs.orderly ht.orderly hs.opaques ht.opaques h

end Term

end RuleCoverage
