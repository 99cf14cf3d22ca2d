import RuleCoverage.Proofs.NormalForm.Reduction
import RuleCoverage.Proofs.Values.Extensionality

/-!
# Lists of terms that nothing can be done to

`Term.reduce` goes on until no term implies another one and no two can be merged.  What it ends with
is `Term.Reduced`, and a list with this property stays as it is when it is reduced again, whatever
the order of its terms.

Whether two terms are apart is a question of their value sets and the classes of their literals, so
it does not matter if others take the place of these, as long as the same ones are equal and the
same ones contain each other (`Term.Corresponds`).

## What is here

* `Term.isSome_merge?_iff` — when two terms can be merged.
* `Term.reduced_reduce`, `Term.reduce_eq_self` — reducing ends with what it keeps as it is.
* `Term.Reduced.perm`, `Term.Reduced.corresponds` — the order and the spelling do not matter.
-/

set_option autoImplicit false

namespace RuleCoverage

namespace Term

variable {ctx : Interpretation} {r : Reading ctx} {s t u : Term} {ts us earlier : List Term}
  {cs ds : List (String × ValueSet)} {ls ms : Distinct OpaqueLiteral}
  {full? : String → Option ValueSet}

/-! ## Terms that can be merged -/

/-- Constraints on the same attributes that differ in the values of just one. -/
def DifferOnce : List (String × ValueSet) → List (String × ValueSet) → Prop
  | (a, us) :: cs, (b, vs) :: ds =>
    a = b ∧ if us == vs then DifferOnce cs ds else (cs == ds) = true
  | _, _ => False

theorem isSome_mergeValues?_iff (cs ds : List (String × ValueSet)) :
    (mergeValues? full? cs ds).isSome = true ↔ DifferOnce cs ds := by
  induction cs generalizing ds with
  | nil => simp [mergeValues?, DifferOnce]
  | cons c cs ih =>
    obtain ⟨a, us⟩ := c
    cases ds with
    | nil => simp [mergeValues?, DifferOnce]
    | cons d ds =>
      obtain ⟨b, vs⟩ := d
      rw [mergeValues?_cons, DifferOnce]
      by_cases hab : a = b
      · rw [if_neg (not_not.2 hab), and_iff_right hab]
        split
        · rw [Option.isSome_map, ih]
        · split <;> simp [*]
      · rw [if_pos hab]
        exact iff_of_false Bool.false_ne_true fun h ↦ hab h.1

/-- The class of the only literal that is among the first ones and not among the others. -/
def OnlyExtra (ls ms : Distinct OpaqueLiteral) (k : Predicate.Tag × Bool) : Prop :=
  ∀ k', (∃ l ∈ (ls.diff ms).toList, l.class_ = k') ↔ k' = k

/-- Literals that differ in the sign of just one atom. -/
def Opposed (ls ms : Distinct OpaqueLiteral) : Prop :=
  ∃ tag sign, OnlyExtra ls ms (tag, sign) ∧ OnlyExtra ms ls (tag, !sign)

theorem Opposed.symm (h : Opposed ls ms) : Opposed ms ls := by
  obtain ⟨tag, sign, hl, hm⟩ := h
  exact ⟨tag, !sign, hm, by rwa [Bool.not_not]⟩

/-- A set of literals of one class holds just one of them. -/
theorem onlyExtra_iff (hl : ∀ l ∈ ls.toList, l.atom.IsMember) (k : Predicate.Tag × Bool) :
    OnlyExtra ls ms k ↔ ∃ l, (ls.diff ms).toList = [l] ∧ l.class_ = k := by
  constructor
  · intro h
    obtain ⟨l, hmem, hclass⟩ := (h k).2 rfl
    have hdistinct := (ls.diff ms).distinct
    have hall : ∀ m ∈ (ls.diff ms).toList, m.class_ = k := fun m hm ↦ (h _).1 ⟨m, hm, rfl⟩
    have hmember : ∀ m ∈ (ls.diff ms).toList, m.atom.IsMember :=
      fun m hm ↦ hl m (Distinct.mem_diff.1 hm).1
    rcases hlist : (ls.diff ms).toList with _ | ⟨m, _ | ⟨n, rest⟩⟩
    · rw [hlist] at hmem
      cases hmem
    · exact ⟨m, rfl, hall m (by simp [hlist])⟩
    · -- two literals of one class would be equal
      rw [hlist] at hdistinct hall hmember
      have hne := List.rel_of_pairwise_cons hdistinct (List.mem_cons_self (a := n))
      have heq : (m == n) = true :=
        (OpaqueLiteral.decidedBy_tag m n (hmember m (by simp)) (hmember n (by simp))).2
          ((hall m (by simp)).trans (hall n (by simp)).symm)
      rw [heq] at hne
      cases hne
  · rintro ⟨l, hlist, rfl⟩ k'
    simp [hlist, eq_comm]

theorem opposed_iff (hl : ∀ l ∈ ls.toList, l.atom.IsMember) (hm : ∀ m ∈ ms.toList, m.atom.IsMember)
    (hl' : Consistent ls) (hm' : Consistent ms) : Opposed ls ms ↔ ∃ l m,
      (ls.diff ms).toList ++ (ms.diff ls).toList = [l, m] ∧ (l.atom == m.atom) = true ∧
        l.positive ≠ m.positive := by
  constructor
  · rintro ⟨tag, sign, h, h'⟩
    obtain ⟨l, hlist, hlclass⟩ := (onlyExtra_iff hl _).1 h
    obtain ⟨m, hlist', hmclass⟩ := (onlyExtra_iff hm _).1 h'
    rw [OpaqueLiteral.class_, Prod.mk.injEq] at hlclass hmclass
    have hlmem : l ∈ ls.toList := (Distinct.mem_diff.1 (hlist ▸ List.mem_singleton_self l)).1
    have hmmem : m ∈ ms.toList := (Distinct.mem_diff.1 (hlist' ▸ List.mem_singleton_self m)).1
    refine ⟨l, m, by rw [hlist, hlist']; rfl, ?_, ?_⟩
    · exact Predicate.beq_of_tag_eq (hl l hlmem) (hm m hmmem)
        (hlclass.1.trans hmclass.1.symm)
    · rw [hlclass.2, hmclass.2]
      cases sign <;> simp
  · rintro ⟨l, m, hdiff, hatom, hsign⟩
    have htag := Predicate.tag_eq_of_beq hatom
    obtain ⟨hlist, hlist'⟩ := diff_eq_singleton hl' hm' hdiff htag hsign
    refine ⟨l.atom.tag, l.positive, (onlyExtra_iff hl _).2 ⟨l, hlist, rfl⟩,
      (onlyExtra_iff hm _).2 ⟨m, hlist', ?_⟩⟩
    rw [OpaqueLiteral.class_, htag]
    cases hlp : l.positive <;> cases hmp : m.positive <;> simp_all

/-- Terms that differ in one place. -/
def Mergeable (s t : Term) : Prop :=
  ((s.literals == t.literals) = true ∧ DifferOnce s.constraints t.constraints) ∨
    ((s.constraints == t.constraints) = true ∧ Opposed s.literals t.literals)

/-- **Terms can be merged when they differ in one place.** -/
theorem isSome_merge?_iff (hs : s.Orderly ctx) (ht : t.Orderly ctx) :
    (merge? full? s t).isSome = true ↔ Mergeable s t := by
  have hopposed := opposed_iff hs.members ht.members hs.consistent ht.consistent
  have hdiffer : Opposed s.literals t.literals → ¬ (s.literals == t.literals) = true := by
    rintro ⟨tag, sign, h, -⟩ heq
    obtain ⟨l, hl, hclass⟩ := (h _).2 rfl
    rw [Distinct.mem_diff] at hl
    have hsubset := (Distinct.beq_iff OpaqueLiteral.decidedBy_tag hs.members
      ht.members).1 heq l.class_
    exact hl.2 ((Distinct.contains_iff OpaqueLiteral.decidedBy_tag ht.members
      (hs.members l hl.1)).2 (hsubset.1 ⟨l, hl.1, rfl⟩))
  rw [merge?, Mergeable]
  split
  · rename_i hls
    rw [Option.isSome_map, isSome_mergeValues?_iff, and_iff_right hls, or_iff_left]
    exact fun h ↦ hdiffer h.2 hls
  rename_i hls
  rw [or_iff_right fun h ↦ hls h.1]
  split
  · rename_i hcs
    rw [and_iff_right hcs, hopposed]
    split
    · rename_i l m hdiff
      rw [Option.isSome_ite, Bool.and_eq_true, bne_iff_ne]
      constructor
      · exact fun h ↦ ⟨l, m, hdiff, h⟩
      · rintro ⟨l', m', hdiff', h⟩
        obtain ⟨rfl, hm⟩ := List.cons.inj (hdiff.symm.trans hdiff')
        obtain ⟨rfl, -⟩ := List.cons.inj hm
        exact h
    · rename_i hnot
      refine iff_of_false Bool.false_ne_true ?_
      rintro ⟨l, m, hdiff, -⟩
      exact hnot l m hdiff
  · rename_i hcs
    exact iff_of_false Bool.false_ne_true fun h ↦ hcs h.1

/-! ## Other spellings -/

/-- The constraints are on the same attributes, and their value sets are related. -/
abbrev Respelled (M : String → ValueSet → ValueSet → Prop) :
    List (String × ValueSet) → List (String × ValueSet) → Prop :=
  List.Forall₂ fun c c' ↦ c.1 = c'.1 ∧ M c.1 c.2 c'.2

/-- A relation under which the same value sets are equal, and the same ones contain each other. -/
structure Faithful (M : String → ValueSet → ValueSet → Prop) : Prop where
  beq : ∀ {a us us' vs vs'}, M a us us' → M a vs vs' → (us == vs) = (us' == vs')
  subset : ∀ {a us us' vs vs'}, M a us us' → M a vs vs' → us.subset vs = us'.subset vs'

/-- The terms have related value sets and literals of the same classes. -/
structure Corresponds (M : String → ValueSet → ValueSet → Prop) (s s' : Term) : Prop where
  constraints : Respelled M s.constraints s'.constraints
  members : ∀ l ∈ s.literals.toList, l.atom.IsMember
  members' : ∀ l ∈ s'.literals.toList, l.atom.IsMember
  literals : ∀ k, (∃ l ∈ s.literals.toList, l.class_ = k) ↔
    ∃ l ∈ s'.literals.toList, l.class_ = k

/-- Equal value sets may take each other's place. -/
theorem faithful_beq : Faithful fun _ us us' ↦ (us == us') = true where
  beq hu hv := (BEq.congr_left hu).trans (BEq.congr_right hv)
  subset := by
    intro _ us us' vs vs' hu hv
    have hshape := ValueSet.sameShape_of_beq hu
    have hshape' := ValueSet.sameShape_of_beq hv
    by_cases h : us.SameShape vs
    · rw [Bool.eq_iff_iff, ValueSet.subset_iff h,
        ValueSet.subset_iff (hshape.symm.trans (h.trans hshape'))]
      simp only [ValueSet.mem_congr hu, ValueSet.mem_congr hv]
    · -- sets of different shapes have nothing in common with the complements of each other
      cases us <;> cases vs <;> cases us' <;> cases vs' <;>
        first | rfl | exact absurd rfl h | exact Bool.noConfusion hshape |
          exact Bool.noConfusion hshape'

theorem constraints_beq_iff {cs ds : List (String × ValueSet)} : (cs == ds) = true ↔
    Respelled (fun _ us us' ↦ (us == us') = true) cs ds := by
  induction cs generalizing ds with
  | nil => cases ds <;> simp
  | cons c cs ih =>
    cases ds with
    | nil => simp
    | cons d ds =>
      rw [List.cons_beq_cons, Bool.and_eq_true, ih]
      refine Iff.trans (and_congr_left fun _ ↦ ?_) List.forall₂_cons.symm
      have hdef : (c == d) = (c.1 == d.1 && c.2 == d.2) := rfl
      rw [hdef, Bool.and_eq_true, beq_iff_eq]

theorem constraints_beq_symm {cs ds : List (String × ValueSet)} (h : (cs == ds) = true) :
    (ds == cs) = true := by
  rw [constraints_beq_iff] at h ⊢
  exact h.flip.imp fun c d hcd ↦ ⟨hcd.1.symm, BEq.symm hcd.2⟩

section corresponds

variable {M : String → ValueSet → ValueSet → Prop} {s' t' : Term}
  {cs' ds' : List (String × ValueSet)}

theorem corresponds_of_beq (hs : s.Orderly ctx) (ht : t.Orderly ctx) (h : (s == t) = true) :
    Corresponds (fun _ us us' ↦ (us == us') = true) s t := by
  rw [beq_iff, constraints_beq_iff] at h
  exact ⟨h.1, hs.members, ht.members,
    (Distinct.beq_iff OpaqueLiteral.decidedBy_tag hs.members ht.members).1 h.2⟩

theorem Corresponds.refl_beq (hs : s.Orderly ctx) :
    Corresponds (fun _ us us' ↦ (us == us') = true) s s where
  constraints := List.forall₂_same.2 fun _ _ ↦ ⟨rfl, BEq.rfl⟩
  members := hs.members
  members' := hs.members
  literals _ := Iff.rfl

theorem Respelled.beq_eq (hM : Faithful M) (hc : Respelled M cs cs') (hd : Respelled M ds ds') :
    (cs == ds) = (cs' == ds') := by
  induction hc generalizing ds ds' with
  | nil => cases hd <;> rfl
  | @cons c c' cs cs' hcc hcs ih =>
    cases hd with
    | nil => rfl
    | @cons d d' ds ds' hdd hds =>
      obtain ⟨a, us⟩ := c
      obtain ⟨_, us'⟩ := c'
      obtain ⟨b, vs⟩ := d
      obtain ⟨_, vs'⟩ := d'
      obtain ⟨rfl, hu⟩ := hcc
      obtain ⟨rfl, hv⟩ := hdd
      rw [List.cons_beq_cons, List.cons_beq_cons, ih hds]
      congr 1
      show (a == b && us == vs) = (a == b && us' == vs')
      by_cases hab : a = b
      · subst hab
        rw [hM.beq hu hv]
      · rw [beq_false_of_ne hab, Bool.false_and, Bool.false_and]

theorem Respelled.differOnce_iff (hM : Faithful M) (hc : Respelled M cs cs')
    (hd : Respelled M ds ds') : DifferOnce cs ds ↔ DifferOnce cs' ds' := by
  induction hc generalizing ds ds' with
  | nil => exact Iff.rfl
  | @cons c c' cs cs' hcc hcs ih =>
    cases hd with
    | nil => exact Iff.rfl
    | @cons d d' ds ds' hdd hds =>
      obtain ⟨a, us⟩ := c
      obtain ⟨_, us'⟩ := c'
      obtain ⟨b, vs⟩ := d
      obtain ⟨_, vs'⟩ := d'
      obtain ⟨rfl, hu⟩ := hcc
      obtain ⟨rfl, hv⟩ := hdd
      rw [DifferOnce, DifferOnce]
      refine and_congr_right fun hab ↦ ?_
      change a = b at hab
      subst hab
      rw [← hM.beq hu hv, ih hds, Respelled.beq_eq hM hcs hds]

theorem Respelled.get?_rel (h : Respelled M cs cs') (a : String) :
    Option.Rel (M a) (Dictionary.get? a cs) (Dictionary.get? a cs') := by
  induction h with
  | nil => exact .none
  | @cons c c' cs cs' hcc hcs ih =>
    obtain ⟨b, us⟩ := c
    obtain ⟨_, us'⟩ := c'
    obtain ⟨rfl, hu⟩ := hcc
    rw [Dictionary.get?, Dictionary.get?]
    split
    · rename_i hba
      rw [← beq_iff_eq.1 hba]
      exact .some hu
    · exact ih

theorem Corresponds.beq_literals (h : Corresponds M s s') (h' : Corresponds M t t') :
    (s.literals == t.literals) = (s'.literals == t'.literals) := by
  rw [Bool.eq_iff_iff, Distinct.beq_iff OpaqueLiteral.decidedBy_tag h.members h'.members,
    Distinct.beq_iff OpaqueLiteral.decidedBy_tag h.members' h'.members']
  exact forall_congr' fun k ↦ iff_congr (h.literals k) (h'.literals k)

theorem Corresponds.onlyExtra_iff (h : Corresponds M s s') (h' : Corresponds M t t')
    (k : Predicate.Tag × Bool) :
    OnlyExtra s.literals t.literals k ↔ OnlyExtra s'.literals t'.literals k := by
  refine forall_congr' fun k' ↦ iff_congr ?_ Iff.rfl
  refine (Distinct.exists_diff OpaqueLiteral.decidedBy_tag h.members h'.members k').trans ?_
  refine Iff.trans ?_
    (Distinct.exists_diff OpaqueLiteral.decidedBy_tag h.members' h'.members' k').symm
  exact and_congr (h.literals k') (not_congr (h'.literals k'))

theorem Corresponds.mergeable_iff (hM : Faithful M) (h : Corresponds M s s')
    (h' : Corresponds M t t') : Mergeable s t ↔ Mergeable s' t' := by
  rw [Mergeable, Mergeable, h.beq_literals h', h.constraints.differOnce_iff hM h'.constraints,
    h.constraints.beq_eq hM h'.constraints]
  refine or_congr_right (and_congr_right fun _ ↦ ?_)
  exact exists_congr fun tag ↦ exists_congr fun sign ↦
    and_congr (h.onlyExtra_iff h' _) (h'.onlyExtra_iff h _)

theorem Corresponds.implies_eq (hM : Faithful M) (h : Corresponds M s s')
    (h' : Corresponds M t t') : s.implies t = s'.implies t' := by
  rw [implies, implies]
  congr 1
  · rw [Bool.eq_iff_iff, Distinct.subset_iff OpaqueLiteral.decidedBy_tag h'.members h.members,
      Distinct.subset_iff OpaqueLiteral.decidedBy_tag h'.members' h.members']
    exact forall_congr' fun k ↦ imp_congr (h'.literals k) (h.literals k)
  · have hget := h.constraints.get?_rel
    have hconstraints := h'.constraints
    revert hconstraints
    generalize t.constraints = cs
    generalize t'.constraints = cs'
    intro hconstraints
    induction hconstraints with
    | nil => rfl
    | @cons c c' cs cs' hcc _ ih =>
      obtain ⟨a, vs⟩ := c
      obtain ⟨_, vs'⟩ := c'
      obtain ⟨rfl, hv⟩ := hcc
      rw [List.all_cons, List.all_cons, ih]
      congr 1
      have ha := hget a
      simp only
      generalize Dictionary.get? a s.constraints = us? at ha ⊢
      generalize Dictionary.get? a s'.constraints = us'? at ha ⊢
      cases ha with
      | none => rfl
      | some hu => exact hM.subset hu hv

end corresponds

/-! ## Reduced lists -/

/-- Neither term makes the other one redundant, and they cannot be merged. -/
structure Apart (s t : Term) : Prop where
  not_implies : ¬ s.implies t = true
  not_implied : ¬ t.implies s = true
  not_mergeable : ¬ Mergeable s t

/-- There is nothing to drop and nothing to merge; and where a term demands nothing, there are no
others. -/
structure Reduced (ts : List Term) : Prop where
  apart : ts.Pairwise Apart
  always : ∀ t ∈ ts, t.isAlways = true → ts = [always]

theorem reduced_nil : Reduced [] := ⟨.nil, by simp⟩

theorem eq_always (h : t.isAlways = true) : t = always := by
  obtain ⟨hcs, hls⟩ := eq_always_of_isAlways h
  obtain ⟨cs, ⟨ls, hdistinct⟩⟩ := t
  obtain rfl : cs = [] := hcs
  obtain rfl : ls = [] := List.eq_nil_iff_forall_not_mem.2 hls
  rfl

theorem reduced_singleton (t : Term) : Reduced [t] := by
  refine ⟨List.pairwise_singleton _ _, fun u hu hal ↦ ?_⟩
  rw [← List.mem_singleton.1 hu, eq_always hal]

theorem differOnce_symm (h : DifferOnce cs ds) : DifferOnce ds cs := by
  induction cs generalizing ds with
  | nil => exact h.elim
  | cons c cs ih =>
    cases ds with
    | nil => exact h.elim
    | cons d ds =>
      obtain ⟨a, us⟩ := c
      obtain ⟨b, vs⟩ := d
      rw [DifferOnce] at h ⊢
      refine ⟨h.1.symm, ?_⟩
      have hrest := h.2
      rw [BEq.comm (a := vs)]
      split at hrest <;> rename_i huv
      · rw [if_pos huv]
        exact ih hrest
      · rw [if_neg huv]
        exact constraints_beq_symm hrest

theorem mergeable_symm (h : Mergeable s t) : Mergeable t s := by
  refine h.imp (fun h ↦ ⟨?_, differOnce_symm h.2⟩) fun h ↦ ⟨?_, h.2.symm⟩
  · exact (Bool.and_comm ..).trans h.1
  · exact constraints_beq_symm h.1

theorem Apart.symm (h : Apart s t) : Apart t s where
  not_implies := h.not_implied
  not_implied := h.not_implies
  not_mergeable hts := h.not_mergeable (mergeable_symm hts)

/-- The order of the terms does not matter. -/
theorem Reduced.perm (h : Reduced ts) (hperm : ts.Perm us) : Reduced us := by
  refine ⟨(hperm.pairwise_iff Apart.symm).1 h.apart, fun t ht hal ↦ ?_⟩
  rw [h.always t (hperm.mem_iff.2 ht) hal, List.singleton_perm] at hperm
  exact hperm.symm

theorem Reduced.sublist (h : Reduced ts) (hsub : us.Sublist ts) : Reduced us := by
  refine ⟨h.apart.sublist hsub, fun t ht hal ↦ ?_⟩
  rw [h.always t (hsub.subset ht) hal] at hsub
  rcases List.sublist_singleton.1 hsub with rfl | rfl
  · cases ht
  · rfl

theorem Corresponds.isAlways_left {M : String → ValueSet → ValueSet → Prop} {s' : Term}
    (h : Corresponds M s s') (hal : s'.isAlways = true) : s.isAlways = true := by
  obtain rfl := eq_always hal
  rw [isAlways, Bool.and_eq_true, List.isEmpty_iff, Distinct.isEmpty_iff]
  refine ⟨List.forall₂_nil_right_iff.1 h.constraints, fun l hl ↦ ?_⟩
  obtain ⟨m, hm, -⟩ := (h.literals _).1 ⟨l, hl, rfl⟩
  exact Distinct.not_mem_empty m hm

theorem exists_left_of_mem {α β : Type} {R : α → β → Prop} {xs : List α} {ys : List β} {y : β}
    (h : List.Forall₂ R xs ys) (hy : y ∈ ys) : ∃ x ∈ xs, R x y := by
  induction h with
  | nil => cases hy
  | @cons x y' xs ys hxy _ ih =>
    rcases List.mem_cons.1 hy with rfl | hy
    · exact ⟨x, List.mem_cons_self, hxy⟩
    · obtain ⟨x', hx', h⟩ := ih hy
      exact ⟨x', List.mem_cons_of_mem _ hx', h⟩

/-- The spelling of the terms does not matter. -/
theorem Reduced.corresponds {M : String → ValueSet → ValueSet → Prop} (hM : Faithful M)
    (hts : Reduced ts) (h : List.Forall₂ (Corresponds M) ts us) : Reduced us := by
  constructor
  · have hapart := hts.apart
    clear hts
    induction h with
    | nil => exact .nil
    | @cons s s' ss ss' hs hss ih =>
      rw [List.pairwise_cons] at hapart ⊢
      refine ⟨fun t' ht' ↦ ?_, ih hapart.2⟩
      obtain ⟨t, ht, hcorr⟩ := exists_left_of_mem hss ht'
      have hst := hapart.1 t ht
      exact ⟨hs.implies_eq hM hcorr ▸ hst.not_implies, hcorr.implies_eq hM hs ▸ hst.not_implied,
        fun h ↦ hst.not_mergeable ((hs.mergeable_iff hM hcorr).2 h)⟩
  · intro t' ht' hal
    obtain ⟨t, ht, hcorr⟩ := exists_left_of_mem h ht'
    have hone := hts.always t ht (hcorr.isAlways_left hal)
    rw [hone] at h
    obtain ⟨u, rest, -, hrest, rfl⟩ := List.forall₂_cons_left_iff.1 h
    rw [List.forall₂_nil_left_iff.1 hrest] at ht' ⊢
    rw [← List.mem_singleton.1 ht', eq_always hal]

/-! ## What reducing ends with -/

/-- Where nothing is dropped, no term implies another one. -/
theorem pairwise_of_prune_eq (h : prune earlier ts = ts) :
    (∀ t ∈ ts, ∀ u ∈ earlier, ¬ t.implies u = true) ∧
      ts.Pairwise fun t u ↦ ¬ t.implies u = true ∧ ¬ u.implies t = true := by
  induction ts generalizing earlier with
  | nil => exact ⟨by simp, .nil⟩
  | cons t later ih =>
    rw [prune] at h
    split at h
    · -- the list would be longer than what it is a part of
      have hlen := (prune_sublist (earlier ++ [t]) later).length_le
      rw [h, List.length_cons] at hlen
      omega
    rename_i hkeep
    obtain ⟨hearlier, hpairs⟩ := ih (List.cons.inj h).2
    simp only [Bool.or_eq_true, List.any_eq_true, Bool.and_eq_true, Bool.not_eq_true', not_or,
      not_exists, not_and, Bool.not_eq_false] at hkeep
    refine ⟨List.forall_mem_cons.2 ⟨hkeep.1, fun u hu v hv ↦ ?_⟩,
      List.pairwise_cons.2 ⟨fun u hu ↦ ?_, hpairs⟩⟩
    · exact hearlier u hu v (List.mem_append_left _ hv)
    · have hback := hearlier u hu t (List.mem_append_right _ (List.mem_singleton_self t))
      exact ⟨fun htu ↦ hback (hkeep.2 u hu htu), hback⟩

theorem mergeWith?_eq_none (h : mergeWith? full? t ts = none) :
    ∀ u ∈ ts, merge? full? t u = none := by
  induction ts with
  | nil => simp
  | cons u rest ih =>
    rw [mergeWith?] at h
    split at h
    · cases h
    · exact List.forall_mem_cons.2 ⟨‹_›, ih (Option.map_eq_none_iff.1 h)⟩

theorem pairwise_of_mergeAny?_eq_none (h : mergeAny? full? earlier ts = none) :
    ts.Pairwise fun s t ↦ merge? full? s t = none := by
  induction ts generalizing earlier with
  | nil => exact .nil
  | cons t rest ih =>
    rw [mergeAny?] at h
    split at h
    · cases h
    · exact List.pairwise_cons.2 ⟨mergeWith?_eq_none ‹_›, ih h⟩

theorem IsMeaning.reduced_reduceRounds {Good Holds : Term → Prop} (h : IsMeaning ctx Good Holds)
    (ts : List Term) (hts : ∀ t ∈ ts, Good t) : Reduced (reduceRounds ctx.full? ts) := by
  induction ts using induction_round? ctx.full? with
  | step ts ih =>
    rw [reduceRounds_eq]
    split
    · exact reduced_singleton _
    rename_i halways
    cases hround : round? ctx.full? ts with
    | some us => exact ih us hround (h.round?_spec hts hround).1
    | none =>
      obtain ⟨hkept, hmerge⟩ := round?_eq_none hround
      refine ⟨?_, fun t ht hal ↦ absurd (List.any_eq_true.2 ⟨t, ht, hal⟩) halways⟩
      have hunmerged := pairwise_of_mergeAny?_eq_none hmerge
      refine ((pairwise_of_prune_eq hkept).2.and hunmerged).imp_of_mem ?_
      intro s t hs ht hapart
      refine ⟨hapart.1.1, hapart.1.2, fun hst ↦ ?_⟩
      have hsome : (merge? ctx.full? s t).isSome :=
        (isSome_merge?_iff (h.orderly (hts s hs)) (h.orderly (hts t ht))).2 hst
      rw [hapart.2] at hsome
      cases hsome

/-- **Reducing ends with a reduced list.** -/
theorem IsMeaning.reduced_reduce {Good Holds : Term → Prop} (h : IsMeaning ctx Good Holds)
    (hts : ∀ t ∈ ts, Good t) : Reduced (reduce ctx.full? ts) :=
  h.reduced_reduceRounds _ (forall_dedup hts)

theorem reduced_reduce (hts : AllValid r ts) : Reduced (reduce ctx.full? ts) :=
  (isMeaning_sat r).reduced_reduce hts

/-! ## What reducing keeps as it is -/

theorem prune_eq_self (hearlier : ∀ t ∈ ts, ∀ u ∈ earlier, ¬ t.implies u = true)
    (h : ts.Pairwise Apart) : prune earlier ts = ts := by
  induction ts generalizing earlier with
  | nil => rfl
  | cons t later ih =>
    rw [List.forall_mem_cons] at hearlier
    rw [List.pairwise_cons] at h
    have hkeep : ¬ (earlier.any t.implies ||
        later.any (fun u ↦ t.implies u && !u.implies t)) = true := by
      simp only [Bool.or_eq_true, List.any_eq_true, Bool.and_eq_true, not_or, not_exists, not_and]
      exact ⟨hearlier.1, fun u hu htu ↦ absurd htu (h.1 u hu).not_implies⟩
    rw [prune, if_neg hkeep, ih ?_ h.2]
    intro u hu v hv
    rcases List.mem_append.1 hv with hv | hv
    · exact hearlier.2 u hu v hv
    · rw [List.mem_singleton.1 hv]
      exact (h.1 u hu).not_implied

theorem mergeWith?_eq_none_of_apart (ht : t.Orderly ctx) (hts : ∀ u ∈ ts, u.Orderly ctx)
    (h : ∀ u ∈ ts, Apart t u) : mergeWith? full? t ts = none := by
  induction ts with
  | nil => rfl
  | cons u rest ih =>
    rw [List.forall_mem_cons] at h
    have hu := hts u List.mem_cons_self
    have hnone : merge? full? t u = none := by
      rw [← Option.not_isSome_iff_eq_none, isSome_merge?_iff ht hu]
      exact h.1.not_mergeable
    rw [mergeWith?, hnone]
    simp only
    rw [ih (fun v hv ↦ hts v (List.mem_cons_of_mem _ hv)) h.2, Option.map_none]

theorem mergeFirst?_eq_none (hts : ∀ t ∈ ts, t.Orderly ctx) (h : ts.Pairwise Apart) :
    mergeFirst? full? ts = none := by
  cases ts with
  | nil => rfl
  | cons t rest =>
    rw [List.pairwise_cons] at h
    rw [List.forall_mem_cons] at hts
    rw [mergeFirst?, mergeWith?_eq_none_of_apart hts.1 hts.2 h.1, Option.map_none]

theorem mergeAny?_eq_none (hts : ∀ t ∈ ts, t.Orderly ctx) (h : ts.Pairwise Apart) :
    mergeAny? full? earlier ts = none := by
  induction ts generalizing earlier with
  | nil => rfl
  | cons t rest ih =>
    rw [List.pairwise_cons] at h
    rw [List.forall_mem_cons] at hts
    rw [mergeAny?, mergeWith?_eq_none_of_apart hts.1 hts.2 h.1]
    exact ih hts.2 h.2

/-- Equal terms imply each other. -/
theorem implies_of_beq (hs : s.Orderly ctx) (ht : t.Orderly ctx) (h : (s == t) = true) :
    s.implies t = true := by
  have hst := corresponds_of_beq hs ht h
  rw [← (Corresponds.refl_beq hs).implies_eq faithful_beq hst, implies_refl hs]

theorem dedup_eq_self (hts : ∀ t ∈ ts, t.Orderly ctx) (h : ts.Pairwise Apart) : dedup ts = ts := by
  refine Distinct.toList_ofList (h.imp_of_mem fun {s t} hs ht hst ↦ ?_)
  rw [Bool.eq_false_iff]
  exact fun heq ↦ hst.not_implies (implies_of_beq (hts s hs) (hts t ht) heq)

/-- **A reduced list stays as it is.** -/
theorem reduce_eq_self (hts : ∀ t ∈ ts, t.Orderly ctx) (h : Reduced ts) : reduce full? ts = ts := by
  rw [reduce, dedup_eq_self hts h.apart, reduceRounds_eq]
  split
  · rename_i hany
    obtain ⟨t, ht, hal⟩ := List.any_eq_true.1 hany
    exact (h.always t ht hal).symm
  have hnone : ∀ t ∈ ts, ∀ u ∈ ([] : List Term), ¬ t.implies u = true := by simp
  rw [round?_of_prune_eq (prune_eq_self hnone h.apart), mergeAny?_eq_none hts h.apart]

end Term

end RuleCoverage
