import RuleCoverage.Proofs.NormalForm.RoundTrip.Rereading

/-!
# The order of terms

Conjunctions do not depend on the order of the two terms, except for how they are spelled, and which
terms of a list imply each other does not depend on the order of the list.  But the first pair that
can be merged is merged, so the order may decide which terms are merged with each other.

Where there is nothing to merge, a list is reduced to its weakest terms, one for each of those that
demand the same.  So lists of the same terms come to the same normal form, if the terms are told
apart by how they are written (`Term.disjunctionOf_reduce_congr`).

## What is here

* `Term.Equivalent`, `Term.exists_mem_conjunctions_comm` — conjunctions in either order.
* `Term.ToldApart` — terms that no two of are merged, and that are told apart by their texts.
* `Term.reduceRounds_eq_prune` — what is left where nothing is merged.
-/

set_option autoImplicit false

namespace RuleCoverage

variable {ctx : Interpretation} {r : Reading ctx}

/-! ## Lists with the same items -/

/-- Lists that have the same items up to an equivalence, each item once, are permutations of each
other as far as the equivalence can tell. -/
theorem List.map_perm_of_matched {α β : Type} {R : α → α → Prop} {f : α → β} {xs ys : List α}
    (hsymm : ∀ {x y}, R x y → R y x) (htrans : ∀ {x y z}, R x y → R y z → R x z)
    (hf : ∀ {x y}, R x y → f x = f y) (hxs : xs.Pairwise fun x y ↦ ¬ R x y)
    (hys : ys.Pairwise fun x y ↦ ¬ R x y) (hleft : ∀ x ∈ xs, ∃ y ∈ ys, R x y)
    (hright : ∀ y ∈ ys, ∃ x ∈ xs, R x y) : (xs.map f).Perm (ys.map f) := by
  induction xs generalizing ys with
  | nil =>
    have hnil : ys = [] := List.eq_nil_iff_forall_not_mem.2 fun y hy ↦ by
      obtain ⟨x, hx, -⟩ := hright y hy
      cases hx
    rw [hnil]
  | cons x xs ih =>
    obtain ⟨y, hy, hxy⟩ := hleft x List.mem_cons_self
    obtain ⟨before, after, rfl⟩ := List.append_of_mem hy
    have hmiddle : (before ++ y :: after).Perm (y :: (before ++ after)) := List.perm_middle
    rw [hmiddle.pairwise_iff fun hn h ↦ hn (hsymm h), List.pairwise_cons] at hys
    rw [List.pairwise_cons] at hxs
    simp only [hmiddle.mem_iff, List.mem_cons] at hleft hright
    have hrest : (xs.map f).Perm ((before ++ after).map f) := by
      refine ih hxs.2 hys.2 (fun z hz ↦ ?_) fun z hz ↦ ?_
      · obtain ⟨w, rfl | hw, hzw⟩ := hleft z (.inr hz)
        · exact absurd (htrans hxy (hsymm hzw)) (hxs.1 z hz)
        · exact ⟨w, hw, hzw⟩
      · obtain ⟨w, rfl | hw, hwz⟩ := hright z (.inr hz)
        · exact absurd (htrans (hsymm hxy) hwz) (hys.1 z hz)
        · exact ⟨w, hw, hwz⟩
    rw [List.map_cons, hf hxy]
    exact (hrest.cons (f y)).trans (hmiddle.symm.map f)

/-- The order of predicates that are told apart by their texts does not matter for how they are put
in order. -/
theorem Predicate.sorted_perm {ps qs : List Predicate} (h : ps.Perm qs)
    (htexts : ∀ p ∈ ps, ∀ q ∈ ps, p.text = q.text → p = q) : sorted ps = sorted qs := by
  have hsorted : ∀ xs, sorted xs = xs.mergeSort (textOrder text) := fun xs ↦ by
    have hmap := sorted_map id xs
    rwa [List.map_id, List.map_id] at hmap
  rw [hsorted, hsorted]
  have hantisymm : ∀ p q, p ∈ ps.mergeSort (textOrder text) → q ∈ qs.mergeSort (textOrder text) →
      textOrder text p q = true → textOrder text q p = true → p = q := by
    intro p q hp hq hpq hqp
    rw [textOrder_iff] at hpq hqp
    rw [(List.mergeSort_perm ps _).mem_iff] at hp
    rw [(List.mergeSort_perm qs _).mem_iff, ← h.mem_iff] at hq
    exact htexts p hp q hq (String.le_antisymm hpq hqp)
  exact List.Perm.eq_of_pairwise hantisymm
    (List.pairwise_mergeSort textOrder_trans textOrder_total ps)
    (List.pairwise_mergeSort textOrder_trans textOrder_total qs)
    ((List.mergeSort_perm ps _).trans (h.trans (List.mergeSort_perm qs _).symm))

namespace Term

variable {s t u w : Term} {ss ts us earlier : List Term}

/-! ## Conjunctions -/

section exceeds

variable {a : String} {vs : ValueSet} {bs cs cs' ds : List (String × ValueSet)}

/-- Each of the second constraints is among the first ones, or a stronger one is. -/
def Exceeds (cs ds : List (String × ValueSet)) : Prop :=
  ∀ d ∈ ds, ∃ us, (d.1, us) ∈ cs ∧ us.subset d.2 = true

theorem exceeds_of_subset (h : ∀ d ∈ ds, d ∈ cs) : Exceeds cs ds :=
  fun d hd ↦ ⟨d.2, h d hd, (ValueSet.subset_iff rfl).2 fun _ ↦ id⟩

theorem exceeds_cons {d : String × ValueSet} : Exceeds cs (d :: ds) ↔
    (∃ us, (d.1, us) ∈ cs ∧ us.subset d.2 = true) ∧ Exceeds cs ds :=
  List.forall_mem_cons

theorem Exceeds.mono (h : Exceeds cs ds) (hsub : ∀ c ∈ cs, c ∈ cs') : Exceeds cs' ds :=
  fun d hd ↦ (h d hd).imp fun _ hus ↦ ⟨hsub _ hus.1, hus.2⟩

theorem Exceeds.trans (hbs : ConstraintsValid r bs) (hcs : ConstraintsValid r cs)
    (hds : ∀ d ∈ ds, d.2.Demand r d.1) (h : Exceeds bs cs) (h' : Exceeds cs ds) :
    Exceeds bs ds := by
  intro d hd
  obtain ⟨us, hus, husd⟩ := h' d hd
  obtain ⟨ws, hws, hwus⟩ := h _ hus
  have hdu := hcs.demands _ hus
  have hdw := hbs.demands _ hws
  rw [ValueSet.subset_iff (hdu.sameShape (hds d hd))] at husd
  rw [ValueSet.subset_iff (hdw.sameShape hdu)] at hwus
  refine ⟨ws, hws, (ValueSet.subset_iff (hdw.sameShape (hds d hd))).2 fun v hv ↦ ?_⟩
  exact husd v (hwus v hv)

/-- Adding a constraint makes stronger constraints. -/
theorem exceeds_constrain? (hvs : vs.Demand r a) (hcs : ConstraintsValid r cs)
    (h : constrain? a vs cs = some cs') : Exceeds cs' ((a, vs) :: cs) := by
  replace h := constrains_of_constrain? h
  induction h with
  | last | before => exact exceeds_of_subset fun _ ↦ id
  | overlap hne =>
    obtain ⟨hus, -, -⟩ := constraintsValid_cons.1 hcs
    have hboth := hus.inter hvs hne
    have hmem := ValueSet.mem_inter (hus.sameShape hvs)
    refine exceeds_cons.2 ⟨⟨_, List.mem_cons_self, ?_⟩, exceeds_cons.2
      ⟨⟨_, List.mem_cons_self, ?_⟩, exceeds_of_subset fun _ ↦ List.mem_cons_of_mem _⟩⟩
    · exact (ValueSet.subset_iff (hboth.sameShape hvs)).2 fun v hv ↦ ((hmem v).1 hv).2
    · exact (ValueSet.subset_iff (hboth.sameShape hus)).2 fun v hv ↦ ((hmem v).1 hv).1
  | @behind b us rest rest' _ _ ih =>
    obtain ⟨-, -, hrest⟩ := constraintsValid_cons.1 hcs
    obtain ⟨hnew, hold⟩ := exceeds_cons.1 ((ih hrest).mono fun _ ↦ List.mem_cons_of_mem (b, us))
    refine exceeds_cons.2 ⟨hnew, exceeds_cons.2 ⟨⟨us, List.mem_cons_self, ?_⟩, hold⟩⟩
    exact (ValueSet.subset_iff rfl).2 fun _ ↦ id

/-- A constraint can be added to others if some constraints are stronger than all of them, and these
are stronger than what comes out. -/
theorem exists_constrain? (hvs : vs.Demand r a) (hcs : ConstraintsValid r cs)
    (hbs : ConstraintsValid r bs) (h : Exceeds bs ((a, vs) :: cs)) :
    ∃ cs', constrain? a vs cs = some cs' ∧ Exceeds bs cs' := by
  induction cs with
  | nil => exact ⟨_, rfl, h⟩
  | cons c rest ih =>
    obtain ⟨b, us⟩ := c
    obtain ⟨hus, -, hrest⟩ := constraintsValid_cons.1 hcs
    obtain ⟨hnew, hold⟩ := exceeds_cons.1 h
    obtain ⟨hb, hothers⟩ := exceeds_cons.1 hold
    rw [constrain?_cons]
    split
    · rename_i hba
      subst hba
      -- the strongest constraints have just one value set for the attribute
      obtain ⟨ws, hws, hwvs⟩ := hnew
      obtain ⟨ws', hws', hwus⟩ := hb
      have hget := Dictionary.get?_of_mem hbs.ascending hws
      cases hget.symm.trans (Dictionary.get?_of_mem hbs.ascending hws')
      have hdw := hbs.demands _ hws
      rw [ValueSet.subset_iff (hdw.sameShape hvs)] at hwvs
      rw [ValueSet.subset_iff (hdw.sameShape hus)] at hwus
      have hmem : ∀ v, ws.Mem v → (us.inter vs).Mem v := fun v hv ↦
        (ValueSet.mem_inter (hus.sameShape hvs) v).2 ⟨hwus v hv, hwvs v hv⟩
      obtain ⟨v, hv⟩ := hdw.nonempty
      have hne : ¬ (us.inter vs).isEmpty = true :=
        fun hempty ↦ (ValueSet.isEmpty_iff _).1 hempty v (hmem v hv)
      refine ⟨_, if_neg hne, exceeds_cons.2 ⟨⟨ws, hws, ?_⟩, hothers⟩⟩
      exact (ValueSet.subset_iff (hdw.sameShape (hus.inter hvs hne))).2 hmem
    split
    · exact ⟨_, rfl, h⟩
    · obtain ⟨rest', hr, hexceeds⟩ := ih hrest (exceeds_cons.2 ⟨hnew, hothers⟩)
      exact ⟨(b, us) :: rest', by rw [hr]; rfl, exceeds_cons.2 ⟨hb, hexceeds⟩⟩

theorem exceeds_foldlM (hcs : ConstraintsValid r cs) (hds : ∀ d ∈ ds, d.2.Demand r d.1)
    (h : ds.foldlM (fun acc (a, vs) ↦ constrain? a vs acc) cs = some cs') :
    Exceeds cs' cs ∧ Exceeds cs' ds := by
  induction ds generalizing cs with
  | nil =>
    cases h
    exact ⟨exceeds_of_subset fun _ ↦ id, List.forall_mem_nil _⟩
  | cons d ds ih =>
    obtain ⟨a, vs⟩ := d
    rw [List.forall_mem_cons] at hds
    obtain ⟨mid, hmid, h⟩ := Option.bind_eq_some_iff.1 h
    have hvalid := valid_constrain? hds.1 hcs hmid
    have hvalid' := (foldlM_constrain? ds hvalid hds.2).1 cs' h
    obtain ⟨hfirst, hrest⟩ := ih hvalid hds.2 h
    have hboth := hfirst.trans hvalid' hvalid (List.forall_mem_cons.2 ⟨hds.1, hcs.demands⟩)
      (exceeds_constrain? hds.1 hcs hmid)
    rw [exceeds_cons] at hboth
    exact ⟨hboth.2, exceeds_cons.2 ⟨hboth.1, hrest⟩⟩

theorem exists_foldlM (hcs : ConstraintsValid r cs) (hds : ∀ d ∈ ds, d.2.Demand r d.1)
    (hbs : ConstraintsValid r bs) (h : Exceeds bs cs) (h' : Exceeds bs ds) :
    ∃ cs', ds.foldlM (fun acc (a, vs) ↦ constrain? a vs acc) cs = some cs' ∧ Exceeds bs cs' := by
  induction ds generalizing cs with
  | nil => exact ⟨cs, rfl, h⟩
  | cons d ds ih =>
    obtain ⟨a, vs⟩ := d
    rw [List.forall_mem_cons] at hds
    rw [exceeds_cons] at h'
    obtain ⟨mid, hmid, hexceeds⟩ := exists_constrain? hds.1 hcs hbs (exceeds_cons.2 ⟨h'.1, h⟩)
    obtain ⟨cs', hcs', hall⟩ := ih (valid_constrain? hds.1 hcs hmid) hds.2 hexceeds h'.2
    exact ⟨cs', Option.bind_eq_some_iff.2 ⟨mid, hmid, hcs'⟩, hall⟩

end exceeds

/-- A conjunction implies both terms. -/
theorem implies_conjoin? (hs : s.Valid r) (ht : t.Valid r) (h : s.conjoin? t = some u) :
    u.implies s = true ∧ u.implies t = true := by
  have hu := hs.conjoin? ht h
  obtain ⟨hcs, hls, -⟩ := conjoin?_eq_some.1 h
  obtain ⟨hleft, hright⟩ := exceeds_foldlM hs.constraints ht.constraints.demands hcs
  have hclass := Distinct.exists_union OpaqueLiteral.decidedBy_tag hs.opaques.members
    ht.opaques.members
  rw [← hls] at hclass
  rw [implies_iff hu.orderly hs.orderly, implies_iff hu.orderly ht.orderly]
  exact ⟨⟨fun m hm ↦ (hclass _).2 (.inl ⟨m, hm, rfl⟩), hleft⟩,
    fun m hm ↦ (hclass _).2 (.inr ⟨m, hm, rfl⟩), hright⟩

/-- Terms that one term implies can be joined, and it implies the conjunction. -/
theorem exists_conjoin? (hs : s.Valid r) (ht : t.Valid r) (hu : u.Valid r)
    (hus : u.implies s = true) (hut : u.implies t = true) :
    ∃ w, s.conjoin? t = some w ∧ u.implies w = true := by
  rw [implies_iff hu.orderly hs.orderly] at hus
  rw [implies_iff hu.orderly ht.orderly] at hut
  obtain ⟨cs, hcs, hexceeds⟩ := exists_foldlM hs.constraints ht.constraints.demands hu.constraints
    hus.2 hut.2
  have hunion := hs.opaques.union ht.opaques
  have hclass : ∀ l ∈ (s.literals.union t.literals).toList, ∃ m ∈ u.literals.toList,
      m.class_ = l.class_ := by
    intro l hl
    exact (Distinct.mem_of_mem_union hl).elim (hus.1 l) (hut.1 l)
  have hany : ¬ ((s.literals.union t.literals).toList.any fun l ↦
      (s.literals.union t.literals).contains l.negate) = true := by
    rw [List.any_eq_true]
    rintro ⟨l, hl, hc⟩
    obtain ⟨m, hm, htag, hsign⟩ := (contains_negate_iff hunion.members hl).1 hc
    obtain ⟨l', hl', hll⟩ := hclass l hl
    obtain ⟨m', hm', hmm⟩ := hclass m hm
    rw [OpaqueLiteral.class_, OpaqueLiteral.class_, Prod.mk.injEq] at hll hmm
    have hsame := hu.consistent l' hl' m' hm' (hll.1.trans (htag.symm.trans hmm.1.symm))
    rw [hll.2, hmm.2, hsign] at hsame
    exact (Bool.eq_not_self _).1 hsame
  have hw : s.conjoin? t = some ⟨cs, s.literals.union t.literals⟩ :=
    conjoin?_eq_some.2 ⟨hcs, rfl, hany⟩
  exact ⟨_, hw, (implies_iff hu.orderly (hs.conjoin? ht hw).orderly).2 ⟨hclass, hexceeds⟩⟩

/-- The terms demand the same. -/
def Equivalent (s t : Term) : Prop := s.implies t = true ∧ t.implies s = true

theorem Equivalent.symm (h : s.Equivalent t) : t.Equivalent s := And.symm h

theorem Equivalent.trans (hs : s.Orderly ctx) (ht : t.Orderly ctx) (hu : u.Orderly ctx)
    (h : s.Equivalent t) (h' : t.Equivalent u) : s.Equivalent u :=
  ⟨implies_trans hs ht hu h.1 h'.1, implies_trans hu ht hs h'.2 h.2⟩

/-- Two terms can be joined in either order, and the conjunctions demand the same. -/
theorem exists_conjoin?_comm (hs : s.Valid r) (ht : t.Valid r) (h : s.conjoin? t = some u) :
    ∃ w, t.conjoin? s = some w ∧ u.Equivalent w := by
  obtain ⟨hus, hut⟩ := implies_conjoin? hs ht h
  obtain ⟨w, hw, huw⟩ := exists_conjoin? ht hs (hs.conjoin? ht h) hut hus
  obtain ⟨hwt, hws⟩ := implies_conjoin? ht hs hw
  obtain ⟨u', hu', hwu⟩ := exists_conjoin? hs ht (ht.conjoin? hs hw) hws hwt
  cases h.symm.trans hu'
  exact ⟨w, hw, huw, hwu⟩

/-- **Conjunctions do not depend on the order of what is joined.** -/
theorem exists_mem_conjunctions_comm (hss : AllValid r ss) (hts : AllValid r ts)
    (hu : u ∈ conjunctions ss ts) : ∃ w ∈ conjunctions ts ss, u.Equivalent w := by
  simp only [conjunctions, List.mem_flatMap, List.mem_filterMap] at hu ⊢
  obtain ⟨s, hs, t, ht, hu⟩ := hu
  obtain ⟨w, hw, huw⟩ := exists_conjoin?_comm (hss s hs) (hts t ht) hu
  exact ⟨w, ⟨t, ht, s, hs, hw⟩, huw⟩

/-! ## Reducing without merging -/

theorem reduce_nil (full? : String → Option ValueSet) : reduce full? [] = [] := by
  rw [reduce, reduceRounds_eq]
  rfl

/-- All terms of a list that the term implies imply it in turn. -/
def Weakest (ts : List Term) (t : Term) : Prop :=
  ∀ u ∈ ts, t.implies u = true → u.implies t = true

/-- What is kept implies no term before it, and of the terms after it only those that imply it in
turn. -/
theorem split_of_mem_prune (h : t ∈ prune earlier ts) : ∃ before after,
    ts = before ++ t :: after ∧ (∀ u ∈ earlier ++ before, ¬ t.implies u = true) ∧
      ∀ u ∈ after, t.implies u = true → u.implies t = true := by
  induction ts generalizing earlier with
  | nil => cases h
  | cons s later ih =>
    have hlater : t ∈ prune (earlier ++ [s]) later → ∃ before after,
        s :: later = before ++ t :: after ∧ (∀ u ∈ earlier ++ before, ¬ t.implies u = true) ∧
          ∀ u ∈ after, t.implies u = true → u.implies t = true := by
      intro h
      obtain ⟨before, after, rfl, hbefore, hafter⟩ := ih h
      refine ⟨s :: before, after, rfl, ?_, hafter⟩
      rwa [List.append_assoc, List.singleton_append] at hbefore
    rw [prune] at h
    split at h
    · exact hlater h
    rename_i hkeep
    rcases List.mem_cons.1 h with rfl | h
    · simp only [Bool.or_eq_true, List.any_eq_true, Bool.and_eq_true, Bool.not_eq_true', not_or,
        not_exists, not_and, Bool.not_eq_false] at hkeep
      refine ⟨[], later, rfl, ?_, hkeep.2⟩
      rw [List.append_nil]
      exact hkeep.1
    · exact hlater h

/-- **What is kept is weakest.** -/
theorem weakest_of_mem_prune (h : t ∈ prune [] ts) : Weakest ts t := by
  obtain ⟨before, after, rfl, hbefore, hafter⟩ := split_of_mem_prune h
  rw [List.nil_append] at hbefore
  intro u hu htu
  rcases List.mem_append.1 hu with hu | hu
  · exact absurd htu (hbefore u hu)
  rcases List.mem_cons.1 hu with rfl | hu
  · exact htu
  · exact hafter u hu htu

/-- Of the terms that are kept, none implies another one. -/
theorem pairwise_prune : (prune earlier ts).Pairwise fun s t ↦
    ¬ s.implies t = true ∧ ¬ t.implies s = true := by
  induction ts generalizing earlier with
  | nil => exact .nil
  | cons s later ih =>
    rw [prune]
    split
    · exact ih
    rename_i hkeep
    simp only [Bool.or_eq_true, List.any_eq_true, Bool.and_eq_true, Bool.not_eq_true', not_or,
      not_exists, not_and, Bool.not_eq_false] at hkeep
    refine List.pairwise_cons.2 ⟨fun t ht ↦ ?_, ih⟩
    obtain ⟨before, after, hlater, hbefore, -⟩ := split_of_mem_prune ht
    have hts : ¬ t.implies s = true := hbefore s (by simp)
    exact ⟨fun hst ↦ hts (hkeep.2 t (by simp [hlater]) hst), hts⟩

theorem reduceRounds_eq_self {full? : String → Option ValueSet} (hts : AllValid r ts)
    (h : Reduced ts) : reduceRounds full? ts = ts := by
  have hreduce : reduce full? ts = ts := reduce_eq_self hts.orderly h
  rwa [reduce, dedup_eq_self hts.orderly h.apart] at hreduce

/-- **Where nothing can be merged, the weakest terms are left**, unless one of them always holds. -/
theorem reduceRounds_eq_prune (hts : AllValid r ts)
    (h : ∀ s ∈ prune [] ts, ∀ t ∈ prune [] ts, (merge? ctx.full? s t).isSome = false) :
    reduceRounds ctx.full? ts = if ts.any isAlways then [always] else prune [] ts := by
  have hkept : AllValid r (prune [] ts) := forall_prune hts
  rw [reduceRounds_eq]
  split
  · rfl
  rename_i halways
  have hreduced : Reduced (prune [] ts) := by
    refine ⟨pairwise_prune.imp_of_mem fun {s t} hs ht hst ↦ ⟨hst.1, hst.2, fun hmerge ↦ ?_⟩, ?_⟩
    · rw [← isSome_merge?_iff (hkept s hs).orderly (hkept t ht).orderly, h s hs t ht] at hmerge
      cases hmerge
    · exact fun t ht hal ↦ absurd (List.any_eq_true.2 ⟨t, mem_of_mem_prune ht, hal⟩) halways
  have hfirst : mergeFirst? ctx.full? (prune [] ts) = none :=
    mergeFirst?_eq_none hkept.orderly hreduced.apart
  have hany : mergeAny? ctx.full? [] (prune [] ts) = none :=
    mergeAny?_eq_none hkept.orderly hreduced.apart
  rw [round?, hfirst, hany]
  by_cases hdropped : (prune [] ts).length < ts.length
  · rw [if_pos hdropped]
    exact reduceRounds_eq_self hkept hreduced
  · rw [if_neg hdropped]
    exact ((prune_sublist [] ts).eq_of_length_le (Nat.not_lt.1 hdropped)).symm

/-! ## Normal forms of the same terms -/

/-- No two of the terms are merged, as none are left that could be, and the terms are told apart by
their texts: those that demand the same are written alike, and others are written differently. -/
structure ToldApart (ctx : Interpretation) (ts : List Term) : Prop where
  unmerged : ∀ s ∈ ts, ∀ t ∈ ts, Weakest ts s → Weakest ts t →
    (merge? ctx.full? s t).isSome = false
  alike : ∀ s ∈ ts, ∀ t ∈ ts,
    s.Equivalent t ∨ (s.toPredicate ctx).text = (t.toPredicate ctx).text →
      s.toPredicate ctx = t.toPredicate ctx

/-- Some of the terms of a list, and among them one that demands the same for each of the others. -/
structure Represents (ds all : List Term) : Prop where
  mem : ∀ d ∈ ds, d ∈ all
  exists_equivalent : ∀ t ∈ all, ∃ d ∈ ds, t.Equivalent d

section represents

variable {all ds es : List Term} (hall : AllValid r all)
include hall

theorem represents_conjunctions (hss : AllValid r ss) (hts : AllValid r ts)
    (h : ∀ t, t ∈ all ↔ t ∈ conjunctions ss ts ∨ t ∈ conjunctions ts ss) :
    Represents (conjunctions ss ts) all := by
  refine ⟨fun t ht ↦ (h t).2 (.inl ht), fun t ht ↦ ?_⟩
  rcases (h t).1 ht with hmem | hmem
  · exact ⟨t, hmem, implies_refl (hall t ht).orderly, implies_refl (hall t ht).orderly⟩
  · exact exists_mem_conjunctions_comm hts hss hmem

theorem represents_perm (h : ds.Perm all) : Represents ds all :=
  ⟨fun _ ↦ h.mem_iff.1, fun t ht ↦
    ⟨t, h.mem_iff.2 ht, implies_refl (hall t ht).orderly, implies_refl (hall t ht).orderly⟩⟩

variable (hds : Represents ds all)
include hds

theorem Represents.dedup : Represents (dedup ds) all where
  mem d hd := hds.mem d (Distinct.mem_of_mem_ofList hd)
  exists_equivalent := by
    intro t ht
    obtain ⟨d, hd, htd⟩ := hds.exists_equivalent t ht
    obtain ⟨e, he, hed⟩ := Distinct.exists_mem_ofList hd
    have hdorder := (hall d (hds.mem d hd)).orderly
    have heorder := (hall e (hds.mem e (Distinct.mem_of_mem_ofList he))).orderly
    refine ⟨e, he, htd.trans (hall t ht).orderly hdorder heorder ?_⟩
    rcases hed with rfl | hed
    · exact ⟨implies_refl heorder, implies_refl heorder⟩
    · rw [beq_iff] at hed
      have hback : (d == e) = true :=
        beq_iff.2 ⟨constraints_beq_symm hed.1, (Bool.and_comm ..).trans hed.2⟩
      exact ⟨implies_of_beq hdorder heorder hback, implies_of_beq heorder hdorder (beq_iff.2 hed)⟩

/-- A term of the list that is weakest among the representatives is so among all terms. -/
theorem Represents.weakest (ht : t ∈ ds) (h : Weakest ds t) : Weakest all t := by
  intro u hu htu
  obtain ⟨d, hd, hud⟩ := hds.exists_equivalent u hu
  have htorder := (hall t (hds.mem t ht)).orderly
  have huorder := (hall u hu).orderly
  have hdorder := (hall d (hds.mem d hd)).orderly
  have hdt := h d hd (implies_trans htorder huorder hdorder htu hud.1)
  exact implies_trans huorder hdorder htorder hud.1 hdt

theorem Represents.any_isAlways : ds.any isAlways = all.any isAlways := by
  rw [Bool.eq_iff_iff, List.any_eq_true, List.any_eq_true]
  constructor
  · rintro ⟨d, hd, hal⟩
    exact ⟨d, hds.mem d hd, hal⟩
  · rintro ⟨t, ht, hal⟩
    obtain ⟨d, hd, htd⟩ := hds.exists_equivalent t ht
    obtain rfl := eq_always hal
    rw [Equivalent, implies_iff (hall _ ht).orderly (hall d (hds.mem d hd)).orderly] at htd
    refine ⟨d, hd, ?_⟩
    rw [isAlways, Bool.and_eq_true, List.isEmpty_iff, Distinct.isEmpty_iff]
    constructor
    · rw [List.eq_nil_iff_forall_not_mem]
      intro c hc
      obtain ⟨us, hus, -⟩ := htd.1.2 c hc
      cases hus
    · intro l hl
      obtain ⟨m, hm, -⟩ := htd.1.1 l hl
      exact Distinct.not_mem_empty m hm

variable (hes : Represents es all)

include hes in
/-- What is kept of one list demands the same as something that is kept of the other one. -/
theorem Represents.exists_kept (ht : t ∈ prune [] ds) : ∃ u ∈ prune [] es, t.Equivalent u := by
  have htds := mem_of_mem_prune ht
  have htall := hds.mem t htds
  have hvalid : AllValid r es := fun e he ↦ hall e (hes.mem e he)
  obtain ⟨e, he, hte⟩ := hes.exists_equivalent t htall
  obtain ⟨u, hu, heu⟩ := exists_mem_prune hvalid.orderly he
  have huall := hes.mem u (mem_of_mem_prune hu)
  have htu := implies_trans (hall t htall).orderly (hvalid e he).orderly (hall u huall).orderly
    hte.1 heu
  exact ⟨u, hu, htu, hds.weakest hall htds (weakest_of_mem_prune ht) u huall htu⟩

variable (happart : ToldApart ctx all)
include happart

theorem Represents.reduceRounds_eq : reduceRounds ctx.full? ds =
    if all.any isAlways then [always] else prune [] ds := by
  have hvalid : AllValid r ds := fun d hd ↦ hall d (hds.mem d hd)
  rw [reduceRounds_eq_prune hvalid, hds.any_isAlways hall]
  intro s hs t ht
  have hs' := mem_of_mem_prune hs
  have ht' := mem_of_mem_prune ht
  exact happart.unmerged s (hds.mem s hs') t (hds.mem t ht')
    (hds.weakest hall hs' (weakest_of_mem_prune hs))
    (hds.weakest hall ht' (weakest_of_mem_prune ht))

include hes

/-- **Lists of the same terms come to the same normal form**, if nothing is merged and the terms are
told apart by their texts. -/
theorem disjunctionOf_reduce_congr :
    disjunctionOf ctx (reduce ctx.full? ds) = disjunctionOf ctx (reduce ctx.full? es) := by
  have hds' := hds.dedup hall
  have hes' := hes.dedup hall
  rw [reduce, reduce, hds'.reduceRounds_eq hall happart, hes'.reduceRounds_eq hall happart]
  split
  · rfl
  have hmem : ∀ {xs t}, Represents xs all → t ∈ prune [] xs → t ∈ all :=
    fun hxs ht ↦ hxs.mem _ (mem_of_mem_prune ht)
  have hpairs : ∀ xs : List Term, (prune [] xs).Pairwise fun s t ↦
      ¬ (s ∈ all ∧ t ∈ all ∧ s.Equivalent t) :=
    fun xs ↦ pairwise_prune.imp fun hst h ↦ hst.1 h.2.2.1
  have hperm : ((prune [] (Term.dedup ds)).map (toPredicate ctx)).Perm
      ((prune [] (Term.dedup es)).map (toPredicate ctx)) := by
    refine List.map_perm_of_matched ?_ ?_ ?_ (hpairs _) (hpairs _) ?_ ?_
    · exact fun h ↦ ⟨h.2.1, h.1, h.2.2.symm⟩
    · exact fun h h' ↦ ⟨h.1, h'.2.1, h.2.2.trans (hall _ h.1).orderly (hall _ h.2.1).orderly
        (hall _ h'.2.1).orderly h'.2.2⟩
    · exact fun h ↦ happart.alike _ h.1 _ h.2.1 (.inl h.2.2)
    · intro s hs
      obtain ⟨t, ht, hst⟩ := hds'.exists_kept hall hes' hs
      exact ⟨t, ht, hmem hds' hs, hmem hes' ht, hst⟩
    · intro t ht
      obtain ⟨s, hs, hts⟩ := hes'.exists_kept hall hds' ht
      exact ⟨s, hs, hmem hds' hs, hmem hes' ht, hts.symm⟩
  rw [disjunctionOf, disjunctionOf, Predicate.sorted_perm hperm]
  intro p hp q hq htext
  obtain ⟨s, hs, rfl⟩ := List.mem_map.1 hp
  obtain ⟨t, ht, rfl⟩ := List.mem_map.1 hq
  exact happart.alike s (hmem hds' hs) t (hmem hds' ht) (.inr htext)

end represents

end Term

end RuleCoverage
