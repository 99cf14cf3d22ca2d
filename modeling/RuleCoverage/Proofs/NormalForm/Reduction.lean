import RuleCoverage.NormalForm.Reduced
import RuleCoverage.Proofs.NormalForm.Merging

/-!
# Reducing keeps the meaning

A list of terms stands for their disjunction.  Dropping a term is right because a weaker one stays:
among all terms that a dropped one implies there are some that imply the fewest, and the first of
these is kept (`Term.exists_mem_prune`).  Merging replaces two terms by their disjunction.

What a term says may depend on more than a `Reading`, but all that matters here is that it goes
along with equality, strength and merging (`Term.IsMeaning`).

A reduction goes round by round (`Term.round?`), and what one round keeps is true of its end: so are
shown the meaning (`Term.IsMeaning.reduce_spec`) and whatever dropping and merging keep
(`Term.reduce_induction`).

## What is here

* `Term.IsMeaning.exists_prune_iff`, `Term.IsMeaning.reduce_spec` — the disjunction stays the same,
  and the terms stay in order.
* `Term.anySat_reduce`, `Term.allValid_reduce` — what that comes to for a reading.
-/

set_option autoImplicit false

namespace RuleCoverage

variable {ctx : Interpretation} {r : Reading ctx}

namespace Term

/-- One of the terms holds. -/
def AnySat (r : Reading ctx) (ts : List Term) : Prop := ∃ t ∈ ts, t.Sat r

/-- All of the terms are in good order. -/
def AllValid (r : Reading ctx) (ts : List Term) : Prop := ∀ t ∈ ts, t.Valid r

/-- What it is for terms of some form, the good ones, to hold: weaker terms hold if stronger ones
do, and merged terms, which are good again, are disjunctions. -/
structure IsMeaning (ctx : Interpretation) (Good Holds : Term → Prop) : Prop where
  orderly : ∀ {t}, Good t → t.Orderly ctx
  good_always : Good always
  holds_of_isAlways : ∀ {t}, t.isAlways = true → Holds t
  congr : ∀ {s t}, Good s → Good t → (s == t) = true → (Holds s ↔ Holds t)
  of_implies : ∀ {s t}, Good s → Good t → s.implies t = true → Holds s → Holds t
  good_merge : ∀ {s t u}, Good s → Good t → merge? ctx.full? s t = some u → Good u
  merge_iff : ∀ {s t u}, Good s → Good t → merge? ctx.full? s t = some u →
    (Holds u ↔ Holds s ∨ Holds t)

variable {ts us earlier others : List Term} {t m : Term} {Good Holds : Term → Prop}

theorem anySat_append : AnySat r (ts ++ us) ↔ AnySat r ts ∨ AnySat r us := by
  simp only [AnySat, List.mem_append, or_and_right, exists_or]

theorem anySat_cons : AnySat r (t :: ts) ↔ t.Sat r ∨ AnySat r ts := by
  simp only [AnySat, List.mem_cons, exists_eq_or_imp]

theorem allValid_append : AllValid r (ts ++ us) ↔ AllValid r ts ∧ AllValid r us :=
  List.forall_mem_append

theorem AllValid.orderly (h : AllValid r ts) : ∀ t ∈ ts, t.Orderly ctx :=
  fun t ht ↦ (h t ht).orderly

/-- What terms say under a reading is a meaning of terms in order. -/
theorem isMeaning_sat (r : Reading ctx) : IsMeaning ctx (Valid r) (Sat r) where
  orderly := Valid.orderly
  good_always := valid_always
  holds_of_isAlways := sat_of_isAlways
  congr := sat_congr
  of_implies := sat_of_implies
  good_merge := Valid.merge?
  merge_iff := sat_merge?

/-! ## Equal terms -/

theorem forall_dedup {P : Term → Prop} (h : ∀ t ∈ ts, P t) : ∀ t ∈ dedup ts, P t :=
  fun t ht ↦ h t (Distinct.mem_of_mem_ofList ht)

theorem IsMeaning.exists_dedup_iff (h : IsMeaning ctx Good Holds) (hts : ∀ t ∈ ts, Good t) :
    (∃ t ∈ dedup ts, Holds t) ↔ ∃ t ∈ ts, Holds t := by
  constructor
  · rintro ⟨t, ht, hholds⟩
    exact ⟨t, Distinct.mem_of_mem_ofList ht, hholds⟩
  · rintro ⟨t, ht, hholds⟩
    obtain ⟨u, hu, rfl | hut⟩ := Distinct.exists_mem_ofList ht
    · exact ⟨u, hu, hholds⟩
    · exact ⟨u, hu, (h.congr (forall_dedup hts u hu) (hts t ht) hut).2 hholds⟩

/-! ## Dropping terms -/

theorem prune_sublist (earlier ts : List Term) : (prune earlier ts).Sublist ts := by
  induction ts generalizing earlier with
  | nil => exact .slnil
  | cons t later ih =>
    rw [prune]
    split
    · exact (ih _).cons t
    · exact (ih _).cons_cons t

theorem mem_of_mem_prune (h : t ∈ prune earlier ts) : t ∈ ts := (prune_sublist earlier ts).subset h

/-- A term is kept when it implies none of the terms before it, and of those after it only terms
that imply it in turn. -/
theorem mem_prune_of_split {before after : List Term} (hts : ts = before ++ t :: after)
    (hbefore : ∀ u ∈ earlier ++ before, ¬ t.implies u = true)
    (hafter : ∀ u ∈ after, t.implies u = true → u.implies t = true) : t ∈ prune earlier ts := by
  induction before generalizing earlier ts with
  | nil =>
    subst hts
    rw [List.nil_append, prune]
    rw [List.append_nil] at hbefore
    have hdrop : ¬ (earlier.any t.implies ||
        after.any (fun u ↦ t.implies u && !u.implies t)) = true := by
      simp only [Bool.or_eq_true, List.any_eq_true, Bool.and_eq_true, Bool.not_eq_true', not_or,
        not_exists, not_and, Bool.not_eq_false]
      exact ⟨hbefore, hafter⟩
    rw [if_neg hdrop]
    exact List.mem_cons_self
  | cons u before ih =>
    subst hts
    have hmem : t ∈ prune (earlier ++ [u]) (before ++ t :: after) := by
      refine ih rfl ?_
      rwa [List.append_assoc, List.singleton_append]
    rw [List.cons_append, prune]
    split
    · exact hmem
    · exact List.mem_cons_of_mem _ hmem

/-- How many terms of a list a term implies. -/
def strength (ts : List Term) (t : Term) : Nat := ts.countP t.implies

theorem strength_le (hts : ∀ t ∈ ts, t.Orderly ctx) {t u : Term} (ht : t.Orderly ctx)
    (hu : u.Orderly ctx) (h : t.implies u = true) : strength ts u ≤ strength ts t :=
  List.countP_mono_left fun w hw huw ↦ implies_trans ht hu (hts w hw) h huw

theorem strength_lt (hts : ∀ t ∈ ts, t.Orderly ctx) {t u : Term} (ht : t ∈ ts)
    (hu : u.Orderly ctx) (h : t.implies u = true) (hn : ¬ u.implies t = true) :
    strength ts u < strength ts t := by
  have horderly := hts t ht
  obtain ⟨before, after, rfl⟩ := List.append_of_mem ht
  have hle : ∀ w ∈ before ++ after, u.implies w = true → t.implies w = true := fun w hw huw ↦ by
    refine implies_trans horderly hu (hts w ?_) h huw
    rcases List.mem_append.1 hw with hw | hw
    · exact List.mem_append_left _ hw
    · exact List.mem_append_right _ (List.mem_cons_of_mem _ hw)
  have hb := List.countP_mono_left fun w hw ↦ hle w (List.mem_append_left _ hw)
  have ha := List.countP_mono_left fun w hw ↦ hle w (List.mem_append_right _ hw)
  simp only [strength, List.countP_append, List.countP_cons, implies_refl horderly, if_true,
    Bool.not_eq_true _ ▸ hn] at hb ha ⊢
  simp only [Bool.false_eq_true, if_false]
  omega

/-- **What is dropped implies something that is kept.** -/
theorem exists_mem_prune (hts : ∀ t ∈ ts, t.Orderly ctx) (ht : t ∈ ts) :
    ∃ k ∈ prune [] ts, t.implies k = true := by
  -- the least strength of a term that `t` implies
  have hex : ∃ n, ∃ u ∈ ts, t.implies u = true ∧ strength ts u = n :=
    ⟨_, t, ht, implies_refl (hts t ht), rfl⟩
  classical
  obtain ⟨u, hu, htu, hmin⟩ := Nat.find_spec hex
  have hleast : ∀ w ∈ ts, t.implies w = true → Nat.find hex ≤ strength ts w :=
    fun w hw htw ↦ Nat.find_min' hex ⟨w, hw, htw, rfl⟩
  -- the first of these terms
  have hfound : (ts.find? fun w ↦ t.implies w && strength ts w == Nat.find hex).isSome := by
    rw [List.find?_isSome]
    exact ⟨u, hu, by simp [htu, hmin]⟩
  obtain ⟨k, hk⟩ := Option.isSome_iff_exists.1 hfound
  obtain ⟨hkp, before, after, hsplit, hbefore⟩ := List.find?_eq_some_iff_append.1 hk
  simp only [Bool.and_eq_true, beq_iff_eq] at hkp
  have hkmem : k ∈ ts := List.mem_of_find?_eq_some hk
  have hmem : ∀ w, w ∈ before ∨ w ∈ after → w ∈ ts := by
    intro w hw
    rw [hsplit]
    exact hw.elim (List.mem_append_left _)
      fun h ↦ List.mem_append_right _ (List.mem_cons_of_mem _ h)
  have hsame : ∀ w, w ∈ ts → k.implies w = true →
      t.implies w = true ∧ strength ts w = Nat.find hex := by
    intro w hw hkw
    have htw := implies_trans (hts t ht) (hts k hkmem) (hts w hw) hkp.1 hkw
    have hle := strength_le hts (hts k hkmem) (hts w hw) hkw
    exact ⟨htw, Nat.le_antisymm (hkp.2 ▸ hle) (hleast w hw htw)⟩
  refine ⟨k, mem_prune_of_split hsplit ?_ ?_, hkp.1⟩
  · intro w hw hkw
    have h := hsame w (hmem w (.inl hw)) hkw
    have hn := hbefore w hw
    simp [h.1, h.2] at hn
  · intro w hw hkw
    by_contra hwk
    have hlt := strength_lt hts hkmem (hts w (hmem w (.inr hw))) hkw hwk
    have := (hsame w (hmem w (.inr hw)) hkw).2
    omega

theorem forall_prune {P : Term → Prop} (h : ∀ t ∈ ts, P t) : ∀ t ∈ prune [] ts, P t :=
  fun t ht ↦ h t (mem_of_mem_prune ht)

theorem IsMeaning.exists_prune_iff (h : IsMeaning ctx Good Holds) (hts : ∀ t ∈ ts, Good t) :
    (∃ t ∈ prune [] ts, Holds t) ↔ ∃ t ∈ ts, Holds t := by
  constructor
  · rintro ⟨t, ht, hholds⟩
    exact ⟨t, mem_of_mem_prune ht, hholds⟩
  · rintro ⟨t, ht, hholds⟩
    obtain ⟨k, hk, htk⟩ := exists_mem_prune (fun u hu ↦ h.orderly (hts u hu)) ht
    exact ⟨k, hk, h.of_implies (hts t ht) (forall_prune hts k hk) htk hholds⟩

/-! ## Merging pairs -/

/-- A term is merged with one of the list, and the others stay. -/
theorem exists_of_mergeWith? {full? : String → Option ValueSet}
    (h : mergeWith? full? t ts = some (others, m)) :
    ∃ u, merge? full? t u = some m ∧ ts.Perm (u :: others) := by
  induction ts generalizing others m with
  | nil => simp [mergeWith?] at h
  | cons u rest ih =>
    rw [mergeWith?] at h
    split at h
    · rename_i hm
      cases h
      exact ⟨u, hm, .refl _⟩
    · obtain ⟨⟨others', m'⟩, hr, heq⟩ := Option.map_eq_some_iff.1 h
      cases heq
      obtain ⟨v, hv, hperm⟩ := ih hr
      exact ⟨v, hv, (hperm.cons u).trans (.swap v u others')⟩

/-! ## Rounds -/

section rounds

variable {full? : String → Option ValueSet}

/-- What one round leaves of the terms; none if there is nothing to drop and nothing to merge. -/
def round? (full? : String → Option ValueSet) (ts : List Term) : Option (List Term) :=
  let kept := prune [] ts
  if kept.length < ts.length then some ((mergeFirst? full? kept).getD kept)
  else mergeAny? full? [] kept

/-- A round that does something leaves fewer terms. -/
theorem length_round? (h : round? full? ts = some us) : us.length < ts.length := by
  have hkept : (prune [] ts).length ≤ ts.length := length_prune_le [] ts
  rw [round?] at h
  split at h
  · rename_i hdropped
    cases h
    cases hm : mergeFirst? full? (prune [] ts) with
    | none => exact hdropped
    | some us => exact (length_mergeFirst? hm).trans hdropped
  · have := length_mergeAny? h
    rw [List.length_nil] at this
    omega

/-- The recursion of a reduction, round by round. -/
theorem reduceRounds_eq (full? : String → Option ValueSet) (ts : List Term) :
    reduceRounds full? ts = if ts.any isAlways then [always]
      else match round? full? ts with
        | some us => reduceRounds full? us
        | none => ts := by
  rw [reduceRounds, round?]
  refine if_congr Iff.rfl rfl ?_
  dsimp only
  by_cases hdropped : (prune [] ts).length < ts.length
  · rw [dif_pos hdropped, if_pos hdropped]
    split <;> rename_i hm <;> rw [hm] <;> rfl
  · have hkept : prune [] ts = ts :=
      (prune_sublist [] ts).eq_of_length_le (Nat.not_lt.1 hdropped)
    rw [dif_neg hdropped, if_neg hdropped]
    split <;> rename_i hm <;> rw [hm]
    exact hkept

/-- Where nothing is dropped, a round merges the first pair that can be merged. -/
theorem round?_of_prune_eq (h : prune [] ts = ts) : round? full? ts = mergeAny? full? [] ts := by
  rw [round?, h, if_neg (Nat.lt_irrefl _)]

/-- If a round does nothing, there is nothing to drop and nothing to merge. -/
theorem round?_eq_none (h : round? full? ts = none) :
    prune [] ts = ts ∧ mergeAny? full? [] ts = none := by
  rw [round?] at h
  split at h
  · cases h
  · rename_i hdropped
    have hkept : prune [] ts = ts :=
      (prune_sublist [] ts).eq_of_length_le (Nat.not_lt.1 hdropped)
    rw [hkept] at h
    exact ⟨hkept, h⟩

/-- What is true of a list if it is true of what a round leaves of it is true of every list. -/
@[elab_as_elim]
theorem induction_round? (full? : String → Option ValueSet) {motive : List Term → Prop}
    (step : ∀ ts, (∀ us, round? full? ts = some us → motive us) → motive ts) (ts : List Term) :
    motive ts := by
  induction hlen : ts.length using Nat.strong_induction_on generalizing ts with
  | h n ih =>
    subst hlen
    exact step ts fun us hus ↦ ih us.length (length_round? hus) us rfl

section steps

variable {Q : List Term → Prop} (hdedup : ∀ {ts}, Q ts → Q (dedup ts))
  (hmerge : ∀ {ts s t rest m}, ts.Perm (s :: t :: rest) → merge? full? s t = some m → Q ts →
    Q (rest ++ [m]))

include hdedup hmerge

theorem mergeWith?_step (earlier : List Term) (h : mergeWith? full? t ts = some (others, m))
    (hq : Q (earlier ++ t :: ts)) : Q (dedup (earlier ++ others ++ [m])) := by
  obtain ⟨u, hu, hperm⟩ := exists_of_mergeWith? h
  refine hdedup (hmerge ?_ hu hq)
  refine (List.Perm.append_left earlier (hperm.cons t)).trans ?_
  exact List.perm_middle.trans (List.perm_middle.cons t)

theorem mergeFirst?_step (h : mergeFirst? full? ts = some us) (hq : Q ts) : Q us := by
  cases ts with
  | nil => simp [mergeFirst?] at h
  | cons t rest =>
    obtain ⟨⟨others, m⟩, hm, rfl⟩ := Option.map_eq_some_iff.1 h
    exact mergeWith?_step (Q := Q) hdedup hmerge [] hm hq

theorem mergeAny?_step (earlier : List Term) (h : mergeAny? full? earlier ts = some us)
    (hq : Q (earlier ++ ts)) : Q us := by
  induction ts generalizing earlier with
  | nil => simp [mergeAny?] at h
  | cons t rest ih =>
    rw [mergeAny?] at h
    split at h
    · rename_i others m hm
      cases h
      exact mergeWith?_step (Q := Q) hdedup hmerge earlier hm hq
    · exact ih _ h (by rwa [List.append_assoc, List.singleton_append])

variable (hprune : ∀ {ts}, Q ts → Q (prune [] ts))

include hprune

/-- What dropping terms and merging two of them keeps is true of what a round leaves. -/
theorem round?_step (h : round? full? ts = some us) (hq : Q ts) : Q us := by
  rw [round?] at h
  split at h
  · cases h
    cases hm : mergeFirst? full? (prune [] ts) with
    | none => exact hprune hq
    | some us => exact mergeFirst?_step hdedup hmerge hm (hprune hq)
  · exact mergeAny?_step hdedup hmerge [] h (hprune hq)

/-- **What dropping terms and merging two of them keeps is true of a reduced list.** -/
theorem reduce_induction (halways : ∀ {ts}, ts.any isAlways = true → Q ts → Q [always])
    (hq : Q ts) : Q (reduce full? ts) := by
  have hrounds : ∀ ts, Q ts → Q (reduceRounds full? ts) := by
    intro ts
    induction ts using induction_round? full? with
    | step ts ih =>
      intro hq
      rw [reduceRounds_eq]
      split
      · exact halways ‹_› hq
      cases hround : round? full? ts with
      | none => exact hq
      | some us => exact ih us hround (round?_step hdedup hmerge hprune hround hq)
  exact hrounds _ (hdedup hq)

end steps

end rounds

/-- The terms are good, and one of them holds just if `holds` does. -/
def StandFor (Good Holds : Term → Prop) (holds : Prop) (ts : List Term) : Prop :=
  (∀ t ∈ ts, Good t) ∧ ((∃ t ∈ ts, Holds t) ↔ holds)

namespace IsMeaning

variable {holds : Prop} (h : IsMeaning ctx Good Holds)
include h

theorem standFor_dedup (hts : StandFor Good Holds holds ts) :
    StandFor Good Holds holds (dedup ts) :=
  ⟨forall_dedup hts.1, (h.exists_dedup_iff hts.1).trans hts.2⟩

theorem standFor_prune (hts : StandFor Good Holds holds ts) :
    StandFor Good Holds holds (prune [] ts) :=
  ⟨forall_prune hts.1, (h.exists_prune_iff hts.1).trans hts.2⟩

/-- Replacing two terms by a merged one keeps the disjunction. -/
theorem standFor_merge {s : Term} {rest : List Term} (hperm : ts.Perm (s :: t :: rest))
    (hm : merge? ctx.full? s t = some m) (hts : StandFor Good Holds holds ts) :
    StandFor Good Holds holds (rest ++ [m]) := by
  have hall : ∀ u ∈ s :: t :: rest, Good u := fun u hu ↦ hts.1 u (hperm.mem_iff.2 hu)
  rw [List.forall_mem_cons, List.forall_mem_cons] at hall
  obtain ⟨hs, ht, hrest⟩ := hall
  have hmerged := h.merge_iff hs ht hm
  refine ⟨List.forall_mem_append.2
    ⟨hrest, List.forall_mem_singleton.2 (h.good_merge hs ht hm)⟩, ?_⟩
  rw [← hts.2]
  simp only [List.mem_append, List.mem_cons, hperm.mem_iff, List.not_mem_nil, or_false,
    or_and_right, exists_or, exists_eq_left, hmerged]
  rw [or_comm, or_assoc]

theorem standFor_always (hal : ts.any isAlways = true) (hts : StandFor Good Holds holds ts) :
    StandFor Good Holds holds [always] := by
  obtain ⟨t, ht, hal⟩ := List.any_eq_true.1 hal
  refine ⟨List.forall_mem_singleton.2 h.good_always, ?_⟩
  exact iff_of_true ⟨always, List.mem_singleton_self _, h.holds_of_isAlways rfl⟩
    (hts.2.1 ⟨t, ht, h.holds_of_isAlways hal⟩)

theorem round?_spec (hts : ∀ t ∈ ts, Good t) (hround : round? ctx.full? ts = some us) :
    (∀ t ∈ us, Good t) ∧ ((∃ t ∈ us, Holds t) ↔ ∃ t ∈ ts, Holds t) :=
  round?_step (Q := StandFor Good Holds (∃ t ∈ ts, Holds t)) h.standFor_dedup h.standFor_merge
    h.standFor_prune hround ⟨hts, Iff.rfl⟩

/-- **A reduced list of terms is the same disjunction**, of terms of the same form. -/
theorem reduce_spec (hts : ∀ t ∈ ts, Good t) :
    (∀ t ∈ reduce ctx.full? ts, Good t) ∧
      ((∃ t ∈ reduce ctx.full? ts, Holds t) ↔ ∃ t ∈ ts, Holds t) :=
  reduce_induction (Q := StandFor Good Holds (∃ t ∈ ts, Holds t)) h.standFor_dedup
    h.standFor_merge h.standFor_prune h.standFor_always ⟨hts, Iff.rfl⟩

end IsMeaning

theorem allValid_reduce (h : AllValid r ts) : AllValid r (reduce ctx.full? ts) :=
  ((isMeaning_sat r).reduce_spec h).1

/-- What a reduced list says under a reading. -/
theorem anySat_reduce (h : AllValid r ts) : AnySat r (reduce ctx.full? ts) ↔ AnySat r ts :=
  ((isMeaning_sat r).reduce_spec h).2

end Term

end RuleCoverage
