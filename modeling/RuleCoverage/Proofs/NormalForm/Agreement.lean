import RuleCoverage.Proofs.NormalForm.Inference
import RuleCoverage.Proofs.NormalForm.Vocabulary

/-!
# Only the attributes of a predicate matter

Two interpretations that agree on the attributes of a predicate give it the same normal form
(`Predicate.simplifyOnce_congr`): terms constrain no other attributes, and nothing is asked about an
attribute that is not constrained.
-/

set_option autoImplicit false

namespace RuleCoverage

variable {ctx ctx' : Interpretation} {A : String → Prop} {full? full'? : String → Option ValueSet}

/-- What is known about some attributes is the same in both interpretations. -/
structure Interpretation.Agree (ctx ctx' : Interpretation) (A : String → Prop) : Prop where
  kind : ∀ a, A a → ctx.kind? a = ctx'.kind? a
  full : ∀ a, A a → ctx.full? a = ctx'.full? a
  missing : ∀ a, A a → ctx.isMissing a = ctx'.isMissing a

/-- To write a constraint one has to know all values of the attribute. -/
theorem ValueSet.toPredicate_congr {a : String} (hfull : ctx.full? a = ctx'.full? a)
    (vs : ValueSet) : vs.toPredicate ctx a = vs.toPredicate ctx' a := by
  cases vs with
  | numeric ns => rfl
  | discrete d => rw [toPredicate, toPredicate, hfull]

/-! ## Terms -/

namespace Term

variable {s t u m : Term} {ts us earlier : List Term} {cs ds : List (String × ValueSet)}

/-- The term constrains no attributes but these. -/
def Within (A : String → Prop) (t : Term) : Prop := ∀ c ∈ t.constraints, A c.1

theorem within_always : always.Within A := List.forall_mem_nil _

theorem Within.conjoin? (hs : s.Within A) (ht : t.Within A) (h : s.conjoin? t = some u) :
    u.Within A :=
  forall_conjoin? (C := fun a _ ↦ A a) (fun ha _ _ ↦ ha) hs ht h

theorem Within.merge? (hs : s.Within A) (ht : t.Within A) (h : merge? full? s t = some u) :
    u.Within A :=
  forall_merge? (C := fun a _ ↦ A a) (fun ha _ _ ↦ ha) hs ht h

/-- All terms of a reduced list are about attributes of the terms of the list. -/
theorem within_reduce (hts : ∀ t ∈ ts, t.Within A) : ∀ t ∈ reduce full? ts, t.Within A :=
  forall_reduce Within.merge? within_always hts

section congr

variable (hfull : ∀ a, A a → full? a = full'? a)
include hfull

theorem mergeValues?_congr (hcs : ∀ c ∈ cs, A c.1) :
    mergeValues? full? cs ds = mergeValues? full'? cs ds := by
  induction cs generalizing ds with
  | nil => simp [mergeValues?]
  | cons c cs ih =>
    obtain ⟨a, us⟩ := c
    rw [List.forall_mem_cons] at hcs
    cases ds with
    | nil => simp [mergeValues?]
    | cons d ds =>
      obtain ⟨b, vs⟩ := d
      rw [mergeValues?_cons, mergeValues?_cons, hfull a hcs.1, ih hcs.2]

theorem merge?_congr (hs : s.Within A) : merge? full? s t = merge? full'? s t := by
  rw [merge?, merge?, mergeValues?_congr hfull hs]

theorem mergeWith?_congr (ht : t.Within A) : mergeWith? full? t ts = mergeWith? full'? t ts := by
  induction ts with
  | nil => rfl
  | cons u rest ih => rw [mergeWith?, mergeWith?, merge?_congr hfull ht, ih]

theorem mergeFirst?_congr (hts : ∀ t ∈ ts, t.Within A) :
    mergeFirst? full? ts = mergeFirst? full'? ts := by
  cases ts with
  | nil => rfl
  | cons t rest => rw [mergeFirst?, mergeFirst?, mergeWith?_congr hfull (hts t List.mem_cons_self)]

theorem mergeAny?_congr (hts : ∀ t ∈ ts, t.Within A) :
    mergeAny? full? earlier ts = mergeAny? full'? earlier ts := by
  induction ts generalizing earlier with
  | nil => rfl
  | cons t rest ih =>
    rw [List.forall_mem_cons] at hts
    rw [mergeAny?, mergeAny?, mergeWith?_congr hfull hts.1, ih hts.2]

theorem round?_congr (hts : ∀ t ∈ ts, t.Within A) : round? full? ts = round? full'? ts := by
  have hprune : ∀ t ∈ prune [] ts, t.Within A := forall_prune hts
  rw [round?, round?, mergeFirst?_congr hfull hprune, mergeAny?_congr hfull hprune]

theorem reduceRounds_congr (hts : ∀ t ∈ ts, t.Within A) :
    reduceRounds full? ts = reduceRounds full'? ts := by
  induction ts using induction_round? full? with
  | step ts ih =>
    rw [reduceRounds_eq, reduceRounds_eq, ← round?_congr hfull hts]
    refine if_congr Iff.rfl rfl ?_
    cases hround : round? full? ts with
    | none => rfl
    | some us => exact ih us hround (forall_round? Within.merge? hts hround)

theorem reduce_congr (hts : ∀ t ∈ ts, t.Within A) : reduce full? ts = reduce full'? ts :=
  reduceRounds_congr hfull fun t ht ↦ hts t (Distinct.mem_of_mem_ofList ht)

end congr

/-- The conjunctions of terms are about the attributes of the terms. -/
theorem within_conjunctions {ss : List Term} (hss : ∀ s ∈ ss, s.Within A)
    (hts : ∀ t ∈ ts, t.Within A) : ∀ u ∈ conjunctions ss ts, u.Within A := by
  intro u hu
  simp only [conjunctions, List.mem_flatMap, List.mem_filterMap] at hu
  obtain ⟨s, hs, t, ht, hu⟩ := hu
  exact (hss s hs).conjoin? (hts t ht) hu

theorem within_negation (ht : t.Within A) : ∀ u ∈ t.negation ctx, u.Within A := by
  rw [negation, List.forall_mem_append, List.forall_mem_map]
  refine ⟨fun u hu ↦ ?_, fun l _ ↦ List.forall_mem_nil _⟩
  obtain ⟨⟨a, vs⟩, hc, hu⟩ := List.mem_filterMap.1 hu
  obtain ⟨-, hu⟩ := Option.ite_none_left_eq_some.1 hu
  cases hu
  exact List.forall_mem_singleton.2 (ht (a, vs) hc)

/-! ## Agreement -/

variable (hagree : ctx.Agree ctx' A)
include hagree

theorem negation_congr (ht : t.Within A) : t.negation ctx = t.negation ctx' := by
  rw [negation, negation]
  congr 1
  refine List.filterMap_congr fun c hc ↦ ?_
  obtain ⟨a, vs⟩ := c
  simp only [hagree.full a (ht (a, vs) hc)]

theorem negateFrom?_congr {budget : Budget} {acc : List Term} (hacc : ∀ t ∈ acc, t.Within A)
    (hts : ∀ t ∈ ts, t.Within A) :
    negateFrom? ctx budget acc ts = negateFrom? ctx' budget acc ts := by
  induction ts generalizing acc with
  | nil => rfl
  | cons t rest ih =>
    rw [List.forall_mem_cons] at hts
    have hproduct : ∀ u ∈ conjunctions acc (t.negation ctx'), u.Within A :=
      within_conjunctions hacc (within_negation hts.1)
    rw [negateFrom?, negateFrom?, negation_congr hagree hts.1,
      reduce_congr hagree.full hproduct]
    split
    · rfl
    · have hreduced : ∀ u ∈ reduce ctx'.full? (conjunctions acc (t.negation ctx')), u.Within A :=
        within_reduce hproduct
      generalize reduce ctx'.full? (conjunctions acc (t.negation ctx')) = acc' at hreduced ⊢
      cases acc' with
      | nil => rfl
      | cons u us => exact ih hreduced hts.2

theorem combine_congr {conjunctive : Bool} {left : List Term}
    {right : Unit → Except Error (List Term)} (hleft : ∀ t ∈ left, t.Within A)
    (hright : ∀ ts, right () = .ok ts → ∀ t ∈ ts, t.Within A) :
    combine ctx conjunctive left right = combine ctx' conjunctive left right := by
  rw [combine, combine]
  cases h : right () with
  | error e => simp only [Except.map_error]
  | ok ts =>
    have hts := hright ts h
    simp only [Except.map_ok]
    rw [reduce_congr hagree.full (within_conjunctions hleft hts),
      reduce_congr hagree.full (List.forall_mem_append.2 ⟨hleft, hts⟩)]

theorem toPredicate_agree (ht : t.Within A) : t.toPredicate ctx = t.toPredicate ctx' := by
  rw [toPredicate, toPredicate]
  congr 2
  refine List.map_congr_left fun c hc ↦ ?_
  exact ValueSet.toPredicate_congr (hagree.full c.1 (ht c hc)) c.2

theorem disjunctionOf_agree (hts : ∀ t ∈ ts, t.Within A) :
    disjunctionOf ctx ts = disjunctionOf ctx' ts := by
  rw [disjunctionOf, disjunctionOf,
    List.map_congr_left fun t ht ↦ toPredicate_agree hagree (hts t ht)]

end Term

/-! ## Predicates -/

namespace Predicate

/-- The atom names no attribute but these. -/
def Within (A : String → Prop) (atom : Predicate) : Prop := ∀ a, atom.named? = some a → A a

theorem within_expand {p : Predicate} (hp : p.AllAtoms (Within A)) {negated : Bool} {ts : List Term}
    (h : p.expand ctx negated = .ok ts) : ∀ t ∈ ts, t.Within A := by
  refine forall_expand Term.within_always ?_ Term.Within.conjoin? Term.Within.merge? p hp h
  intro atom negated ts _ hatom h
  exact forall_expandAtom Term.within_always
    (fun hn _ _ _ _ _ ↦ List.forall_mem_singleton.2 (hatom _ hn))
    (fun _ _ ↦ List.forall_mem_nil _) h

variable (hagree : ctx.Agree ctx' A)
include hagree

theorem values?_congr {atom : Predicate} (hatom : atom.Within A) :
    ctx.values? atom = ctx'.values? atom := by
  rw [Interpretation.values?, Interpretation.values?]
  rcases hn : atom.attr?.bind Literal.text? with _ | a
  · rfl
  · simp only [hagree.kind a (hatom a hn)]

theorem expandAtom_congr {atom : Predicate} (hatom : atom.Within A) (negated : Bool) :
    expandAtom ctx atom negated = expandAtom ctx' atom negated := by
  rw [expandAtom, expandAtom, values?_congr hagree hatom]
  rcases hn : atom.attr?.bind Literal.text? with _ | a
  · rfl
  · simp only [Option.any_some, Option.bind_some, hagree.missing a (hatom a hn),
      hagree.full a (hatom a hn)]

/-- **Interpretations that agree on the attributes of a predicate expand it alike.** -/
theorem expand_congr {p : Predicate} (hp : p.AllAtoms (Within A)) (negated : Bool) :
    p.expand ctx negated = p.expand ctx' negated := by
  induction p generalizing negated with
  | always | never => rfl
  | not a ih => exact ih hp _
  | and a b iha ihb | or a b iha ihb =>
    rw [expand, expand, iha hp.1, ihb hp.2]
    cases hleft : a.expand ctx' negated with
    | error e => rw [error_bind, error_bind]
    | ok left =>
      rw [ok_bind, ok_bind]
      refine Term.combine_congr hagree (within_expand hp.1 hleft) fun ts h ↦ ?_
      exact within_expand hp.2 h
  | bare | compare | isIn | between | isNull | test => exact expandAtom_congr hagree hp _

theorem isTautology_congr {effort : Effort} {ts : List Term} (hts : ∀ t ∈ ts, t.Within A) :
    isTautology ctx effort ts = isTautology ctx' effort ts := by
  rw [isTautology, isTautology, Term.negateAll?, Term.negateAll?,
    Term.negateFrom?_congr hagree (List.forall_mem_singleton.2 Term.within_always) hts]

/-- **Interpretations that agree on the attributes of a predicate simplify it alike.** -/
theorem simplifyOnce_congr {schema schema' : Option Schema} {effort : Effort} {p : Predicate}
    (hctx : Interpretation.of p schema = .ok ctx) (hctx' : Interpretation.of p schema' = .ok ctx')
    (hp : p.AllAtoms (Within A)) :
    simplifyOnce schema effort p = simplifyOnce schema' effort p := by
  rw [simplifyOnce, simplifyOnce, hctx, hctx']
  rw [ok_bind, ok_bind, expand_congr hagree hp]
  cases hts : p.expand ctx' false with
  | error e => rw [error_bind, error_bind]
  | ok ts =>
    have hwithin := within_expand hp hts
    rw [ok_bind, ok_bind, isTautology_congr hagree hwithin,
      Term.disjunctionOf_agree hagree hwithin]

end Predicate

/-! ## Runs of passes -/

namespace Predicate

/-- The atoms that name some attributes, if any. -/
def Within.vocabulary (ctx : Interpretation) (A : String → Prop) : Vocabulary ctx where
  Has := Within A
  Writes := Within A
  Names := A
  Compares _ _ := True
  names hatom hn := hatom _ hn
  compares_domain _ _ _ _ := trivial
  compares_values _ _ _ _ _ := trivial
  keeps hatom _ := hatom
  writes ha _ hatom _ hn := Option.some.inj (hatom.named.symm.trans hn) ▸ ha

/-- A normal form names attributes of the given predicate. -/
theorem names_of_disjunctionOf {p : Predicate} {ts : List Term} {a : String}
    (hts : p.expand ctx false = .ok ts) (h : (Term.disjunctionOf ctx ts).Names a) : p.Names a := by
  have hp : p.AllAtoms (Within p.Names) :=
    (allAtoms_iff p).2 fun atom hatom _ _ hn ↦ ⟨atom, hatom, hn⟩
  have hwritten := allAtoms_disjunctionOf (V := Within.vocabulary ctx p.Names) hp hts
  obtain ⟨atom, hatom, hn⟩ := h
  have hisAtom : atom.IsAtom := by cases atom <;> trivial
  exact (allAtoms_iff _).1 hwritten atom hatom hisAtom a hn

theorem About.within {atom : Predicate} (h : atom.About A) : atom.Within A := by
  obtain ⟨a, hattr, ha⟩ := h
  intro b hb
  rw [named?, hattr] at hb
  cases hb
  exact ha

/-- The attributes of a predicate are the ones that its atoms are about. -/
theorem About.of_names {p : Predicate} (hp : p.AllAtoms (About A)) {a : String} (ha : p.Names a) :
    A a := by
  obtain ⟨atom, hatom, hn⟩ := ha
  have hisAtom : atom.IsAtom := by cases atom <;> trivial
  exact ((allAtoms_iff p).1 hp atom hatom hisAtom).within a hn

theorem About.names {p : Predicate} (hp : p.AllAtoms (About A)) : p.AllAtoms (About p.Names) := by
  have hall := (allAtoms_iff p).1 hp
  refine (allAtoms_iff p).2 fun atom hatom hisAtom ↦ ?_
  obtain ⟨a, hattr, -⟩ := hall atom hatom hisAtom
  exact ⟨a, hattr, atom, hatom, by rw [named?, hattr]; rfl⟩

/-- The atoms on some attributes are a vocabulary. -/
def About.vocabulary (ctx : Interpretation) (A : String → Prop) : Vocabulary ctx where
  Has := About A
  Writes := About A
  Names := A
  Compares _ _ := True
  names hatom hn := hatom.within _ hn
  compares_domain _ _ _ _ := trivial
  compares_values _ _ _ _ _ := trivial
  keeps hatom _ := hatom
  writes ha _ hatom := ⟨_, hatom.attr, ha⟩

theorem about_simplifyOnce {schema? : Option Schema} {effort : Effort} {p q : Predicate}
    (hp : p.AllAtoms (About A)) (h : simplifyOnce schema? effort p = .ok q) :
    q.AllAtoms (About A) := by
  obtain ⟨ctx, -, hctx, -⟩ := simplifyOnce_cases h
  exact allAtoms_simplifyOnce (V := About.vocabulary ctx A) hctx hp h

/-- **A simplified predicate is about attributes of the given one.** -/
theorem about_simplify {schema? : Option Schema} {effort : Effort} {p q : Predicate}
    (hp : p.AllAtoms (About A)) (h : p.simplify schema? effort = .ok q) : q.AllAtoms (About A) :=
  settle_induction (P := fun x ↦ x.AllAtoms (About A)) (fun _ _ hx hy ↦ about_simplifyOnce hx hy)
    (by simpa using hp) hp h

/-- Passes that do the same to all predicates that they come by settle alike. -/
theorem settle_congr {pass pass' : Predicate → Except Error Predicate} {P : Predicate → Prop}
    (hpass : ∀ x, P x → pass x = pass' x) (hkeep : ∀ x y, P x → pass x = .ok y → P y) {n : Nat}
    {seen : List Predicate} {current : Predicate} (h : P current) :
    settle pass n seen current = settle pass' n seen current := by
  induction n generalizing seen current with
  | zero => rfl
  | succ n ih =>
    rw [settle, settle, ← hpass current h]
    cases hnext : pass current with
    | error e => rfl
    | ok next =>
      dsimp only [bind, Except.bind]
      split
      · rfl
      · exact ih (hkeep current next h hnext)

end Predicate

end RuleCoverage
