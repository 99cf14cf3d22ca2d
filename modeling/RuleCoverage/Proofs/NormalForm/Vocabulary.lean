import RuleCoverage.Proofs.Feature.Conformance
import RuleCoverage.Proofs.NormalForm.Proper
import RuleCoverage.Proofs.NormalForm.Simplification

/-!
# The atoms of a normal form

Whatever the atoms of a predicate are like, those of its normal form are like them: a pass hands
opaque atoms on as they are, and it writes constraints as tests for null and comparisons with
doubles, or with discrete values of the atoms that it has read.

A `Vocabulary` says which atoms may be read, and which ones may then be written about the attributes
named in them.  A pass that reads the former writes the latter (`Predicate.allAtoms_simplifyOnce`).

* `Predicate.Asks` — the atoms that ask about some attributes, in terms of certain scalars.
* `Vocabulary.Demands.allAtoms_toPredicate` — what a constraint is written with.
-/

set_option autoImplicit false

namespace RuleCoverage

variable {ctx : Interpretation} {a : String}

/-! ## What constraints are written with -/

namespace Predicate

variable {A : String → Prop} {L L' : Scalar → Prop} {atom : Predicate} {values : Distinct Scalar}

/-- The atoms on some attributes that are named by texts, and no others. -/
def About (A : String → Prop) (atom : Predicate) : Prop :=
  ∃ a, atom.attr? = some (.text a) ∧ A a

/-- A text can be a key. -/
theorem About.checkAttr (h : atom.About A) : atom.checkAttr = .ok () := by
  obtain ⟨a, hattr, -⟩ := h
  rw [Predicate.checkAttr, hattr]
  rfl

/-- The atom asks about one of some attributes, and compares it with nothing but scalars of the
given sort. -/
structure Asks (A : String → Prop) (Fits : Scalar → Prop) (atom : Predicate) : Prop where
  about : atom.About A
  literals : ∀ {vs}, atom.literals? = some vs → ∀ v ∈ vs, ∃ s, v = .scalar s ∧ Fits s

namespace Asks

variable (h : atom.Asks A L)
include h

theorem isMember : atom.IsMember := by
  obtain ⟨⟨a, hattr, -⟩, hliterals⟩ := h
  have hscalar : ∀ {vs}, atom.literals? = some vs → ∀ v ∈ vs, v.IsScalar := by
    intro vs hvs v hv
    obtain ⟨s, rfl, -⟩ := hliterals hvs v hv
    exact ⟨s, rfl⟩
  cases atom with
  | compare b op v =>
    cases hattr
    exact ⟨⟨_, rfl⟩, hscalar rfl v (by simp)⟩
  | isIn b vs | isNull b =>
    cases hattr
    exact ⟨_, rfl⟩
  | between b l u li ui =>
    cases hattr
    exact ⟨⟨_, rfl⟩, hscalar rfl l (by simp), hscalar rfl u (by simp)⟩
  | _ => cases hattr

theorem of_mem_scalars {s : Scalar} (hs : s ∈ atom.scalars) : L s := by
  obtain ⟨v, hv, hvs⟩ := List.mem_filterMap.1 hs
  cases hls : atom.literals? with
  | none =>
    rw [hls] at hv
    cases hv
  | some ls =>
    rw [hls] at hv
    obtain ⟨t, rfl, ht⟩ := h.literals hls v hv
    cases hvs
    exact ht

end Asks

/-- The atom asks about the attribute.  If it compares, then it compares with some scalars, and all
of them are of the given sort. -/
structure Concerns (a : String) (Fits : Scalar → Prop) (atom : Predicate) : Prop where
  attr : atom.attr? = some (.text a)
  literals : ∀ {vs}, atom.literals? = some vs → vs ≠ [] ∧ ∀ v ∈ vs, ∃ s, v = .scalar s ∧ Fits s

theorem Concerns.named (h : atom.Concerns a L) : atom.named? = some a := by
  rw [named?, h.attr]
  rfl

theorem Concerns.imp (hL : ∀ s, L s → L' s) (h : atom.Concerns a L) : atom.Concerns a L' where
  attr := h.attr
  literals hvs := ⟨(h.literals hvs).1, fun v hv ↦
    let ⟨s, hs, hLs⟩ := (h.literals hvs).2 v hv
    ⟨s, hs, hL s hLs⟩⟩

theorem Concerns.asks (h : atom.Concerns a L) : atom.Asks (· = a) L where
  about := ⟨a, h.attr, rfl⟩
  literals hvs := (h.literals hvs).2

theorem concerns_compare {op : Comparison} {s : Scalar} (hs : L s) :
    (compare (.text a) op (.scalar s)).Concerns a L where
  attr := rfl
  literals hvs := by
    cases hvs
    exact ⟨List.cons_ne_nil _ _, by simpa using hs⟩

theorem concerns_isNull : (isNull (.text a)).Concerns a L where
  attr := rfl
  literals hvs := by cases hvs

theorem concerns_isIn (hne : ¬ values.isEmpty = true) (hvalues : ∀ s ∈ values.toList, L s) :
    (isIn (.text a) values).Concerns a L where
  attr := rfl
  literals hvs := by
    cases hvs
    rw [Distinct.isEmpty, List.isEmpty_iff] at hne
    rw [List.forall_mem_map]
    exact ⟨by simpa using hne, fun s hs ↦ ⟨s, rfl, hvalues s hs⟩⟩

theorem concerns_between {l u : Scalar} {li ui : Bool} (hl : L l) (hu : L u) :
    (between (.text a) (.scalar l) (.scalar u) li ui).Concerns a L where
  attr := rfl
  literals hvs := by
    cases hvs
    exact ⟨List.cons_ne_nil _ _, by simpa using ⟨hl, hu⟩⟩

theorem isEmpty_ofList_sorted (hne : ¬ values.isEmpty = true) :
    ¬ (Distinct.ofList values.sorted).isEmpty = true := by
  rw [Distinct.isEmpty_iff, not_forall_not] at hne ⊢
  obtain ⟨s, hs⟩ := hne
  obtain ⟨t, ht, -⟩ := Distinct.exists_mem_ofList (Tests.mem_sorted.2 hs)
  exact ⟨t, ht⟩

theorem allAtoms_oneOf (hne : ¬ values.isEmpty = true) (hvalues : ∀ s ∈ values.toList, L s) :
    (oneOf a values).AllAtoms (Concerns a L) := by
  have hsorted : ∀ s ∈ values.sorted, L s := fun s hs ↦ hvalues s (Tests.mem_sorted.1 hs)
  rw [oneOf]
  split
  · rename_i s hs
    exact concerns_compare (hsorted s (by simp [hs]))
  · exact concerns_isIn (isEmpty_ofList_sorted hne)
      fun s hs ↦ hsorted s (Distinct.mem_of_mem_ofList hs)

theorem allAtoms_noneOf (hne : ¬ values.isEmpty = true) (hvalues : ∀ s ∈ values.toList, L s) :
    (noneOf a values).AllAtoms (Concerns a L) := by
  have hsorted : ∀ s ∈ values.sorted, L s := fun s hs ↦ hvalues s (Tests.mem_sorted.1 hs)
  rw [noneOf]
  split
  · rename_i s hs
    exact concerns_compare (hsorted s (by simp [hs]))
  · exact concerns_isIn (isEmpty_ofList_sorted hne)
      fun s hs ↦ hsorted s (Distinct.mem_of_mem_ofList hs)

theorem allAtoms_nullPart (null : Bool) :
    ∀ p ∈ nullPart a null, p.AllAtoms (Concerns a L) := by
  intro p hp
  rw [nullPart] at hp
  split at hp
  · rw [List.mem_singleton.1 hp]
    exact concerns_isNull
  · cases hp

end Predicate

/-- The scalar is a double. -/
def Scalar.IsDouble (s : Scalar) : Prop := ∃ x, s = .double x

theorem Interval.allAtoms_toPredicate (iv : Interval) :
    (iv.toPredicate a).AllAtoms (Predicate.Concerns a Scalar.IsDouble) := by
  have hbound : ∀ op x, (Predicate.compare (.text a) op (.double x)).Concerns a Scalar.IsDouble :=
    fun op x ↦ Predicate.concerns_compare ⟨x, rfl⟩
  rw [toPredicate]
  dsimp only
  split
  · exact hbound _ _
  split
  · exact Predicate.concerns_isNull
  split
  · exact hbound _ _
  split
  · exact hbound _ _
  · exact Predicate.concerns_between ⟨_, rfl⟩ ⟨_, rfl⟩

theorem Distinct.isEmpty_ofDoubles_cons (x : Double) (xs : List Double) :
    ¬ (Distinct.ofDoubles (x :: xs)).isEmpty = true := by
  rw [isEmpty_iff, not_forall_not]
  obtain ⟨t, ht, -⟩ := exists_mem_ofList (List.mem_map_of_mem (f := Scalar.double)
    (List.mem_cons_self (a := x) (l := xs)))
  exact ⟨t, ht⟩

/-- A numeric constraint is written with doubles. -/
theorem NumericValues.allAtoms_toPredicate (values : NumericValues) :
    (values.toPredicate a).AllAtoms (Predicate.Concerns a Scalar.IsDouble) := by
  have hdoubles : ∀ xs, ∀ s ∈ (Distinct.ofDoubles xs).toList, s.IsDouble :=
    fun xs s hs ↦ (Predicate.double_of_mem_ofDoubles hs).imp fun x hx ↦ hx.2
  rw [toPredicate_eq]
  split
  · exact Predicate.allAtoms_noneOf (Distinct.isEmpty_ofDoubles_cons _ _) (hdoubles _)
  · rw [Predicate.allAtoms_disjunction, List.forall_mem_append]
    refine ⟨Predicate.allAtoms_nullPart _, ?_⟩
    rw [parts]
    split
    · rw [List.forall_mem_singleton]
      exact Predicate.concerns_isIn (Distinct.isEmpty_ofDoubles_cons _ _) (hdoubles _)
    · rw [List.forall_mem_map]
      exact fun iv _ ↦ iv.allAtoms_toPredicate

/-- A discrete constraint is written with its values and the values of the domain. -/
theorem DiscreteValues.allAtoms_toPredicate {L : Scalar → Prop} {values full : DiscreteValues}
    (hvalues : ∀ s ∈ values.values.toList, L s) (hfull : ∀ s ∈ full.values.toList, L s) :
    (values.toPredicate a full).AllAtoms (Predicate.Concerns a L) := by
  rw [toPredicate]
  split
  · rw [Predicate.allAtoms_conjunction, List.forall_mem_append]
    constructor
    · split
      · exact List.forall_mem_nil _
      · exact List.forall_mem_singleton.2 Predicate.concerns_isNull
    · split
      · exact List.forall_mem_nil _
      · rename_i hne
        exact List.forall_mem_singleton.2 (Predicate.allAtoms_noneOf hne hvalues)
  dsimp only
  split
  · rename_i houtside
    simp only [Bool.and_eq_true, Bool.not_eq_true'] at houtside
    refine Predicate.allAtoms_noneOf (Bool.eq_false_iff.1 houtside.1.2) fun s hs ↦ ?_
    exact (ValueSet.mem_values_inter hs).elim (hvalues s) (hfull s)
  · rw [Predicate.allAtoms_disjunction, List.forall_mem_append]
    refine ⟨Predicate.allAtoms_nullPart _, ?_⟩
    split
    · exact List.forall_mem_nil _
    · rename_i hne
      exact List.forall_mem_singleton.2 (Predicate.allAtoms_oneOf hne hvalues)

/-! ## Vocabularies -/

/-- The atoms that may be read, with room for what may be written about the attributes in them. -/
structure Vocabulary (ctx : Interpretation) where
  /-- The atoms that may be read. -/
  Has : Predicate → Prop
  /-- The atoms that may be written. -/
  Writes : Predicate → Prop
  /-- The attributes that may be written about. -/
  Names : String → Prop
  /-- The scalars that an attribute may be compared with. -/
  Compares : String → Scalar → Prop
  names : ∀ {atom a}, Has atom → atom.named? = some a → Names a
  compares_domain : ∀ {a d}, Names a → ctx.full? a = some (.discrete d) →
    ∀ s ∈ d.values.toList, Compares a s
  compares_values : ∀ {atom a d}, Has atom → atom.named? = some a →
    ctx.values? atom = .ok (some (.discrete d)) → ∀ s ∈ d.values.toList, Compares a s
  keeps : ∀ {atom}, Has atom → ctx.values? atom = .ok none → Writes atom
  writes : ∀ {a k atom}, Names a → ctx.kind? a = some k →
    atom.Concerns a (fun s ↦ if k = .numeric then s.IsDouble else Compares a s) → Writes atom

namespace Vocabulary

variable {V : Vocabulary ctx}

/-- A constraint on an attribute of the vocabulary, in the words of the vocabulary. -/
structure Demands (V : Vocabulary ctx) (a : String) (vs : ValueSet) : Prop where
  names : V.Names a
  full : ∃ full, ctx.full? a = some full ∧ vs.SameShape full
  compares : ∀ {d}, vs = .discrete d → ∀ s ∈ d.values.toList, V.Compares a s

/-- A term in the words of the vocabulary. -/
structure Speaks (V : Vocabulary ctx) (t : Term) : Prop where
  constraints : ∀ c ∈ t.constraints, V.Demands c.1 c.2
  literals : ∀ l ∈ t.literals.toList, V.Writes l.atom

variable {us vs : ValueSet} {s t u : Term}

theorem Demands.inter (hu : V.Demands a us) (hv : V.Demands a vs) : V.Demands a (us.inter vs) where
  names := hu.names
  full := by
    obtain ⟨full, hfull, hshape⟩ := hu.full
    exact ⟨full, hfull, by rw [ValueSet.SameShape, ValueSet.isNumeric_inter]; exact hshape⟩
  compares := by
    intro d hd s hs
    cases us <;> cases vs <;> cases hd
    · cases hs
    · exact (ValueSet.mem_values_inter hs).elim (hu.compares rfl s) (hv.compares rfl s)

theorem Demands.union (hu : V.Demands a us) (hv : V.Demands a vs) : V.Demands a (us.union vs) where
  names := hu.names
  full := by
    obtain ⟨full, hfull, hshape⟩ := hu.full
    exact ⟨full, hfull, by rw [ValueSet.SameShape, ValueSet.isNumeric_union]; exact hshape⟩
  compares := by
    intro d hd s hs
    cases us <;> cases vs <;> cases hd
    · exact hu.compares rfl s hs
    · exact (ValueSet.mem_values_union hs).elim (hu.compares rfl s) (hv.compares rfl s)

theorem Demands.complement (hv : V.Demands a vs) : V.Demands a vs.complement where
  names := hv.names
  full := by
    obtain ⟨full, hfull, hshape⟩ := hv.full
    exact ⟨full, hfull, by rw [ValueSet.SameShape, ValueSet.isNumeric_complement]; exact hshape⟩
  compares := by
    intro d hd
    cases vs with
    | numeric => cases hd
    | discrete e =>
      cases hd
      exact hv.compares (d := e) rfl

theorem demands_full {full : ValueSet} (hnames : V.Names a) (hfull : ctx.full? a = some full) :
    V.Demands a full where
  names := hnames
  full := ⟨full, hfull, rfl⟩
  compares := by
    rintro d rfl
    exact V.compares_domain hnames hfull

theorem speaks_always : V.Speaks .always := ⟨List.forall_mem_nil _, List.forall_mem_nil _⟩

theorem Speaks.conjoin? (hs : V.Speaks s) (ht : V.Speaks t) (h : s.conjoin? t = some u) :
    V.Speaks u where
  constraints :=
    Term.forall_conjoin? (fun hus hvs _ ↦ hus.inter hvs) hs.constraints ht.constraints h
  literals := Term.forall_literals_conjoin? hs.literals ht.literals h

theorem Speaks.merge? {full? : String → Option ValueSet} (hs : V.Speaks s) (ht : V.Speaks t)
    (h : Term.merge? full? s t = some u) : V.Speaks u where
  constraints := Term.forall_merge? (fun hus hvs _ ↦ hus.union hvs) hs.constraints ht.constraints h
  literals := Term.forall_literals_merge? hs.literals ht.literals h

theorem speaks_of_expandAtom {atom : Predicate} {negated : Bool} {ts : List Term}
    (hatom : V.Has atom) (h : Predicate.expandAtom ctx atom negated = .ok ts) :
    ∀ t ∈ ts, V.Speaks t := by
  refine Predicate.forall_expandAtom speaks_always ?_ ?_ h
  · intro a full vs hn hvs hfull hshape _ _
    have hnames := V.names hatom hn
    have hdemands : V.Demands a vs := ⟨hnames, ⟨full, hfull, hshape⟩, by
      rintro d rfl
      exact V.compares_values hatom hn hvs⟩
    have hsigned : V.Demands a (if negated then vs.complement else vs) := by
      split
      · exact hdemands.complement
      · exact hdemands
    have hcut := hsigned.inter (demands_full hnames hfull)
    exact ⟨List.forall_mem_singleton.2 hcut, List.forall_mem_nil _⟩
  · exact fun hvs _ ↦ ⟨List.forall_mem_nil _, List.forall_mem_singleton.2 (V.keeps hatom hvs)⟩

theorem speaks_of_expand (p : Predicate) (hp : p.AllAtoms V.Has) {negated : Bool} {ts : List Term}
    (h : p.expand ctx negated = .ok ts) : ∀ t ∈ ts, V.Speaks t :=
  Predicate.forall_expand speaks_always (fun _ hatom h ↦ speaks_of_expandAtom hatom h)
    Speaks.conjoin? Speaks.merge? p hp h

/-! ### What is written -/

theorem Demands.allAtoms_toPredicate (hv : V.Demands a vs) :
    (vs.toPredicate ctx a).AllAtoms V.Writes := by
  cases ValueSet.Fits.shaped hv.full with
  | @numeric ns hk =>
    refine ns.allAtoms_toPredicate.imp fun atom hatom ↦ V.writes hv.names hk (hatom.imp ?_)
    exact fun s hs ↦ by rwa [if_pos rfl]
  | discrete hk hk' hfull =>
    rw [ValueSet.toPredicate, hfull]
    have hall := DiscreteValues.allAtoms_toPredicate (a := a) (hv.compares rfl)
      (V.compares_domain hv.names hfull)
    refine hall.imp fun atom hatom ↦ V.writes hv.names hk (hatom.imp ?_)
    exact fun s hs ↦ by rwa [if_neg hk']

theorem Speaks.allAtoms_toPredicate (ht : V.Speaks t)
    (hmember : ∀ l ∈ t.literals.toList, l.atom.IsAtom) :
    (t.toPredicate ctx).AllAtoms V.Writes := by
  rw [Term.toPredicate, Predicate.allAtoms_conjunction, List.forall_mem_append,
    List.forall_mem_map, List.forall_mem_map]
  refine ⟨fun c hc ↦ (ht.constraints c hc).allAtoms_toPredicate, fun l hl ↦ ?_⟩
  rw [Term.mem_sortedLiterals] at hl
  have hatom : l.atom.AllAtoms V.Writes := (hmember l hl).allAtoms_iff.2 (ht.literals l hl)
  split
  · exact hatom
  · exact hatom

end Vocabulary

namespace Predicate

/-- The literals of a term of an expansion are atoms. -/
theorem isAtom_of_expand (p : Predicate) {negated : Bool} {ts : List Term}
    (h : p.expand ctx negated = .ok ts) :
    ∀ t ∈ ts, ∀ l ∈ t.literals.toList, l.atom.IsAtom := by
  have hatoms : p.AllAtoms fun _ ↦ True := p.allAtoms_iff.2 fun _ _ _ ↦ trivial
  refine forall_expand (P := fun t ↦ ∀ l ∈ t.literals.toList, l.atom.IsAtom) (List.forall_mem_nil _)
    ?_ Term.forall_literals_conjoin? Term.forall_literals_merge? p hatoms h
  intro atom negated ts hatom _ h
  exact forall_expandAtom (List.forall_mem_nil _) (fun _ _ _ _ _ _ ↦ List.forall_mem_nil _)
    (fun _ _ ↦ List.forall_mem_singleton.2 hatom) h

/-- A normal form is written in the vocabulary. -/
theorem allAtoms_disjunctionOf {V : Vocabulary ctx} {p : Predicate} {ts : List Term}
    (hp : p.AllAtoms V.Has) (hts : p.expand ctx false = .ok ts) :
    (Term.disjunctionOf ctx ts).AllAtoms V.Writes := by
  rw [Term.disjunctionOf, allAtoms_disjunction]
  intro x hx
  obtain ⟨t, ht, rfl⟩ := List.mem_map.1 (mem_sorted.1 hx)
  exact (Vocabulary.speaks_of_expand p hp hts t ht).allAtoms_toPredicate
    (isAtom_of_expand p hts t ht)

/-- **A pass writes what the vocabulary lets it write.** -/
theorem allAtoms_simplifyOnce {V : Vocabulary ctx} {schema : Option Schema} {effort : Effort}
    {p q : Predicate} (hctx : Interpretation.of p schema = .ok ctx) (hp : p.AllAtoms V.Has)
    (h : simplifyOnce schema effort p = .ok q) : q.AllAtoms V.Writes := by
  obtain ⟨ctx', ts, hctx', hts, hq⟩ := simplifyOnce_cases h
  cases hctx.symm.trans hctx'
  rcases hq with ⟨-, rfl⟩ | ⟨-, -, rfl⟩ | ⟨-, rfl⟩
  · trivial
  · trivial
  · exact allAtoms_disjunctionOf hp hts

end Predicate

end RuleCoverage
