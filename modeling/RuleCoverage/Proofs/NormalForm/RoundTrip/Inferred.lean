import RuleCoverage.Proofs.NormalForm.Agreement
import RuleCoverage.Proofs.NormalForm.RoundTrip.NullTests
import RuleCoverage.Proofs.NormalForm.RoundTrip.Rereading

/-!
# Reading a normal form with kinds that are inferred anew

Without a schema the kinds of attributes are inferred from the literals that are left.  What has a
kind keeps it, unless only tests for null are left of the attribute, and then the attribute is taken
for one of texts.  So a normal form is read as it is written, as long as no attribute gets a kind
that had none (`Predicate.exists_reread_inferred`).
-/

set_option autoImplicit false

namespace RuleCoverage

variable {ctx ctx' : Interpretation} {a : String} {k : Kind} {p q atom : Predicate}

/-! ## Kinds -/

namespace Interpretation

/-- Without a schema no attribute has a domain. -/
theorem full?_of_schemaless (hctx : ctx.schema? = none) (hk : ctx.kind? a = some k) :
    ctx.full? a = some (if k = .numeric then .numeric .full else .discrete (.full none)) := by
  rw [full?, hk, hctx, Option.map_some]
  cases k <;> rfl

theorem plain_of_schemaless (hctx : ctx.schema? = none) : ctx.Plain := by
  intro a k d hk hfull s hs
  rw [full?_of_schemaless hctx hk] at hfull
  split at hfull
  · cases hfull
  · cases hfull
    exact absurd hs (Distinct.not_mem_empty s)

theorem isMissing_of_schemaless (hctx : ctx.schema? = none) : ctx.isMissing a = false := by
  rw [isMissing, hctx]
  rfl

/-- Without a schema there is no more to know about an attribute than its kind. -/
theorem agree_of_schemaless (hctx : ctx.schema? = none) (hctx' : ctx'.schema? = none)
    (hk : ctx'.kind? a = ctx.kind? a) : ctx.Agree ctx' (· = a) := by
  refine ⟨?_, ?_, ?_⟩ <;> rintro _ rfl
  · exact hk.symm
  · rw [full?, full?, hk, hctx, hctx']
  · rw [isMissing_of_schemaless hctx, isMissing_of_schemaless hctx']

end Interpretation

namespace Predicate

/-- The atom compares attributes that have a kind with literals of this kind. -/
def FitsKinds (ctx : Interpretation) (atom : Predicate) : Prop :=
  ∀ a k, atom.named? = some a → ctx.kind? a = some k →
    ∀ vs, atom.literals? = some vs → ∀ v ∈ vs, v.kind? = some k

/-- The atom compares attributes that have a kind with literals of this kind, and with one at
least. -/
def ShowsKinds (ctx : Interpretation) (atom : Predicate) : Prop :=
  ∀ a k, atom.named? = some a → ctx.kind? a = some k →
    ∀ vs, atom.literals? = some vs → vs ≠ [] ∧ ∀ v ∈ vs, v.kind? = some k

/-- An attribute that is compared with literals of two kinds has none. -/
theorem allAtoms_fitsKinds (hctx : Interpretation.of p none = .ok ctx) :
    p.AllAtoms (FitsKinds ctx) := by
  refine (allAtoms_iff p).2 fun atom hatom _ a k hn hk vs hvs v hv ↦ ?_
  rw [Interpretation.kind?_of_named hctx ⟨atom, hatom, hn⟩,
    Interpretation.inferKind?_eq_some_iff ⟨atom, hatom, hn, by rw [hvs]; exact nofun⟩] at hk
  exact hk.2 atom hatom hn vs hvs v hv

/-- A membership in the empty set is read for every kind. -/
theorem exists_meaning?_of_literals?_nil (h : atom.literals? = some []) (k : Kind) :
    ∃ m, atom.meaning? k = some m := by
  cases atom with
  | isIn a vs =>
    have hnil : vs.toList = [] := List.map_eq_nil_iff.1 (Option.some.inj h)
    by_cases hk : k = .numeric
    · subst hk
      have hpoints : (vs.toList.mapM fun s ↦ (Literal.scalar s).point?) = some [] := by
        rw [hnil]
        rfl
      exact ⟨_, means_iff.1 (.number rfl (.isIn hpoints))⟩
    · exact ⟨_, meaning?_isIn hk fun s hs ↦ by rw [hnil] at hs; cases hs⟩
  | _ => cases h

/-- The vocabulary of a predicate, as far as kinds are concerned. -/
def FitsKinds.vocabulary (hctx : ctx.schema? = none) : Vocabulary ctx where
  Has := FitsKinds ctx
  Writes := ShowsKinds ctx
  Names _ := True
  Compares a s := ∀ k, ctx.kind? a = some k → s.kind? = some k
  names _ _ := trivial
  compares_domain := by
    intro a d _ hfull s hs k hk
    rw [Interpretation.full?_of_schemaless hctx hk] at hfull
    split at hfull <;> cases hfull
    exact absurd hs (Distinct.not_mem_empty s)
  compares_values := by
    intro atom a d hatom hn hvs s hs k hk
    obtain ⟨-, t, ls, hls, ht, rfl⟩ := Interpretation.literal_of_mem_values hn hk hvs s hs
    have hkind : t.kind? = some k := hatom a k hn hk ls hls _ ht
    cases t <;> exact hkind
  keeps := by
    intro atom hatom hvs a k hn hk ls hls
    refine ⟨?_, hatom a k hn hk ls hls⟩
    rintro rfl
    obtain ⟨m, hm⟩ := exists_meaning?_of_literals?_nil hls k
    cases hm.symm.trans (Interpretation.meaning?_eq_none hn hk hvs)
  writes := by
    intro a k atom _ hk hatom b l hn hl vs hvs
    cases hatom.named.symm.trans hn
    cases hk.symm.trans hl
    refine ⟨(hatom.literals hvs).1, fun v hv ↦ ?_⟩
    obtain ⟨s, rfl, hs⟩ := (hatom.literals hvs).2 v hv
    split at hs
    · rename_i hnum
      obtain ⟨x, rfl⟩ := hs
      rw [hnum]
      rfl
    · exact hs k hk

/-- **Kinds are shown by what is written.** -/
theorem allAtoms_showsKinds {effort : Effort} (hctx : Interpretation.of p none = .ok ctx)
    (hq : simplifyOnce none effort p = .ok q) : q.AllAtoms (ShowsKinds ctx) :=
  allAtoms_simplifyOnce (V := FitsKinds.vocabulary (Interpretation.schema?_of hctx)) hctx
    (allAtoms_fitsKinds hctx) hq

section kinds

variable (hctx' : Interpretation.of q none = .ok ctx') (hshows : q.AllAtoms (ShowsKinds ctx))
include hctx' hshows

/-- An attribute that is still compared with something keeps its kind. -/
theorem kind?_of_compares (hk : ctx.kind? a = some k) (h : q.Compares a) :
    ctx'.kind? a = some k := by
  obtain ⟨atom, hatom, hn, vs, hvs, hne⟩ := h
  rw [Interpretation.kind?_of_named hctx' ⟨atom, hatom, hn⟩,
    Interpretation.inferKind?_eq_some_iff ⟨atom, hatom, hn, by rw [hvs]; exact nofun⟩]
  refine ⟨⟨atom, hatom, hn, vs, hvs, hne⟩, fun atom hatom hn vs hvs ↦ ?_⟩
  have hisAtom : atom.IsAtom := by cases atom <;> trivial
  exact ((allAtoms_iff q).1 hshows atom hatom hisAtom a k hn hk vs hvs).2

/-- An attribute that is not compared with anything any more is taken for one of texts. -/
theorem kind?_of_not_compares (hk : ctx.kind? a = some k) (hnames : q.Names a)
    (h : ¬ q.Compares a) : ctx'.kind? a = some .string := by
  rw [Interpretation.kind?_of_named hctx' hnames]
  refine Interpretation.inferKind?_eq_string fun atom hatom hn ↦ ?_
  by_contra hls
  obtain ⟨vs, hvs⟩ := Option.ne_none_iff_exists'.1 hls
  have hisAtom : atom.IsAtom := by cases atom <;> trivial
  exact h ⟨atom, hatom, hn, vs, hvs,
    ((allAtoms_iff q).1 hshows atom hatom hisAtom a k hn hk vs hvs).1⟩

/-- What has a kind does not lose it. -/
theorem exists_kind? (hk : ctx.kind? a = some k) (hnames : q.Names a) :
    ∃ k', ctx'.kind? a = some k' := by
  by_cases h : q.Compares a
  · exact ⟨k, kind?_of_compares hctx' hshows hk h⟩
  · exact ⟨.string, kind?_of_not_compares hctx' hshows hk hnames h⟩

end kinds

end Predicate

/-! ## Value sets -/

namespace ValueSet

variable {us us' vs vs' : ValueSet} {null : Bool} {r : Reading ctx}

/-- Tests for null are equal when they ask for the same. -/
theorem IsNullTest.mem_iff {n m : Bool} (hu : us.IsNullTest n) (hv : vs.IsNullTest m) :
    (∀ v, us.Mem v → vs.Mem v) ↔ n = m := by
  constructor
  · intro h
    cases n with
    | true => exact ((hv none).1 (h none ((hu none).2 rfl)))
    | false => exact (hv (some (.number 0))).1 (h _ ((hu _).2 rfl))
  · rintro rfl v
    rw [hu, hv]
    exact id

/-- How a value set and what it is read as with other kinds are related. -/
structure RereadsIn (ctx ctx' : Interpretation) (a : String) (vs vs' : ValueSet) : Prop where
  shape : vs.isNumeric = true ↔ ctx.kind? a = some .numeric
  shape' : vs'.isNumeric = true ↔ ctx'.kind? a = some .numeric
  beq : ctx'.kind? a = ctx.kind? a → (vs == vs') = true
  nullTest : ctx'.kind? a ≠ ctx.kind? a → ∃ null, vs.IsNullTest null ∧ vs'.IsNullTest null
  written : vs'.toPredicate ctx' a = vs.toPredicate ctx a

theorem faithful_rereadsIn (ctx ctx' : Interpretation) : Term.Faithful (RereadsIn ctx ctx') := by
  have hshape : ∀ {a us us' vs vs'}, RereadsIn ctx ctx' a us us' → RereadsIn ctx ctx' a vs vs' →
      us.SameShape vs ∧ us'.SameShape vs' := fun hu hv ↦
    ⟨Bool.eq_iff_iff.2 (hu.shape.trans hv.shape.symm),
      Bool.eq_iff_iff.2 (hu.shape'.trans hv.shape'.symm)⟩
  constructor
  · intro a us us' vs vs' hu hv
    by_cases hk : ctx'.kind? a = ctx.kind? a
    · exact Term.faithful_beq.beq (a := a) (hu.beq hk) (hv.beq hk)
    obtain ⟨n, hun, hun'⟩ := hu.nullTest hk
    obtain ⟨m, hvm, hvm'⟩ := hv.nullTest hk
    obtain ⟨h, h'⟩ := hshape hu hv
    have hiff : ∀ {us vs : ValueSet}, us.IsNullTest n → vs.IsNullTest m →
        ((∀ v, us.Mem v ↔ vs.Mem v) ↔ n = m) := fun hu hv ↦
      forall_congr' (fun _ ↦ iff_def) |>.trans <| forall_and.trans <|
        (and_congr (hu.mem_iff hv) (hv.mem_iff hu)).trans
          ⟨fun h ↦ h.1, fun h ↦ ⟨h, h.symm⟩⟩
    rw [Bool.eq_iff_iff, beq_iff h, beq_iff h', hiff hun hvm, hiff hun' hvm']
  · intro a us us' vs vs' hu hv
    by_cases hk : ctx'.kind? a = ctx.kind? a
    · exact Term.faithful_beq.subset (a := a) (hu.beq hk) (hv.beq hk)
    obtain ⟨n, hun, hun'⟩ := hu.nullTest hk
    obtain ⟨m, hvm, hvm'⟩ := hv.nullTest hk
    obtain ⟨h, h'⟩ := hshape hu hv
    rw [Bool.eq_iff_iff, subset_iff h, subset_iff h', hun.mem_iff hvm, hun'.mem_iff hvm']

/-- What a constraint is written with is about its attribute. -/
theorem allAtoms_concerns (hfits : vs.Fits ctx a) :
    (vs.toPredicate ctx a).AllAtoms (Predicate.Concerns a fun _ ↦ True) := by
  cases hfits.shaped with
  | @numeric ns => exact ns.allAtoms_toPredicate.imp fun _ h ↦ h.imp fun _ _ ↦ trivial
  | discrete _ _ hfull =>
    rw [toPredicate, hfull]
    exact DiscreteValues.allAtoms_toPredicate (fun _ _ ↦ trivial) fun _ _ ↦ trivial

section schemaless

variable (hctx : ctx.schema? = none) (hctx' : ctx'.schema? = none)
include hctx

/-- A constraint is written with literals, or as a test for null. -/
theorem compares_or_isNullTest (hd : vs.ProperDemand r a) : (vs.toPredicate ctx a).Compares a ∨
    ∃ null, vs.toPredicate ctx a = Predicate.nullTest a null ∧ vs.IsNullTest null := by
  cases hd.demand.full.shaped with
  | numeric => exact NumericValues.compares_or_isNullTest hd
  | discrete hk hk' =>
    have hfull := Interpretation.full?_of_schemaless hctx hk
    rw [if_neg hk'] at hfull
    obtain ⟨v, hv⟩ := hd.demand.nonempty
    obtain ⟨w, -, hw⟩ := hd.exists_not_mem hfull
    rw [toPredicate, hfull]
    exact DiscreteValues.compares_or_isNullTest hv hw

/-- Where there is no domain, there is nothing to settle. -/
theorem settled_of_schemaless : vs.Settled ctx a := by
  intro d full _ hfull hco
  obtain ⟨k, hk, -⟩ := Interpretation.full?_eq_some hfull
  rw [Interpretation.full?_of_schemaless hctx hk] at hfull
  split at hfull <;> cases hfull
  cases hco

include hctx'

/-- A constraint on an attribute that keeps its kind is read as it is written. -/
theorem exists_rereadsIn_of_kind (hk : ctx'.kind? a = ctx.kind? a)
    (hd : vs.ProperDemand (Interpretation.blank (Interpretation.plain_of_schemaless hctx)) a) :
    ∃ vs', RereadsIn ctx ctx' a vs vs' ∧
      (vs.toPredicate ctx a).ReadsAs ctx' (.ofValues a vs') := by
  obtain ⟨full, hfull, hshape⟩ := hd.demand.full
  have hnumeric := Interpretation.isNumeric_full hfull
  obtain ⟨vs', hrereads, hread⟩ :=
    exists_readsAs (Interpretation.plain_of_schemaless hctx) hd
  have hagree := Interpretation.agree_of_schemaless hctx hctx' hk
  have hwithin : (vs.toPredicate ctx a).AllAtoms (Predicate.Within (· = a)) :=
    (allAtoms_concerns hd.demand.full).imp fun atom h b hb ↦
      Option.some.inj (hb.symm.trans h.named)
  refine ⟨vs', ⟨?_, ?_, fun _ ↦ hrereads.beq, fun h ↦ absurd hk h, ?_⟩, ?_⟩
  · rw [← hnumeric, ← show vs.isNumeric = full.isNumeric from hshape]
  · rw [hk, ← hnumeric, ← show vs.isNumeric = full.isNumeric from hshape,
      show vs.isNumeric = vs'.isNumeric from sameShape_of_beq hrereads.beq]
  · rw [← toPredicate_congr (hagree.full a rfl), hrereads.written (settled_of_schemaless hctx)]
  · rw [Predicate.ReadsAs, ← Predicate.expand_congr hagree hwithin]
    exact hread

omit hctx in
/-- A test for null may be read as one for a text. -/
theorem exists_rereadsIn_of_nullTest (hshape : vs.isNumeric = true ↔ ctx.kind? a = some .numeric)
    (hwritten : vs.toPredicate ctx a = Predicate.nullTest a null) (hvs : vs.IsNullTest null)
    (hk : ctx'.kind? a = some .string) (hne : ctx'.kind? a ≠ ctx.kind? a) :
    ∃ vs', RereadsIn ctx ctx' a vs vs' ∧
      (vs.toPredicate ctx a).ReadsAs ctx' (.ofValues a vs') := by
  have hdiscrete : Kind.string ≠ .numeric := by decide
  have hfull := Interpretation.full?_of_schemaless hctx' hk
  rw [if_neg hdiscrete] at hfull
  have hblank := Interpretation.blank (Interpretation.plain_of_schemaless hctx')
  have hwrites : ∀ d : DiscreteValues, (discrete d).toPredicate ctx' a =
      d.toPredicate a (.full none) := fun d ↦ by rw [toPredicate, hfull]
  have hrelated : ∀ d : DiscreteValues, (discrete d).IsNullTest null →
      d.toPredicate a (.full none) = Predicate.nullTest a null →
      RereadsIn ctx ctx' a vs (.discrete d) := fun d hd hd' ↦
    ⟨hshape, iff_of_false Bool.false_ne_true (by rw [hk]; decide), fun h ↦ absurd h hne,
      fun _ ↦ ⟨null, hvs, hd⟩, by rw [hwrites, hd', hwritten]⟩
  have hnone : ∀ k, ¬ (∅ : Distinct Scalar).HasKey k := by
    rintro k ⟨x, hx, -⟩
    exact Distinct.not_mem_empty x hx
  rw [hwritten]
  cases null with
  | true =>
    refine ⟨.discrete .onlyNull, hrelated _ (fun v ↦ ?_) rfl,
      (DiscreteValues.readsAs_isNull hk hdiscrete hfull hblank).1⟩
    refine (DiscreteValues.mem_iff_of_not_cofinite rfl v).trans ?_
    cases v <;> simp [DiscreteValues.onlyNull, hnone]
  | false =>
    refine ⟨.discrete ⟨∅, true, false⟩, hrelated _ (fun v ↦ ?_) rfl,
      (DiscreteValues.readsAs_not_isNull hk hdiscrete hfull hblank).1⟩
    refine (DiscreteValues.mem_iff_of_cofinite rfl v).trans ?_
    cases v <;> simp [hnone]

end schemaless

end ValueSet

/-! ## Normal forms -/

namespace Term

variable {t t' : Term} {ts : List Term}

/-- How a term and what it is read as with other kinds are related. -/
structure RereadsIn (ctx ctx' : Interpretation) (t t' : Term) : Prop where
  corresponds : Corresponds (ValueSet.RereadsIn ctx ctx') t t'
  literals : t'.literals.toList = t.sortedLiterals

/-- What is read is written in the same way again. -/
theorem RereadsIn.toPredicate_eq (h : RereadsIn ctx ctx' t t') :
    t'.toPredicate ctx' = t.toPredicate ctx :=
  toPredicate_congr h.literals (h.corresponds.constraints.imp fun _ _ hc ↦ ⟨hc.1, hc.2.written⟩)

/-- The atoms that a constraint is written with are among those of the normal form. -/
theorem mem_atoms_of_constraint {c : String × ValueSet} (ht : t ∈ ts) (hc : c ∈ t.constraints)
    (hatom : atom ∈ (c.2.toPredicate ctx c.1).atoms) : atom ∈ (disjunctionOf ctx ts).atoms := by
  refine Predicate.mem_atoms_disjunction
    (Predicate.mem_sorted.2 (List.mem_map_of_mem (f := toPredicate ctx) ht)) ?_
  rw [toPredicate_eq]
  exact Predicate.mem_atoms_conjunction
    (List.mem_append_left _ (List.mem_map_of_mem (f := fun c ↦ c.2.toPredicate ctx c.1) hc)) hatom

/-- The opaque atoms of the terms are among those of the normal form. -/
theorem mem_atoms_of_literal {l : OpaqueLiteral} (ht : t ∈ ts) (hl : l ∈ t.literals.toList)
    (hisAtom : l.atom.IsAtom) : l.atom ∈ (disjunctionOf ctx ts).atoms := by
  refine Predicate.mem_atoms_disjunction
    (Predicate.mem_sorted.2 (List.mem_map_of_mem (f := toPredicate ctx) ht)) ?_
  rw [toPredicate_eq]
  refine Predicate.mem_atoms_conjunction (List.mem_append_right _ (List.mem_map_of_mem
    (f := OpaqueLiteral.toPredicate) (t.sortedLiterals_perm.mem_iff.2 hl))) ?_
  have hself : l.atom.atoms = [l.atom] := by
    cases hl : l.atom <;> first | rfl | exact (hl ▸ hisAtom).elim
  rw [OpaqueLiteral.toPredicate]
  split
  · rw [hself]
    exact List.mem_singleton_self _
  · rw [Predicate.atoms, hself]
    exact List.mem_singleton_self _

end Term

namespace Predicate

variable {ts : List Term}

section reread

variable (hctx : Interpretation.of p none = .ok ctx) (hts : p.expand ctx false = .ok ts)
include hctx hts

theorem showsKinds_disjunctionOf : (Term.disjunctionOf ctx ts).AllAtoms (ShowsKinds ctx) :=
  allAtoms_disjunctionOf (V := FitsKinds.vocabulary (Interpretation.schema?_of hctx))
    (allAtoms_fitsKinds hctx) hts

variable (hctx' : Interpretation.of (Term.disjunctionOf ctx ts) none = .ok ctx')
include hctx'

/-- What is written of a constraint is read as a related one. -/
theorem exists_rereadsIn_constraint {t : Term} {c : String × ValueSet} (ht : t ∈ ts)
    (hc : c ∈ t.constraints) : ∃ vs', ValueSet.RereadsIn ctx ctx' c.1 c.2 vs' ∧
      (c.2.toPredicate ctx c.1).ReadsAs ctx' (.ofValues c.1 vs') := by
  have hschema := Interpretation.schema?_of hctx
  have hplain : ctx.Plain := Interpretation.plain_of_schemaless hschema
  have hshows := showsKinds_disjunctionOf hctx hts
  have hd := proper_expand p (Interpretation.knows_blank hplain p) hts t ht c hc
  obtain ⟨full, hfull, hshape⟩ := hd.demand.full
  obtain ⟨k, hk, -⟩ := Interpretation.full?_eq_some hfull
  have hkind : (Term.disjunctionOf ctx ts).Compares c.1 → ctx'.kind? c.1 = ctx.kind? c.1 :=
    fun h ↦ (kind?_of_compares hctx' hshows hk h).trans hk.symm
  by_cases hsame : ctx'.kind? c.1 = ctx.kind? c.1
  · exact ValueSet.exists_rereadsIn_of_kind hschema (Interpretation.schema?_of hctx') hsame hd
  rcases ValueSet.compares_or_isNullTest hschema hd with hcompares | ⟨null, hwritten, htest⟩
  · obtain ⟨atom, hatom, hcompares⟩ := hcompares
    exact absurd (hkind ⟨atom, Term.mem_atoms_of_constraint ht hc hatom, hcompares⟩) hsame
  · obtain ⟨atom, hatom, hn⟩ := names_nullTest c.1 null
    have hnames : (Term.disjunctionOf ctx ts).Names c.1 :=
      ⟨atom, Term.mem_atoms_of_constraint ht hc (hwritten ▸ hatom), hn⟩
    refine ValueSet.exists_rereadsIn_of_nullTest (Interpretation.schema?_of hctx') ?_ hwritten htest
      (kind?_of_not_compares hctx' hshows hk hnames fun h ↦ hsame (hkind h)) hsame
    rw [← Interpretation.isNumeric_full hfull, ← show c.2.isNumeric = full.isNumeric from hshape]

variable (hlost : ∀ a, (Term.disjunctionOf ctx ts).Names a → ctx.kind? a = none →
  ctx'.kind? a = none)
include hlost

/-- An opaque atom stays opaque. -/
theorem uninterpreted_literal {t : Term} {l : OpaqueLiteral} (ht : t ∈ ts)
    (hl : l ∈ t.literals.toList) : l.atom.Uninterpreted ctx' := by
  have hschema := Interpretation.schema?_of hctx
  have hschema' := Interpretation.schema?_of hctx'
  have hplain : ctx.Plain := Interpretation.plain_of_schemaless hschema
  have hop := (expand_spec p (Interpretation.knows_blank hplain p) hts).1 t ht |>.opaques l hl
  have hmem : l.atom ∈ (Term.disjunctionOf ctx ts).atoms :=
    Term.mem_atoms_of_literal ht hl hop.member.isAtom
  refine ⟨hop.member, ?_, fun a _ ↦ by simp [Interpretation.isMissing_of_schemaless hschema']⟩
  rcases hn : l.atom.named? with _ | a
  · exact Interpretation.values?_of_unnamed hn
  rcases hk : ctx.kind? a with _ | k
  · exact Interpretation.values?_of_kindless hn (hlost a ⟨_, hmem, hn⟩ hk)
  have hshows := showsKinds_disjunctionOf hctx hts
  -- the atom compares, for a test for null would be read
  obtain ⟨vs, hvs⟩ : ∃ vs, l.atom.literals? = some vs := by
    cases hatom : l.atom with
    | isNull b =>
      rw [hatom] at hn hop
      obtain rfl : b = .text a := Option.some.inj (Row.attr?_of_named? hn)
      cases (Interpretation.values?_isNull hk).symm.trans hop.values
    | compare | isIn | between => exact ⟨_, rfl⟩
    | _ =>
      rw [hatom] at hn
      cases hn
  have hne := ((allAtoms_iff _).1 hshows _ hmem hop.member.isAtom a k hn hk vs hvs).1
  have hk' := kind?_of_compares hctx' hshows hk ⟨_, hmem, hn, vs, hvs, hne⟩
  have hagree := Interpretation.agree_of_schemaless hschema hschema' (hk'.trans hk.symm)
  rw [← values?_congr hagree fun b hb ↦ Option.some.inj (hb.symm.trans hn)]
  exact hop.values

/-- **A normal form is read as it is written, with kinds that are inferred anew**, as long as no
attribute gets a kind that had none. -/
theorem exists_reread_inferred : ∃ ts',
    (Term.disjunctionOf ctx ts).expand ctx' false = .ok ts' ∧
      List.Forall₂ (Term.RereadsIn ctx ctx') (Term.inOrder ctx ts) ts' := by
  have hplain : ctx.Plain := Interpretation.plain_of_schemaless (Interpretation.schema?_of hctx)
  have hplain' : ctx'.Plain := Interpretation.plain_of_schemaless (Interpretation.schema?_of hctx')
  have hknows := Interpretation.knows_blank hplain p
  have hvalid := (expand_spec p hknows hts).1
  have hread : ∀ t ∈ Term.inOrder ctx ts, ∃ t', (t.toPredicate ctx).ReadsAs ctx' t' ∧
      Term.RereadsIn ctx ctx' t t' := by
    intro t ht
    rw [(Term.inOrder_perm ctx ts).mem_iff] at ht
    obtain ⟨t', hread, hcorr, hls⟩ := Term.exists_readsAs (hvalid t ht)
      (fun c hc ↦ exists_rereadsIn_constraint hctx hts hctx' ht hc)
      fun l hl ↦ uninterpreted_literal hctx hts hctx' hlost ht hl
    exact ⟨t', hread, hcorr, hls⟩
  obtain ⟨ts', hts'⟩ := List.exists_forall₂ hread
  have hvalid' : Term.AllValid (Interpretation.blank hplain') ts' := by
    intro t' ht'
    obtain ⟨t, -, hread, -⟩ := Term.exists_left_of_mem hts' ht'
    exact (expand_spec _ (Interpretation.knows_blank hplain' _) hread).1 t'
      (List.mem_singleton_self t')
  refine ⟨ts', ?_, hts'.imp fun t t' h ↦ h.2⟩
  exact Term.expand_disjunctionOf (ValueSet.faithful_rereadsIn ctx ctx')
    (reduced_expand p hknows hts) (hts'.imp fun t t' h ↦ ⟨h.1, h.2.corresponds⟩) hvalid'

/-- A normal form is its own normal form, unless it is found always to hold. -/
theorem stays_disjunctionOf {effort : Effort} : (Term.disjunctionOf ctx ts).Stays none effort := by
  obtain ⟨ts', hread, hrereads⟩ := exists_reread_inferred hctx hts hctx' hlost
  have hwritten : Term.disjunctionOf ctx' ts' = Term.disjunctionOf ctx ts :=
    Term.disjunctionOf_congr (hrereads.imp fun _ _ h ↦ h.toPredicate_eq)
  have hplain : ctx'.Plain := Interpretation.plain_of_schemaless (Interpretation.schema?_of hctx')
  exact stays_of_disjunctionOf hplain hctx' hread hwritten

end reread

end Predicate

end RuleCoverage
