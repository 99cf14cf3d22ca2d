import RuleCoverage.Proofs.NormalForm.KeptLiterals
import RuleCoverage.Proofs.NormalForm.Passes
import RuleCoverage.Proofs.NormalForm.RoundTrip.Weights
import RuleCoverage.Proofs.NormalForm.SoleAttribute
import RuleCoverage.Proofs.NormalForm.Totality

/-!
# Passes without a schema do not come back

Without a schema each pass infers the kinds of the attributes anew.  Attributes are lost on the way,
and so are comparisons, but what is kept of an attribute with a kind keeps the kind
(`Predicate.kind?_of_simplifyOnce`).

So if a predicate comes back, all attributes have kept their kinds.  Weighed with the kinds that are
known in the end, no pass has made it heavier; and as it weighs in the end what it has weighed in
the beginning, the first pass has lost nothing.  Then the atoms on attributes without a kind are all
still there, these attributes have no kind after the pass either, and a second pass finds nothing to
do (`Predicate.simplifyOnce_of_passes_back_inferred`).
-/

set_option autoImplicit false

namespace RuleCoverage

variable {ctx ctx' base ref : Interpretation} {a : String} {k : Kind} {effort : Effort}
  {p q x y z : Predicate} {ts : List Term} {n : Nat}

/-! ## Interpretations of what is written -/

namespace Predicate

/-- Where kinds can be inferred, the names of all attributes can be keys. -/
theorem allAtoms_checkAttr (hctx : Interpretation.of x none = .ok ctx) :
    x.AllAtoms fun atom ↦ atom.checkAttr = .ok () := by
  obtain ⟨_, hforM, -⟩ := bind_eq_ok.1 hctx
  have hall : ∀ atoms : List Predicate, atoms.forM checkAttr = .ok () →
      ∀ atom ∈ atoms, atom.checkAttr = .ok () := by
    intro atoms
    induction atoms with
    | nil => exact fun _ ↦ List.forall_mem_nil _
    | cons atom atoms ih =>
      intro h
      obtain ⟨_, hatom, h⟩ := bind_eq_ok.1 h
      exact List.forall_mem_cons.2 ⟨hatom, ih h⟩
  exact (allAtoms_iff x).2 fun atom hatom _ ↦ hall _ hforM atom (List.mem_reverse.2 hatom)

/-- The atoms on attributes that can be keys. -/
def checkAttrVocabulary (ctx : Interpretation) : Vocabulary ctx where
  Has atom := atom.checkAttr = .ok ()
  Writes atom := atom.checkAttr = .ok ()
  Names _ := True
  Compares _ _ := True
  names _ _ := trivial
  compares_domain _ _ _ _ := trivial
  compares_values _ _ _ _ _ := trivial
  keeps hatom _ := hatom
  writes _ _ hatom := by
    rw [checkAttr, hatom.attr]
    rfl

/-- Kinds can be inferred of what a pass writes. -/
theorem exists_of_simplifyOnce (h : simplifyOnce none effort x = .ok y) :
    ∃ ctx, Interpretation.of y none = .ok ctx := by
  obtain ⟨ctx, -, hctx, -⟩ := simplifyOnce_cases h
  exact exists_infer (allAtoms_simplifyOnce (V := checkAttrVocabulary ctx) hctx
    (allAtoms_checkAttr hctx) h)

/-! ## What passes do to the kinds of attributes -/

theorem names_of_beq (h : (p == q) = true) : p.Names a ↔ q.Names a := by
  have hmap := map_tag_atoms h
  have hnames : ∀ {p q : Predicate}, p.atoms.map tag = q.atoms.map tag → p.Names a → q.Names a := by
    rintro p q hmap ⟨atom, hatom, hn⟩
    obtain ⟨atom', hatom', htag⟩ := List.mem_map.1 (hmap ▸ List.mem_map_of_mem (f := tag) hatom)
    exact ⟨atom', hatom', named?_of_tag htag hn⟩
  exact ⟨hnames hmap, hnames hmap.symm⟩

theorem compares_of_beq (h : (p == q) = true) : p.Compares a ↔ q.Compares a := by
  have hmap := map_tag_atoms h
  have hcompares : ∀ {p q : Predicate}, p.atoms.map tag = q.atoms.map tag → p.Compares a →
      q.Compares a := by
    rintro p q hmap ⟨atom, hatom, hn, hls⟩
    obtain ⟨atom', hatom', htag⟩ := List.mem_map.1 (hmap ▸ List.mem_map_of_mem (f := tag) hatom)
    exact ⟨atom', hatom', named?_of_tag htag hn, compares_of_tag htag hls⟩
  exact ⟨hcompares hmap, hcompares hmap.symm⟩

/-- An attribute that has a kind and is compared with nothing is taken for one of texts. -/
theorem eq_string_of_kind? (hctx : Interpretation.of p none = .ok ctx) (hk : ctx.kind? a = some k)
    (h : ¬ p.Compares a) : k = .string := by
  rw [Interpretation.kind?_of_named hctx (Interpretation.names_of_kind? hctx hk)] at hk
  by_cases hls : ∃ atom ∈ p.atoms, atom.named? = some a ∧ atom.literals? ≠ none
  · rw [Interpretation.inferKind?_eq_some_iff hls] at hk
    exact absurd hk.1 h
  · have hstring := Interpretation.inferKind?_eq_string fun atom hatom hn ↦ by
      by_contra hne
      exact hls ⟨atom, hatom, hn, hne⟩
    exact Option.some.inj (hk.symm.trans hstring)

/-- The atom compares an attribute with nothing. -/
def Spares (a : String) (atom : Predicate) : Prop :=
  atom.named? = some a → ∀ vs, atom.literals? = some vs → vs = []

theorem allAtoms_spares_iff : p.AllAtoms (Spares a) ↔ ¬ p.Compares a := by
  rw [allAtoms_iff]
  constructor
  · rintro h ⟨atom, hatom, hn, vs, hvs, hne⟩
    have hisAtom : atom.IsAtom := by cases atom <;> trivial
    exact hne (h atom hatom hisAtom hn vs hvs)
  · intro h atom hatom _ hn vs hvs
    by_contra hne
    exact h ⟨atom, hatom, hn, vs, hvs, hne⟩

/-- The atoms that compare an attribute with nothing, if the attribute is not numeric. -/
def Spares.vocabulary (hctx : ctx.schema? = none) (hnum : ctx.kind? a ≠ some .numeric) :
    Vocabulary ctx where
  Has := Spares a
  Writes := Spares a
  Names _ := True
  Compares b _ := b ≠ a
  names _ _ := trivial
  compares_domain := by
    intro b d _ hfull s hs
    obtain ⟨k, hk, -⟩ := Interpretation.full?_eq_some hfull
    rw [Interpretation.full?_of_schemaless hctx hk] at hfull
    split at hfull <;> cases hfull
    exact absurd hs (Distinct.not_mem_empty s)
  compares_values := by
    rintro atom b d hatom hn hvs s hs rfl
    obtain ⟨k, hk⟩ := Interpretation.exists_kind?_of_values hn hvs
    obtain ⟨-, t, ls, hls, ht, -⟩ := Interpretation.literal_of_mem_values hn hk hvs s hs
    rw [hatom hn ls hls] at ht
    cases ht
  keeps hatom _ := hatom
  writes := by
    intro b k atom _ hk hatom hn vs hvs
    cases hatom.named.symm.trans hn
    obtain ⟨hne, hall⟩ := hatom.literals hvs
    obtain ⟨v, hv⟩ := List.exists_mem_of_ne_nil vs hne
    obtain ⟨s, -, hs⟩ := hall v hv
    split at hs
    · rename_i hkn
      exact absurd (hkn ▸ hk) hnum
    · exact absurd rfl hs

/-- A pass adds no attributes. -/
theorem names_of_simplifyOnce (h : simplifyOnce none effort x = .ok y) (ha : y.Names a) :
    x.Names a := by
  obtain ⟨ctx, ts, -, hts, ⟨-, rfl⟩ | ⟨-, -, rfl⟩ | ⟨-, rfl⟩⟩ := simplifyOnce_cases h
  · obtain ⟨atom, hatom, hn⟩ := ha
    rw [List.mem_singleton.1 hatom] at hn
    cases hn
  · obtain ⟨atom, hatom, hn⟩ := ha
    rw [List.mem_singleton.1 hatom] at hn
    cases hn
  · exact names_of_disjunctionOf hts ha

/-- A pass adds no comparisons with attributes that were not compared. -/
theorem compares_of_simplifyOnce (h : simplifyOnce none effort x = .ok y) (ha : y.Compares a) :
    x.Compares a := by
  obtain ⟨ctx, -, hctx, -⟩ := simplifyOnce_cases h
  by_contra hx
  have hnum : ctx.kind? a ≠ some .numeric := fun hk ↦
    absurd (eq_string_of_kind? hctx hk hx) (by decide)
  refine absurd ha (allAtoms_spares_iff.1 ?_)
  exact allAtoms_simplifyOnce (V := Spares.vocabulary (Interpretation.schema?_of hctx) hnum) hctx
    (allAtoms_spares_iff.2 hx) h

theorem names_of_passes (h : Passes (simplifyOnce none effort) n x z) (ha : z.Names a) :
    x.Names a := by
  induction n generalizing x with
  | zero => exact (show x = z from h) ▸ ha
  | succ n ih =>
    obtain ⟨y, hy, h⟩ := h
    exact names_of_simplifyOnce hy (ih h)

theorem compares_of_passes (h : Passes (simplifyOnce none effort) n x z) (ha : z.Compares a) :
    x.Compares a := by
  induction n generalizing x with
  | zero => exact (show x = z from h) ▸ ha
  | succ n ih =>
    obtain ⟨y, hy, h⟩ := h
    exact compares_of_simplifyOnce hy (ih h)

/-- **An attribute keeps its kind**, as long as what is named is still named and what is compared is
still compared. -/
theorem kind?_of_simplifyOnce (hctx : Interpretation.of x none = .ok ctx)
    (hctx' : Interpretation.of y none = .ok ctx') (h : simplifyOnce none effort x = .ok y)
    (hnames : x.Names a → y.Names a) (hcompares : x.Compares a → y.Compares a)
    (hk : ctx.kind? a = some k) : ctx'.kind? a = some k := by
  have hshows := allAtoms_showsKinds hctx h
  by_cases hy : y.Compares a
  · exact kind?_of_compares hctx' hshows hk hy
  · rw [eq_string_of_kind? hctx hk (mt hcompares hy)]
    exact kind?_of_not_compares hctx' hshows hk (hnames (Interpretation.names_of_kind? hctx hk)) hy

end Predicate

/-- What is read with fewer kinds is read alike with more. -/
theorem Interpretation.Gives.of_kinds {c : Predicate.Tag × Bool} {ws : ValueSet}
    (hctx : ctx.schema? = none) (href : ref.schema? = none)
    (hkinds : ∀ a k, ctx.kind? a = some k → ref.kind? a = some k) (h : ctx.Gives c ws) :
    ref.Gives c ws := by
  obtain ⟨atom, a, vs, full, htag, hn, hvs, hfull, hws⟩ := h
  obtain ⟨k, hk, -⟩ := full?_eq_some hfull
  have hagree := agree_of_schemaless hctx href ((hkinds a k hk).trans hk.symm)
  refine ⟨atom, a, vs, full, htag, hn, ?_, ?_, hws⟩
  · rw [← Predicate.values?_congr hagree fun b hb ↦ Option.some.inj (hb.symm.trans hn)]
    exact hvs
  · rw [← hagree.full a rfl]
    exact hfull

/-! ## Weights along a run -/

namespace Predicate

/-- All atoms are of classes that say something about one attribute that has a kind. -/
def IsSole (ctx : Interpretation) (p : Predicate) : Prop :=
  ∃ a k, ctx.kind? a = some k ∧
    p.AllAtoms fun atom ↦ ∃ q : Predicate, q.tag = atom.tag ∧ q.SaysOf a k

theorem isSole_of_beq (h : (p == q) = true) : p.IsSole ctx ↔ q.IsSole ctx := by
  refine exists_congr fun a ↦ exists_congr fun k ↦ and_congr_right fun _ ↦ allAtoms_of_beq ?_ h
  intro x y htag
  rw [htag]

/-- The atoms of such a predicate say something, if they are compared with literals of the kind. -/
theorem IsSole.exists_saysOf (hp : p.IsSole base)
    (hkinds : ∀ a k, base.kind? a = some k → ctx.kind? a = some k)
    (hfits : p.AllAtoms (FitsKinds ctx)) :
    ∃ a k, base.kind? a = some k ∧ ctx.kind? a = some k ∧ p.AllAtoms (SaysOf a k) := by
  obtain ⟨a, k, hk, hall⟩ := hp
  have hk' := hkinds a k hk
  rw [allAtoms_iff] at hall hfits
  refine ⟨a, k, hk, hk', (allAtoms_iff p).2 fun atom hatom hisAtom ↦ ?_⟩
  obtain ⟨q, htag, hsays⟩ := hall atom hatom hisAtom
  have hn := named?_of_tag htag.symm hsays.named
  exact ⟨hn, exists_meaning?_of_tag htag.symm hsays.meaning (hfits atom hatom hisAtom a k hn hk')⟩

section weights

variable [DecidablePred (IsSole base)] (hctx : Interpretation.of x none = .ok ctx)
  (hts : x.expand ctx false = .ok ts) (href : ref.schema? = none)
  (hbase : ∀ a k, base.kind? a = some k → ctx.kind? a = some k)
  (hkinds : ∀ a k, ctx.kind? a = some k → ref.kind? a = some k)

include hctx hts href hbase hkinds

/-- What a predicate is expanded into weighs no more than the predicate, by the kinds that are known
later on and where the demands on attributes that had a kind before weigh one. -/
theorem weighsWithin_expand_inferred {K : List Predicate → List Term → Prop}
    (hK : Term.Conserved (Interpretation.blank (Interpretation.plain_of_schemaless
      (Interpretation.schema?_of hctx))) (ref.weighting fun a ↦ base.kind? a ≠ none) K)
    (hfree : ∀ {atoms : List Predicate} {ts},
      (∀ atom ∈ atoms, ∀ a, atom.named? = some a → ctx.kind? a ≠ none) → K atoms ts)
    (hliteral : ∀ {atom positive}, K [atom] [.ofLiteral ⟨atom, positive⟩]) :
    Term.WeighsWithin (ref.weighting fun a ↦ base.kind? a ≠ none)
      (x.weight (ref.weighting fun a ↦ base.kind? a ≠ none) (IsSole base) false)
      (K x.atoms) ts := by
  have hschema := Interpretation.schema?_of hctx
  have hplain : ctx.Plain := Interpretation.plain_of_schemaless hschema
  have hgives : ∀ {c ws}, ctx.Gives c ws → ref.Gives c ws :=
    fun h ↦ h.of_kinds hschema href hkinds
  have hunnamed : ∀ {p : Predicate} {ts}, p.named? = none → K [p] ts := fun hp ↦
    hfree (List.forall_mem_singleton.2 fun a hn ↦ by cases hp.symm.trans hn)
  refine weighsWithin_expand ?_ ?_ hK (hunnamed rfl) (hunnamed rfl) (fun _ ↦ trivial) x
    (allAtoms_fitsKinds hctx) hts
  · intro atom negated ts _ _ h
    refine weighsWithin_expandAtom hgives ?_ ?_ (fun _ ↦ hliteral) h
    · rintro ⟨a, hn, hmissing | hfull⟩
      · rw [Interpretation.isMissing_of_schemaless hschema] at hmissing
        cases hmissing
      · obtain ⟨full, hfull⟩ := Option.ne_none_iff_exists'.1 hfull
        refine hfree (List.forall_mem_singleton.2 fun b hb ↦ ?_)
        cases hn.symm.trans hb
        exact Interpretation.kind?_ne_none hfull
    · refine fun hn hfull _ ↦ hfree (List.forall_mem_singleton.2 fun b hb ↦ ?_)
      cases hn.symm.trans hb
      exact Interpretation.kind?_ne_none hfull
  · intro p negated ts hsole hfits h
    obtain ⟨a, k, hka, hk, hsays⟩ := hsole.exists_saysOf hbase hfits
    have hlight : ∀ vs, (ref.weighting fun a ↦ base.kind? a ≠ none).values a vs = 1 := fun vs ↦
      Interpretation.weighting_values_of_light (by rw [hka]; exact Option.some_ne_none k)
    have hknows := Interpretation.knows_blank hplain p
    refine .inr ⟨totalWeight_expand_le_one hk hsays hlight hknows h, ?_⟩
    refine hfree fun atom hatom b hb ↦ ?_
    have hisAtom : atom.IsAtom := by cases atom <;> trivial
    cases (((allAtoms_iff p).1 hsays atom hatom hisAtom).named).symm.trans hb
    rw [hk]
    exact Option.some_ne_none k

/-- What is written weighs no more than what was read. -/
theorem weight_disjunctionOf_le_inferred (hne : ts ≠ []) :
    (Term.disjunctionOf ctx ts).weight (ref.weighting fun a ↦ base.kind? a ≠ none) (IsSole base)
      false ≤ Term.totalWeight (ref.weighting fun a ↦ base.kind? a ≠ none) ts := by
  have hschema := Interpretation.schema?_of hctx
  have hplain : ctx.Plain := Interpretation.plain_of_schemaless hschema
  have hproper := proper_expand x (Interpretation.knows_blank hplain x) hts
  refine Term.weight_disjunctionOf_le (fun h ↦ h.of_kinds hschema href hkinds) hplain
    (expand_spec x (Interpretation.knows_blank hplain x) hts).1 hproper hne ?_
  intro t ht c hc hlight
  obtain ⟨k, hk⟩ := Option.ne_none_iff_exists'.1 hlight
  refine ⟨c.1, k, hk, ?_⟩
  exact (ValueSet.allAtoms_saysOf hplain (hbase _ k hk) (hproper t ht c hc).demand).imp
    fun atom h ↦ ⟨atom, rfl, h⟩

end weights

section run

variable [DecidablePred (IsSole base)]

theorem weight_le_of_simplifyOnce (hnever : y ≠ .never) (halways : y ≠ .always)
    (h : simplifyOnce none effort x = .ok y) (hctx : Interpretation.of x none = .ok ctx)
    (href : ref.schema? = none) (hbase : ∀ a k, base.kind? a = some k → ctx.kind? a = some k)
    (hkinds : ∀ a k, ctx.kind? a = some k → ref.kind? a = some k) :
    y.weight (ref.weighting fun a ↦ base.kind? a ≠ none) (IsSole base) false ≤
      x.weight (ref.weighting fun a ↦ base.kind? a ≠ none) (IsSole base) false := by
  obtain ⟨ctx', ts, hctx', hts, ⟨-, rfl⟩ | ⟨-, -, rfl⟩ | ⟨hne, rfl⟩⟩ := simplifyOnce_cases h
  · exact absurd rfl hnever
  · exact absurd rfl halways
  cases hctx.symm.trans hctx'
  refine (weight_disjunctionOf_le_inferred hctx hts href hbase hkinds hne).trans ?_
  refine (weighsWithin_expand_inferred (K := fun _ _ ↦ True) hctx hts href hbase hkinds ?_
    (fun _ ↦ trivial) trivial).le
  exact ⟨fun _ _ _ _ _ _ ↦ trivial, fun _ _ ↦ trivial, fun _ _ _ _ _ _ _ ↦ trivial⟩

/-- **Where a run keeps all attributes and all comparisons, it makes nothing heavier.** -/
theorem exists_weight_le_of_passes (hnever : z ≠ .never) (halways : z ≠ .always)
    (h : Passes (simplifyOnce none effort) n x z) (hctx : Interpretation.of x none = .ok ctx)
    (hbase : ∀ a k, base.kind? a = some k → ctx.kind? a = some k)
    (hnames : ∀ a, x.Names a → z.Names a) (hcompares : ∀ a, x.Compares a → z.Compares a) :
    ∃ ref : Interpretation, ref.schema? = none ∧
      (∀ a k, ctx.kind? a = some k → ref.kind? a = some k) ∧
      z.weight (ref.weighting fun a ↦ base.kind? a ≠ none) (IsSole base) false ≤
        x.weight (ref.weighting fun a ↦ base.kind? a ≠ none) (IsSole base) false := by
  induction n generalizing x ctx with
  | zero =>
    obtain rfl : x = z := h
    exact ⟨ctx, Interpretation.schema?_of hctx, fun _ _ ↦ id, Nat.le_refl _⟩
  | succ n ih =>
    obtain ⟨y, hy, h⟩ := h
    obtain ⟨ctx', hctx'⟩ := exists_of_simplifyOnce hy
    have hkeep : ∀ a k, ctx.kind? a = some k → ctx'.kind? a = some k := fun a k ↦
      kind?_of_simplifyOnce hctx hctx' hy (fun ha ↦ names_of_passes h (hnames a ha))
        fun ha ↦ compares_of_passes h (hcompares a ha)
    obtain ⟨ref, href, hkinds, hle⟩ := ih h hctx' (fun a k hk ↦ hkeep a k (hbase a k hk))
      (fun a ha ↦ hnames a (names_of_simplifyOnce hy ha))
      fun a ha ↦ hcompares a (compares_of_simplifyOnce hy ha)
    have hkinds' : ∀ a k, ctx.kind? a = some k → ref.kind? a = some k :=
      fun a k hk ↦ hkinds a k (hkeep a k hk)
    refine ⟨ref, href, hkinds', hle.trans ?_⟩
    refine weight_le_of_simplifyOnce ?_ ?_ hy hctx href hbase hkinds'
    · rintro rfl
      exact hnever (h.eq_of_fixed simplifyOnce_never)
    · rintro rfl
      exact halways (h.eq_of_fixed simplifyOnce_always)

end run

/-! ## Runs that come back -/

/-- An attribute without a kind has none after a pass that keeps all atoms on it. -/
theorem kind?_eq_none_of_keeps (hctx : Interpretation.of x none = .ok ctx)
    (hctx' : Interpretation.of y none = .ok ctx') (h : simplifyOnce none effort x = .ok y)
    (hkeeps : ∀ atom ∈ x.atoms, atom.named? = some a → atom ∈ y.atoms)
    (hnames : y.Names a) (hk : ctx.kind? a = none) : ctx'.kind? a = none := by
  cases hk' : ctx'.kind? a with
  | none => rfl
  | some k =>
    rw [Interpretation.kind?_of_named hctx (names_of_simplifyOnce h hnames)] at hk
    by_cases hls : ∃ atom ∈ x.atoms, atom.named? = some a ∧ atom.literals? ≠ none
    · have hls' : ∃ atom ∈ y.atoms, atom.named? = some a ∧ atom.literals? ≠ none := by
        obtain ⟨atom, hatom, hn, hne⟩ := hls
        exact ⟨atom, hkeeps atom hatom hn, hn, hne⟩
      rw [Interpretation.kind?_of_named hctx' hnames,
        Interpretation.inferKind?_eq_some_iff hls'] at hk'
      have hsome := (Interpretation.inferKind?_eq_some_iff hls (k := k)).2
        ⟨compares_of_simplifyOnce h hk'.1, fun atom hatom hn ↦ hk'.2 atom (hkeeps atom hatom hn) hn⟩
      cases hsome.symm.trans hk
    · have hstring := Interpretation.inferKind?_eq_string fun atom hatom hn ↦ by
        by_contra hne
        exact hls ⟨atom, hatom, hn, hne⟩
      cases hstring.symm.trans hk

/-- In a run that comes back no attribute gets a kind after the first pass. -/
theorem kind?_eq_none_of_passes_back (hctx : Interpretation.of x none = .ok ctx)
    (hts : x.expand ctx false = .ok ts) (hne : ts ≠ [])
    (hy : simplifyOnce none effort x = .ok (Term.disjunctionOf ctx ts))
    (h : Passes (simplifyOnce none effort) n (Term.disjunctionOf ctx ts) z)
    (hxz : (x == z) = true) (hnever : z ≠ .never) (halways : z ≠ .always)
    (hctx' : Interpretation.of (Term.disjunctionOf ctx ts) none = .ok ctx')
    (ha : (Term.disjunctionOf ctx ts).Names a) (hk : ctx.kind? a = none) :
    ctx'.kind? a = none := by
  classical
  have hnames : ∀ a, x.Names a → z.Names a := fun a ↦ (names_of_beq hxz).1
  have hcompares : ∀ a, x.Compares a → z.Compares a := fun a ↦ (compares_of_beq hxz).1
  have hkeep : ∀ a k, ctx.kind? a = some k → ctx'.kind? a = some k := fun a k ↦
    kind?_of_simplifyOnce hctx hctx' hy (fun ha ↦ names_of_passes h (hnames a ha))
      fun ha ↦ compares_of_passes h (hcompares a ha)
  obtain ⟨ref, href, hkinds, hle⟩ := exists_weight_le_of_passes hnever halways h hctx' hkeep
    (fun a ha ↦ hnames a (names_of_simplifyOnce hy ha))
    fun a ha ↦ hcompares a (compares_of_simplifyOnce hy ha)
  have hkinds' : ∀ a k, ctx.kind? a = some k → ref.kind? a = some k :=
    fun a k hk ↦ hkinds a k (hkeep a k hk)
  -- the first pass has lost no weight, so it has lost no atoms on attributes without a kind
  have hfirst : Term.KeepsKindless ctx x.atoms ts := by
    have hwritten := weight_disjunctionOf_le_inferred hctx hts href (fun _ _ ↦ id) hkinds' hne
    have hwithin := weighsWithin_expand_inferred hctx hts href (fun _ _ ↦ id) hkinds'
      (Term.conserved_keepsKindless (fun _ ↦ Interpretation.two_le_weighting_literal)
        fun _ _ h ↦ Interpretation.weighting_values_of_light (L := fun a ↦ ctx.kind? a ≠ none) h)
      (fun h atom hatom a hn hk ↦ absurd hk (h atom hatom a hn)) ?_
    · refine hwithin.resolve_left (Nat.not_lt.2 ?_) |>.2
      rw [weight_congr isSole_of_beq hxz]
      exact hle.trans hwritten
    · intro atom positive
      refine List.forall_mem_singleton.2 fun a _ _ ↦ ⟨_, List.mem_singleton_self _, _,
        List.mem_singleton_self _, rfl⟩
  refine kind?_eq_none_of_keeps hctx hctx' hy (fun atom hatom hn ↦ ?_) ha hk
  obtain ⟨t, ht, l, hl, rfl⟩ := hfirst atom hatom a hn hk
  exact Term.mem_atoms_of_literal ht hl (isAtom_of_expand x hts t ht l hl)

/-- **A predicate that comes back without a schema does so in the first pass**, and what that comes
to stays. -/
theorem stays_of_passes_back_inferred (hy : simplifyOnce none effort x = .ok y)
    (h : Passes (simplifyOnce none effort) n y z) (hxz : (x == z) = true) :
    y.Stays none effort := by
  have hfixed : ∀ {c}, simplifyOnce none effort c = .ok c → x = c → y.Stays none effort := by
    rintro c hc rfl
    cases hy.symm.trans hc
    exact stays_of_fixed hc
  by_cases hnever : z = .never
  · rw [hnever] at hxz
    exact hfixed simplifyOnce_never (eq_never_of_beq hxz)
  by_cases halways : z = .always
  · rw [halways] at hxz
    exact hfixed simplifyOnce_always (eq_always_of_beq hxz)
  obtain ⟨ctx, ts, hctx, hts, ⟨-, rfl⟩ | ⟨-, -, rfl⟩ | ⟨hne, rfl⟩⟩ := simplifyOnce_cases hy
  · exact absurd (h.eq_of_fixed simplifyOnce_never) hnever
  · exact absurd (h.eq_of_fixed simplifyOnce_always) halways
  obtain ⟨ctx', hctx'⟩ := exists_of_simplifyOnce hy
  exact stays_disjunctionOf hctx hts hctx' fun a ha hk ↦
    kind?_eq_none_of_passes_back hctx hts hne hy h hxz hnever halways hctx' ha hk

theorem simplifyOnce_of_passes_back_inferred (hy : simplifyOnce none effort x = .ok y)
    (h : Passes (simplifyOnce none effort) (n + 1) y z) (hxz : (x == z) = true) :
    simplifyOnce none effort y = .ok y :=
  (stays_of_passes_back_inferred hy h hxz).eq_of_passes_back hy h hxz

end Predicate

end RuleCoverage
