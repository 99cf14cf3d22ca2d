import RuleCoverage.Proofs.NormalForm.RoundTrip.Inferred
import RuleCoverage.Proofs.NormalForm.RowMeaning
import RuleCoverage.Proofs.NormalForm.Satisfiability
import RuleCoverage.Proofs.NormalForm.Totality
import RuleCoverage.Proofs.NormalForm.Uniform

/-!
# Predicates on texts

Without a schema, an attribute that is only compared with texts is taken for one of texts.  A
predicate on such attributes is simplified to `never` if and only if there is no row of texts on
which it is true (`Predicate.exists_simplify_eq_never_iff`).

The empty set has no texts to tell the kind from.  An attribute that is looked up in it, and
compared with nothing else, is not interpreted, and the lookup is left alone
(`Predicate.simplify_isIn_empty`).
-/

set_option autoImplicit false

namespace RuleCoverage

variable {ctx : Interpretation} {p q atom : Predicate} {A : String → Prop} {a : String}
  {effort : Effort} {row : Row}

/-- The scalar is a text. -/
def Scalar.IsText (s : Scalar) : Prop := ∃ t, s = .text t

theorem Scalar.IsText.inRange {s : Scalar} (h : s.IsText) : s.InRange := by
  obtain ⟨t, rfl⟩ := h
  exact fun n hn ↦ by cases hn

/-- The cell holds nothing or a text. -/
def Cell.IsText (cell : Cell) : Prop :=
  ∀ v, cell.value? = some v → (∃ t, v = .text t) ∧ ∀ all, cell.column ≠ .labels .bool all

/-- All cells of the row hold texts or nothing. -/
def Row.HasTexts (row : Row) : Prop := ∀ a, (row.cellNamed a).IsText

/-- A cell of a text is compared with texts by value. -/
theorem Cell.IsText.decides {cell : Cell} (h : cell.IsText) (t : String) :
    cell.Decides (.text t) := by
  obtain ⟨column, value?⟩ := cell
  refine ⟨?_, fun _ hm ↦ Bool.false_ne_true hm⟩
  cases value? with
  | none => trivial
  | some v =>
    obtain ⟨⟨u, rfl⟩, hcolumn⟩ := h v rfl
    refine ⟨Bool.false_ne_true, ?_⟩
    cases column with
    | labels type all =>
      cases type with
      | bool => exact absurd rfl (hcolumn all)
      | int => exact fun _ ↦ rfl
      | double => exact ⟨rfl, fun _ ↦ rfl⟩
      | _ => trivial
    | int => exact ⟨rfl, fun _ ↦ Scalar.noConfusion⟩
    | double => rfl
    | _ => trivial

namespace Predicate

/-- The atom asks whether an attribute is missing, or which of some texts it is. -/
inductive AsksForText : Predicate → Prop
  | isNull (a : String) : AsksForText (.isNull (.text a))
  | eq (a t : String) : AsksForText (.compare (.text a) .eq (.text t))
  | ne (a t : String) : AsksForText (.compare (.text a) .ne (.text t))
  | isIn (a : String) (texts : Distinct Scalar) (h : ∀ s ∈ texts.toList, s.IsText) :
      AsksForText (.isIn (.text a) texts)

theorem AsksForText.asks (h : atom.AsksForText) : atom.Asks (fun _ ↦ True) Scalar.IsText := by
  cases h with
  | isNull a => exact ⟨⟨a, rfl, trivial⟩, fun hvs ↦ by cases hvs⟩
  | eq a t | ne a t =>
    refine ⟨⟨a, rfl, trivial⟩, fun hvs v hv ↦ ?_⟩
    cases hvs
    exact ⟨_, List.mem_singleton.1 hv, t, rfl⟩
  | isIn a texts htexts =>
    refine ⟨⟨a, rfl, trivial⟩, fun hvs v hv ↦ ?_⟩
    cases hvs
    obtain ⟨s, hs, rfl⟩ := List.mem_map.1 hv
    exact ⟨s, rfl, htexts s hs⟩

/-- For an attribute of texts, the atom means something. -/
theorem AsksForText.exists_meaning? (h : atom.AsksForText) :
    ∃ m, atom.meaning? .string = some m := by
  have hdiscrete : Kind.string ≠ .numeric := by decide
  cases h with
  | isNull a => exact ⟨_, rfl⟩
  | eq a t => exact ⟨_, meaning?_eq hdiscrete rfl⟩
  | ne a t => exact ⟨_, meaning?_ne hdiscrete rfl⟩
  | isIn a texts htexts =>
    refine ⟨_, meaning?_isIn hdiscrete fun s hs ↦ ?_⟩
    obtain ⟨t, rfl⟩ := htexts s hs
    rfl

/-! ## The kinds of attributes -/

/-- A predicate on some attributes that are all taken for texts. -/
structure OnTexts (p : Predicate) (A : String → Prop) : Prop where
  about : p.AllAtoms (About A)
  kind : ∀ {ctx a}, Interpretation.of p none = .ok ctx → p.Names a → ctx.kind? a = some .string

/-- Attributes that are compared with texts only, if at all, are taken for texts. -/
theorem onTexts_of_asks (hp : p.AllAtoms (Asks A Scalar.IsText))
    (hcompares : ∀ {atom a}, atom ∈ p.atoms → atom.named? = some a → atom.literals? ≠ none →
      p.Compares a) : p.OnTexts A := by
  refine ⟨hp.imp fun _ h ↦ h.about, fun {ctx a} hctx ha ↦ ?_⟩
  rw [Interpretation.kind?_of_named hctx ha]
  by_cases hcompared : ∃ atom ∈ p.atoms, atom.named? = some a ∧ atom.literals? ≠ none
  · rw [Interpretation.inferKind?_eq_some_iff hcompared]
    obtain ⟨atom, hatom, hn, hls⟩ := hcompared
    refine ⟨hcompares hatom hn hls, fun atom hatom hn vs hvs v hv ↦ ?_⟩
    have hisAtom : atom.IsAtom := by cases atom <;> trivial
    obtain ⟨s, rfl, t, rfl⟩ := ((allAtoms_iff p).1 hp atom hatom hisAtom).literals hvs v hv
    rfl
  · refine Interpretation.inferKind?_eq_string fun atom hatom hn ↦ ?_
    by_contra hls
    exact hcompared ⟨atom, hatom, hn, hls⟩

namespace OnTexts

/-- A pass writes about texts if it reads about texts. -/
theorem simplifyOnce (h : p.OnTexts A) (hq : simplifyOnce none effort p = .ok q) :
    q.OnTexts A := by
  refine ⟨about_simplifyOnce h.about hq, fun {ctx' a} hctx' ha ↦ ?_⟩
  obtain ⟨ctx, -, hctx, -⟩ := simplifyOnce_cases hq
  have hshows := allAtoms_showsKinds hctx hq
  have hk := h.kind hctx (About.of_names (about_simplifyOnce (About.names h.about) hq) ha)
  by_cases hcompares : q.Compares a
  · exact kind?_of_compares hctx' hshows hk hcompares
  · exact kind?_of_not_compares hctx' hshows hk ha hcompares

/-- A predicate on texts is simplified as it would be against a schema that says so. -/
theorem simplify_eq (h : p.OnTexts A) :
    p.simplify none effort = p.simplify (some (.ofKind .string p.attributes.toList)) effort := by
  let attrs := p.attributes.toList
  have hself : p.OnTexts fun a ↦ a ∈ attrs :=
    ⟨(About.names h.about).imp fun _ ↦ .imp fun _ ha ↦ ⟨ha.1, mem_attributes.2 ha.2⟩, h.kind⟩
  refine settle_congr (P := fun x ↦ x.OnTexts fun a ↦ a ∈ attrs) (fun x hx ↦ ?_)
    (fun x y hx hy ↦ hx.simplifyOnce hy) hself
  obtain ⟨ctx, hctx⟩ := exists_infer (hx.about.imp fun _ hatom ↦ hatom.checkAttr)
  have hagree : ctx.Agree (Schema.ofKind .string attrs).interpretation x.Names :=
    Interpretation.agree_of_kind? (.inr rfl) (fun a ha ↦ hx.kind hctx ha)
      fun a ha ↦ Schema.kind?_ofKind_of_mem (About.of_names hx.about ha)
  exact simplifyOnce_congr hagree hctx rfl ((About.names hx.about).imp fun _ h ↦ h.within)

end OnTexts

/-! ## Rows of texts -/

/-- A row of texts suits what is inferred from a predicate on texts. -/
theorem OnTexts.suits (h : p.OnTexts A) (hctx : Interpretation.of p none = .ok ctx) :
    row.Suits none ctx where
  schema := Interpretation.schema?_of hctx
  conforms _ hnone := by cases hnone
  numeric a hk := by cases hk.symm.trans (h.kind hctx (Interpretation.names_of_kind? hctx hk))
  categorical a hk := by cases hk.symm.trans (h.kind hctx (Interpretation.names_of_kind? hctx hk))

theorem AsksForText.compares (h : atom.AsksForText) (hrow : row.HasTexts) :
    ∀ s ∈ atom.scalars, row.Compares none a s := by
  intro s hs
  obtain ⟨t, rfl⟩ := h.asks.of_mem_scalars hs
  exact ⟨(hrow a).decides t, fun _ ↦ rfl, fun _ hkind ↦ by cases hkind⟩

/-- A row of texts knows whether an atom is true that asks for texts. -/
theorem AsksForText.knows (h : atom.AsksForText) (hp : p.OnTexts A)
    (hctx : Interpretation.of p none = .ok ctx) (hatom : atom ∈ p.atoms) (hrow : row.HasTexts) :
    row.Knows none atom := by
  obtain ⟨a, hattr, -⟩ := h.asks.about
  have hn : atom.named? = some a := by rw [named?, hattr]; rfl
  obtain ⟨m, hm⟩ := h.exists_meaning?
  exact Row.knows_of_meaning (hp.suits hctx) hn (hp.kind hctx ⟨atom, hatom, hn⟩)
    (h.compares hrow) hm

end Predicate

/-- What an assignment to attributes of texts gives to an attribute. -/
theorem Assignment.exists_text {attrs : List String} (α : Assignment (.ofKind .string attrs))
    (a : String) : ∃ t? : Option String, α.value a = t?.map fun t ↦ .literal (.text t) := by
  have hallowed := α.allowed a
  rcases hvalue : α.value a with _ | v
  · exact ⟨none, rfl⟩
  rw [hvalue, Schema.Allows, Schema.kind?_ofKind] at hallowed
  by_cases ha : a ∈ attrs
  · rw [if_pos ha] at hallowed
    obtain ⟨t, rfl⟩ := hallowed
    exact ⟨some t, rfl⟩
  · rw [if_neg ha] at hallowed
    exact hallowed.elim

/-- The row of some texts. -/
def Row.ofTexts (attrs : List String) (text : String → Option String) : Row :=
  ofCells attrs (fun a ↦ ⟨.mixed, (text a).map .text⟩) fun _ ↦ false

theorem Row.value?_ofTexts {attrs : List String} (text : String → Option String) (ha : a ∈ attrs) :
    ((ofTexts attrs text).cellNamed a).value? = (text a).map .text := by
  rw [ofTexts, cellNamed_ofCells, if_pos ha]

theorem Row.hasTexts_ofTexts (attrs : List String) (text : String → Option String) :
    (ofTexts attrs text).HasTexts := by
  intro a v hv
  rw [ofTexts, cellNamed_ofCells] at hv ⊢
  split at hv
  · rename_i ha
    rw [if_pos ha]
    obtain ⟨t, -, rfl⟩ := Option.map_eq_some_iff.1 hv
    exact ⟨⟨t, rfl⟩, fun _ ↦ ColumnType.noConfusion⟩
  · cases hv

namespace Predicate

/-- An assignment of texts that satisfies a predicate is a row on which it is true. -/
theorem exists_row (hp : p.AllAtoms AsksForText) (htexts : p.OnTexts A)
    (hctx : Interpretation.of p none = .ok ctx)
    {α : Assignment (.ofKind .string p.attributes.toList)} (hα : p.IsTrue α.truth) :
    ∃ row : Row, row.HasTexts ∧ p.holds row = .ok true := by
  choose text htext using α.exists_text
  let row := Row.ofTexts p.attributes.toList text
  have hrow : row.HasTexts := Row.hasTexts_ofTexts _ text
  have hsuits : row.Suits none ctx := htexts.suits hctx
  have hknows : p.AllAtoms fun atom ↦ row.Knows none atom ∧ (α.truth atom ↔ row.Truth atom) := by
    rw [allAtoms_iff] at hp ⊢
    intro atom hatom hisAtom
    have hasks := hp atom hatom hisAtom
    obtain ⟨a, hattr, -⟩ := hasks.asks.about
    have hn : atom.named? = some a := by rw [named?, hattr]; rfl
    have hnames : p.Names a := ⟨atom, hatom, hn⟩
    have hk := htexts.kind hctx hnames
    have hmem : a ∈ p.attributes.toList := mem_attributes.2 hnames
    obtain ⟨m, hm⟩ := hasks.exists_meaning?
    have hknows := hasks.knows htexts hctx hatom hrow
    have hvalue : row.value ctx a = α.value a := by
      rw [Row.value, if_neg (by rw [hk]; decide), Row.value?_ofTexts text hmem, htext,
        Option.map_map]
      rfl
    refine ⟨hknows, ?_⟩
    rw [α.truth_of_meaning hn (Schema.kind?_ofKind_of_mem hmem) hm,
      Row.truth_iff_meaning hknows hsuits hn hk hm, hvalue]
  obtain ⟨r, hr, hiff⟩ := Row.holds_iff_isTrue (hknows.imp fun _ h ↦ h.1.1)
  have htrue : p.IsTrue row.Truth := (isTrue_congr (hknows.imp fun _ h ↦ h.2)).1 hα
  exact ⟨row, hrow, by rw [hr, hiff.2 htrue]⟩

/-- **A predicate on texts is simplified to `never` exactly when no row of texts makes it true**, if
every attribute that is looked up in the empty set is also compared with some text. -/
theorem exists_simplify_eq_never_iff (effort : Effort) (hp : p.AllAtoms AsksForText)
    (hempty : ∀ a texts, isIn (.text a) texts ∈ p.atoms → texts.isEmpty = true → p.Compares a) :
    ∃ q, p.simplify none effort = .ok q ∧
      (q = .never ↔ ¬ ∃ row : Row, row.HasTexts ∧ p.holds row = .ok true) := by
  have htexts : p.OnTexts fun _ ↦ True := by
    refine onTexts_of_asks (hp.imp fun _ h ↦ h.asks) fun {atom a} hatom hn hls ↦ ?_
    obtain ⟨vs, hvs⟩ := Option.ne_none_iff_exists'.1 hls
    by_cases hnil : vs = []
    · subst hnil
      cases atom with
      | isIn attr texts =>
        have hnone : texts.toList = [] := List.map_eq_nil_iff.1 (Option.some.inj hvs)
        cases Row.attr?_of_named? hn
        exact hempty a texts hatom (by rw [Distinct.isEmpty, hnone]; rfl)
      | _ => cases hvs
    · exact ⟨atom, hatom, hn, vs, hvs, hnil⟩
  have hreadable : p.AllAtoms (Readable none) :=
    hp.imp fun _ h ↦ h.asks.readable fun _ ↦ Scalar.IsText.inRange
  obtain ⟨ctx, hctx⟩ := exists_of hreadable
  obtain ⟨q, hq⟩ := exists_simplify effort hreadable
  have hnever := simplify_eq_never_iff (Schema.hasPlainCategories_ofKind _ _)
    (htexts.simplify_eq.symm.trans hq)
  refine ⟨q, hq, ?_, ?_⟩
  · rintro rfl ⟨row, hrow, htrue⟩
    have htakes : p.AllAtoms (row.Takes none) := by
      rw [allAtoms_iff] at hp ⊢
      exact fun atom hatom hisAtom ↦ ((hp atom hatom hisAtom).knows htexts hctx hatom hrow).2
    cases holds_simplify (fun _ hnone ↦ by cases hnone) htakes hq htrue
  · intro hno
    refine hnever.2 ?_
    rintro ⟨α, hα⟩
    exact hno (exists_row hp htexts hctx hα)

/-- A road is not looked up in the empty set in vain: the comparison tells the kind. -/
theorem not_exists_road_in_empty : ¬ ∃ row : Row, row.HasTexts ∧
    (and (compare (.text "kind") .eq (.text "road")) (isIn (.text "kind") .empty)).holds row =
      .ok true := by
  let road := compare (.text "kind") .eq (.text "road")
  let p := and road (isIn (.text "kind") .empty)
  have hatoms : p.AllAtoms AsksForText :=
    ⟨.eq _ _, .isIn _ _ fun s hs ↦ absurd hs (Distinct.not_mem_empty s)⟩
  have hempty : ∀ a texts, isIn (.text a) texts ∈ p.atoms → texts.isEmpty = true →
      p.Compares a := by
    intro a texts hmem _
    have hname : a = "kind" := by
      rcases List.mem_cons.1 hmem with h | h
      · change _ = compare _ _ _ at h
        cases h
      · cases List.mem_singleton.1 h
        rfl
    rw [hname]
    exact ⟨road, List.mem_cons_self, rfl, _, rfl, List.cons_ne_nil _ _⟩
  obtain ⟨q, hq, hiff⟩ := exists_simplify_eq_never_iff {} hatoms hempty
  cases hq.symm.trans (show p.simplify none {} = .ok .never from eq_ok_never (by decide +kernel))
  exact hiff.1 rfl

/-- A lookup in the empty set, from which no kind can be told, is left alone, though it is false of
every row. -/
theorem simplify_isIn_empty :
    (∃ q, (isIn (.text "k") .empty).simplify none {} = .ok q ∧ q ≠ .never) ∧
      ∀ row : Row, (isIn (.text "k") .empty).holds row = .ok false := by
  refine ⟨?_, fun row ↦ ?_⟩
  · have hkept :
        ((isIn (.text "k") .empty).simplify none {}).toOption.any (· != .never) = true := by
      decide +kernel
    obtain ⟨q, hq, hne⟩ := (Option.any_eq_true _ _).1 hkept
    refine ⟨q, eq_ok_of_toOption hq, ?_⟩
    rintro rfl
    cases hne
  · rw [Row.holds_isIn, Except.ok.injEq, Bool.eq_false_iff]
    intro hin
    obtain ⟨b, hb, -⟩ := (Cell.isIn_eq fun b hb ↦ absurd hb (Distinct.not_mem_empty b)).1 hin
    exact Distinct.not_mem_empty b hb

end Predicate

end RuleCoverage
