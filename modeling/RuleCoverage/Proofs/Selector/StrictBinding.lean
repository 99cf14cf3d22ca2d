import RuleCoverage.Proofs.NormalForm.Inference
import RuleCoverage.Proofs.NormalForm.RoundTrip.Sorted
import RuleCoverage.Selector.Binding

/-!
# What strict binding accepts

Strict binding goes over a predicate twice: first it looks for an attribute that the schema does not
have, in the order of the names, and then for a literal that may not be compared with its attribute,
from left to right.  A predicate *fits* a schema when no atom is at fault (`Predicate.Fits`), and
what is found otherwise is the first fault there is (`Predicate.Misfit`).

Both passes, and the one over the members of a set, go through a list up to the first item that is
refused (`ChecksEach`).  The literals of a predicate are looked at atom by atom, and how the
outcomes for the parts of a predicate are put together is said once, by `Predicate.Checked.append`.

`Clause.bind_strict_exact` collects the outcomes.
-/

set_option autoImplicit false

namespace RuleCoverage

/-! ## Going through a list -/

section each

variable {α : Type} {accepts : α → Except Error Bool} {fault : α → Except Error Unit}
  {check : List α → Except Error Unit} {vs : List α}

/-- The check goes through a list and ends with the fault of the first item that is refused. -/
structure ChecksEach (accepts : α → Except Error Bool) (fault : α → Except Error Unit)
    (check : List α → Except Error Unit) : Prop where
  nil : check [] = .ok ()
  cons : ∀ v rest, check (v :: rest) = do if ← accepts v then check rest else fault v

/-- Either all items are accepted, or there is a first one that is not. -/
theorem ChecksEach.outcome (h : ChecksEach accepts fault check)
    (htotal : ∀ v ∈ vs, ∃ b, accepts v = .ok b) :
    (check vs = .ok () ∧ ∀ v ∈ vs, accepts v = .ok true) ∨
      ∃ good v rest, vs = good ++ v :: rest ∧ (∀ w ∈ good, accepts w = .ok true) ∧
        accepts v = .ok false ∧ check vs = fault v := by
  induction vs with
  | nil => exact .inl ⟨h.nil, fun _ hv ↦ nomatch hv⟩
  | cons v vs ih =>
    rw [List.forall_mem_cons] at htotal
    obtain ⟨⟨accepted, hv⟩, hvs⟩ := htotal
    have hstep := h.cons v vs
    rw [hv, ok_bind] at hstep
    cases accepted with
    | false => exact .inr ⟨[], v, vs, rfl, List.forall_mem_nil _, hv, hstep⟩
    | true =>
      rcases ih hvs with ⟨hcheck, hall⟩ | ⟨good, w, rest, rfl, hgood, hw, hcheck⟩
      · exact .inl ⟨hstep.trans hcheck, List.forall_mem_cons.2 ⟨hv, hall⟩⟩
      · exact .inr ⟨v :: good, w, rest, rfl, List.forall_mem_cons.2 ⟨hv, hgood⟩, hw,
          hstep.trans hcheck⟩

end each

/-! ## The questions to a schema -/

namespace Schema

variable {schema : Schema} {a : String} {k : Kind}

theorem checksEach_check (schema : Schema) : ChecksEach schema.contains
    (fun attr ↦ .error (.unknownAttribute attr schema.name)) schema.check :=
  ⟨rfl, fun _ _ ↦ rfl⟩

theorem find_text (hk : schema.kind? a = some k) : schema.find (.text a) = .ok (a, k) := by
  simp [find, Literal.toMember, Literal.text?, hk, bind, Except.bind, pure, Except.pure]

/-- An attribute of the schema accepts a scalar or refuses it. -/
theorem exists_accepts (hk : schema.kind? a = some k) (s : Scalar) :
    ∃ b, schema.accepts (.text a) (.scalar s) = .ok b := by
  rw [accepts, find_text hk]
  cases k <;> exact ⟨_, rfl⟩

end Schema

/-! ## Fitting a schema -/

namespace Predicate

variable {schema : Schema} {p q atom : Predicate} {a : String} {k : Kind}

/-- The literals that an atom compares its attribute with. -/
def comparands (atom : Predicate) : List Literal := atom.literals?.getD []

/-- All literals may be members of sets. -/
def HasPlainLiterals (p : Predicate) : Prop :=
  ∀ atom ∈ p.atoms, ∀ v ∈ atom.comparands, v.IsScalar

/-- The schema has all attributes that atoms name, and they accept the literals that they are
compared with. -/
def Fits (schema : Schema) (p : Predicate) : Prop :=
  ∀ atom ∈ p.atoms, ∀ a, atom.named? = some a →
    schema.has a = true ∧ ∀ v ∈ atom.comparands, schema.accepts (.text a) v = .ok true

/-- The attribute of the atom, if it names one, accepts the literals that it is compared with. -/
def LiteralsFit (schema : Schema) (atom : Predicate) : Prop :=
  ∀ a, atom.named? = some a → ∀ v ∈ atom.comparands, schema.accepts (.text a) v = .ok true

/-- The error for a literal that is refused.  For the member of a set the kind is not named. -/
def refusal (atom : Predicate) (k : Kind) (a : String) (v : Literal) : Error :=
  match atom with
  | .isIn .. => .memberMisfit atom.text v a
  | _ => .misfit atom.text v k a

/-- The error is about the first literal of the atom that is refused. -/
inductive FirstRefused (schema : Schema) (atom : Predicate) : Error → Prop
  | mk {a : String} {k : Kind} {v : Literal} {good rest : List Literal}
    (named : atom.named? = some a) (kind : schema.kind? a = some k)
    (literals : atom.comparands = good ++ v :: rest)
    (accepted : ∀ w ∈ good, schema.accepts (.text a) w = .ok true)
    (refused : schema.accepts (.text a) v = .ok false) :
    FirstRefused schema atom (atom.refusal k a v)

/-- The error is about the first of the attributes that the schema does not have, or, where it has
all of them, about the first literal that is refused. -/
inductive Misfit (schema : Schema) (p : Predicate) : Error → Prop
  | unknown {a : String} (names : p.Names a) (absent : schema.has a = false)
    (first : ∀ b, p.Names b → schema.has b = false → a ≤ b) :
    Misfit schema p (.unknownAttribute (.text a) schema.name)
  | literal {atom : Predicate} {before after : List Predicate} {e : Error}
    (known : ∀ b, p.Names b → schema.has b = true) (atoms : p.atoms = before ++ atom :: after)
    (fit : ∀ b ∈ before, b.LiteralsFit schema) (refused : atom.FirstRefused schema e) :
    Misfit schema p e

/-! ## Literals -/

/-- The outcome is that of checking the literals of some atoms, one atom after another. -/
def Checked (schema : Schema) (atoms : List Predicate) (outcome : Except Error Unit) : Prop :=
  (outcome = .ok () ∧ ∀ atom ∈ atoms, atom.LiteralsFit schema) ∨
    ∃ e before atom after, outcome = .error e ∧ atoms = before ++ atom :: after ∧
      (∀ b ∈ before, b.LiteralsFit schema) ∧ atom.FirstRefused schema e

/-- Atoms that come later are looked at if the earlier ones fit. -/
theorem Checked.append {as bs : List Predicate} {x y : Except Error Unit}
    (hx : Checked schema as x) (hy : Checked schema bs y) :
    Checked schema (as ++ bs) (x >>= fun _ ↦ y) := by
  rcases hx with ⟨rfl, has⟩ | ⟨e, before, atom, after, rfl, rfl, hbefore, hatom⟩
  · refine hy.imp (fun ⟨hok, hbs⟩ ↦ ⟨hok, List.forall_mem_append.2 ⟨has, hbs⟩⟩) ?_
    rintro ⟨e, before, atom, after, hfail, rfl, hbefore, hatom⟩
    refine ⟨e, as ++ before, atom, after, hfail, (List.append_assoc ..).symm, ?_, hatom⟩
    exact List.forall_mem_append.2 ⟨has, hbefore⟩
  · exact .inr ⟨e, before, atom, after ++ bs, rfl, List.append_assoc .., hbefore, hatom⟩

/-- Where nothing is named there is nothing to check. -/
theorem checked_of_not_named {x : Except Error Unit} (hn : atom.named? = none)
    (hx : x = .ok ()) : Checked schema [atom] x := by
  refine .inl ⟨hx, List.forall_mem_singleton.2 fun a ha ↦ ?_⟩
  cases hn.symm.trans ha

/-- The literals of an atom are checked as `ChecksEach` says of a list of them. -/
theorem checked_of_outcome {x : Except Error Unit} (hn : atom.named? = some a)
    (hk : schema.kind? a = some k)
    (h : (x = .ok () ∧ ∀ v ∈ atom.comparands, schema.accepts (.text a) v = .ok true) ∨
      ∃ good v rest, atom.comparands = good ++ v :: rest ∧
        (∀ w ∈ good, schema.accepts (.text a) w = .ok true) ∧
        schema.accepts (.text a) v = .ok false ∧ x = .error (atom.refusal k a v)) :
    Checked schema [atom] x := by
  rcases h with ⟨hok, hall⟩ | ⟨good, v, rest, hlist, hgood, hv, hfail⟩
  · refine .inl ⟨hok, List.forall_mem_singleton.2 fun c hc ↦ ?_⟩
    cases hn.symm.trans hc
    exact hall
  · exact .inr ⟨_, [], atom, [], hfail, rfl, List.forall_mem_nil _, .mk hn hk hlist hgood hv⟩

theorem checksEach_checkValues (hk : schema.kind? a = some k) (p : Predicate) :
    ChecksEach (schema.accepts (.text a)) (fun v ↦ .error (.misfit p.text v k a))
      (checkValues schema p a) := by
  refine ⟨rfl, fun v rest ↦ ?_⟩
  rw [checkValues, Schema.kind, Schema.find_text hk]
  rfl

theorem checksEach_checkMembers (schema : Schema) (a : String) (p : Predicate) :
    ChecksEach (fun s ↦ schema.accepts (.text a) (.scalar s))
      (fun s ↦ .error (.memberMisfit p.text (.scalar s) a)) (checkMembers schema p a) :=
  ⟨rfl, fun _ _ ↦ rfl⟩

theorem checked_checkValues (hn : atom.named? = some a) (hk : schema.kind? a = some k)
    (hplain : ∀ v ∈ atom.comparands, v.IsScalar)
    (hrefusal : ∀ v, atom.refusal k a v = .misfit atom.text v k a) :
    Checked schema [atom] (checkValues schema atom a atom.comparands) := by
  refine checked_of_outcome hn hk ?_
  simp only [hrefusal]
  refine (checksEach_checkValues hk atom).outcome fun v hv ↦ ?_
  obtain ⟨s, rfl⟩ := hplain v hv
  exact Schema.exists_accepts hk s

theorem checked_checkMembers (vs : Distinct Scalar) (hk : schema.kind? a = some k) :
    Checked schema [isIn (.text a) vs] (checkMembers schema (isIn (.text a) vs) a vs.toList) := by
  refine checked_of_outcome rfl hk ?_
  have hliterals : (isIn (.text a) vs).comparands = vs.toList.map .scalar := rfl
  rw [hliterals, List.forall_mem_map]
  refine ((checksEach_checkMembers schema a _).outcome fun s _ ↦
    Schema.exists_accepts hk s).imp_right ?_
  rintro ⟨good, s, rest, hlist, hgood, hs, hfail⟩
  refine ⟨good.map .scalar, .scalar s, rest.map .scalar, ?_, ?_, hs, hfail⟩
  · rw [hlist, List.map_append, List.map_cons]
  · rwa [List.forall_mem_map]

/-- Nothing is compared with an attribute where none is named. -/
theorem IsAtom.checkLiterals_of_not_named (hatom : atom.IsAtom) (hn : atom.named? = none) :
    atom.checkLiterals schema = .ok () := by
  rw [checkLiterals.eq_def]
  split
  -- predicates with parts
  · exact hatom.elim
  · exact hatom.elim
  · exact hatom.elim
  -- atoms that have literals and name their attribute
  · cases hn
  · cases hn
  · cases hn
  · rfl

/-- The literals of one atom. -/
theorem IsAtom.checked (hatom : atom.IsAtom) (hplain : ∀ v ∈ atom.comparands, v.IsScalar)
    (hknown : ∀ a, atom.named? = some a → schema.has a = true) :
    Checked schema [atom] (atom.checkLiterals schema) := by
  cases hn : atom.named? with
  | none => exact checked_of_not_named hn (hatom.checkLiterals_of_not_named hn)
  | some a =>
    obtain ⟨k, hk⟩ := Option.isSome_iff_exists.1 (hknown a hn)
    have hattr := Row.attr?_of_named? hn
    cases atom with
    | always | never | and | or | not => exact hatom.elim
    | bare | test => cases hattr
    | compare attr op v =>
      cases hattr
      exact checked_checkValues rfl hk hplain fun _ ↦ rfl
    | between attr l h li hi =>
      cases hattr
      exact checked_checkValues rfl hk hplain fun _ ↦ rfl
    | isIn attr vs =>
      cases hattr
      exact checked_checkMembers vs hk
    | isNull attr =>
      refine .inl ⟨rfl, List.forall_mem_singleton.2 fun _ _ ↦ ?_⟩
      exact List.forall_mem_nil _

/-- **The literals of a predicate are those of its atoms**, and they are looked at in order. -/
theorem checked_checkLiterals (hplain : p.HasPlainLiterals)
    (hknown : ∀ atom ∈ p.atoms, ∀ a, atom.named? = some a → schema.has a = true) :
    Checked schema p.atoms (p.checkLiterals schema) := by
  induction p with
  | and p q ihp ihq | or p q ihp ihq =>
    have hplains := List.forall_mem_append.1 hplain
    have hknowns := List.forall_mem_append.1 hknown
    exact .append (ihp hplains.1 hknowns.1) (ihq hplains.2 hknowns.2)
  | not p ih => exact ih hplain hknown
  | always | never => exact checked_of_not_named rfl rfl
  | _ => exact IsAtom.checked trivial (hplain _ List.mem_cons_self) (hknown _ List.mem_cons_self)

/-! ## Attributes -/

/-- The names of a predicate in order, and its attributes are found there. -/
theorem mem_sortedTexts : a ∈ p.attributes.sortedTexts ↔ p.Names a := by
  rw [Distinct.sortedTexts, List.mem_mergeSort, mem_attributes]

/-- Either the schema has all attributes, or the check finds the first one that it does not have. -/
theorem check_attributes (schema : Schema) (p : Predicate) :
    (schema.check (p.attributes.sortedTexts.map .text) = .ok () ∧
      ∀ a, p.Names a → schema.has a = true) ∨
    ∃ a, p.Names a ∧ schema.has a = false ∧ (∀ b, p.Names b → schema.has b = false → a ≤ b) ∧
      schema.check (p.attributes.sortedTexts.map .text) =
        .error (.unknownAttribute (.text a) schema.name) := by
  have hcontains : ∀ a, schema.contains (.text a) = .ok (schema.has a) := fun _ ↦ rfl
  have hsorted : p.attributes.sortedTexts.Pairwise fun a b ↦ textOrder id a b = true :=
    List.pairwise_mergeSort textOrder_trans textOrder_total _
  have htotal : ∀ v ∈ p.attributes.sortedTexts.map .text, ∃ b, schema.contains v = .ok b := by
    rw [List.forall_mem_map]
    exact fun a _ ↦ ⟨_, hcontains a⟩
  rcases schema.checksEach_check.outcome htotal with ⟨hcheck, hall⟩ | ⟨good, v, rest, hlist, hgood,
    hv, hfail⟩
  · refine .inl ⟨hcheck, fun a ha ↦ ?_⟩
    rw [List.forall_mem_map] at hall
    exact Except.ok.inj (hall a (mem_sortedTexts.2 ha))
  · obtain ⟨known, others, hsplit, rfl, hothers⟩ := List.map_eq_append_iff.1 hlist
    obtain ⟨a, later, rfl, rfl, rfl⟩ := List.map_eq_cons_iff.1 hothers
    have hknown : ∀ b ∈ known, schema.has b = true := fun b hb ↦
      Except.ok.inj (hgood _ (List.mem_map_of_mem hb))
    refine .inr ⟨a, ?_, Except.ok.inj hv, fun b hb hno ↦ ?_, hfail⟩
    · rw [← mem_sortedTexts, hsplit]
      exact List.mem_append_right _ List.mem_cons_self
    · rw [← mem_sortedTexts, hsplit, List.mem_append] at hb
      rcases hb with hb | hb
      · rw [hknown b hb] at hno
        cases hno
      rcases List.mem_cons.1 hb with rfl | hb
      · exact String.le_refl b
      · rw [hsplit, List.pairwise_append] at hsorted
        exact textOrder_iff.1 (List.rel_of_pairwise_cons hsorted.2.1 hb)

/-! ## Both passes -/

/-- A predicate that has a fault does not fit. -/
theorem Misfit.not_fits {e : Error} (h : p.Misfit schema e) : ¬ p.Fits schema := by
  intro hfits
  cases h with
  | unknown names absent =>
    obtain ⟨atom, hatom, hn⟩ := names
    cases absent.symm.trans (hfits atom hatom _ hn).1
  | literal _ hatoms _ hrefused =>
    obtain ⟨hn, -, hlist, -, hno⟩ := hrefused
    have hatom := hfits _ (hatoms ▸ List.mem_append_right _ List.mem_cons_self) _ hn
    cases hno.symm.trans (hatom.2 _ (hlist ▸ List.mem_append_right _ List.mem_cons_self))

/-- **A predicate passes the check if it fits, and else its first fault is the error.** -/
theorem checkAgainst_cases (schema : Schema) (hplain : p.HasPlainLiterals) :
    (p.checkAgainst schema = .ok () ∧ p.Fits schema) ∨
      ∃ e, p.checkAgainst schema = .error e ∧ p.Misfit schema e := by
  rw [checkAgainst]
  rcases check_attributes schema p with ⟨hcheck, hknown⟩ | ⟨a, hnames, hno, hfirst, hfail⟩
  · rw [hcheck, ok_bind]
    have hatoms : ∀ atom ∈ p.atoms, ∀ a, atom.named? = some a → schema.has a = true :=
      fun atom hatom a hn ↦ hknown a ⟨atom, hatom, hn⟩
    rcases checked_checkLiterals hplain hatoms with ⟨hok, hfit⟩ | ⟨e, before, atom, after, hfail,
      hsplit, hbefore, hrefused⟩
    · exact .inl ⟨hok, fun atom hatom a hn ↦ ⟨hatoms atom hatom a hn, hfit atom hatom a hn⟩⟩
    · exact .inr ⟨e, hfail, .literal hknown hsplit hbefore hrefused⟩
  · rw [hfail]
    exact .inr ⟨_, rfl, .unknown hnames hno hfirst⟩

end Predicate

/-! ## Binding -/

/-- The causes of failure that lie in a schema or in what is asked of it. -/
def Error.isAboutSchema : Error → Bool
  | .strayCategories _ | .unknownAttribute .. | .unsupportedColumn .. | .misfit ..
  | .memberMisfit .. => true
  | _ => false

theorem Predicate.Misfit.isAboutSchema {schema : Schema} {p : Predicate} {e : Error}
    (h : p.Misfit schema e) : e.isAboutSchema = true := by
  cases h with
  | unknown => rfl
  | @literal atom _ _ _ _ _ _ hrefused =>
    cases hrefused
    cases atom <;> rfl

namespace Clause

/-- **Strict binding accepts just the predicates that fit the schema**, and gives them back as they
are.  For any other one it fails with an error about the schema, which is about the first fault.
Without a schema, or if binding is not strict, every predicate is given back. -/
theorem bind_strict_exact (schema : Schema) (c : Clause) (hplain : c.predicate.HasPlainLiterals) :
    ((Selector.clause c).bind (some schema) true = .ok c.predicate ↔ c.predicate.Fits schema) ∧
    (¬ c.predicate.Fits schema → ∃ e, (Selector.clause c).bind (some schema) true = .error e ∧
      e.isAboutSchema = true ∧ c.predicate.Misfit schema e) ∧
    ∀ (d : Clause) (schema? : Option Schema) (strict : Bool),
      (Selector.clause d).bind schema? false = .ok d.predicate ∧
      (Selector.clause d).bind none strict = .ok d.predicate := by
  have hbind : (Selector.clause c).bind (some schema) true =
      (c.predicate.checkAgainst schema >>= fun _ ↦ .ok c.predicate) := rfl
  refine ⟨?_, fun hno ↦ ?_, fun d schema? strict ↦ ⟨?_, rfl⟩⟩
  · rw [hbind]
    rcases Predicate.checkAgainst_cases schema hplain with ⟨hok, hfits⟩ | ⟨e, hfail, hmisfit⟩
    · rw [hok]
      exact iff_of_true rfl hfits
    · rw [hfail]
      exact iff_of_false (fun h ↦ nomatch h) hmisfit.not_fits
  · rw [hbind]
    rcases Predicate.checkAgainst_cases schema hplain with ⟨-, hfits⟩ | ⟨e, hfail, hmisfit⟩
    · exact absurd hfits hno
    · rw [hfail]
      exact ⟨e, rfl, hmisfit.isAboutSchema, hmisfit⟩
  · cases schema? <;> rfl

/-- Waters have a width and a class, which is a number where there is no word for it. -/
def codedWaters : Schema :=
  ⟨[("width", .numeric), ("class", .categorical)], [("class", .ofList [.int 1, .int 2])],
    Schema.defaultName⟩

/-- What is not wide, or is of one of some classes. -/
def notWideOr (classes : Distinct Scalar) : Clause :=
  ⟨none, .or (.not (.compare (.text "width") .gt (.int 2))) (.isIn (.text "class") classes)⟩

theorem hasPlainLiterals_notWideOr (classes : Distinct Scalar) :
    (notWideOr classes).predicate.HasPlainLiterals := by
  simp [Predicate.HasPlainLiterals, notWideOr, Predicate.atoms, Predicate.comparands,
    Predicate.literals?, Literal.IsScalar]

/-- Any word may be compared with a class, but a number only if it is a category. -/
theorem bind_codedWaters :
    (Selector.clause (notWideOr (.ofList [.int 1, .text "lake"]))).bind (some codedWaters) true =
      .ok (notWideOr (.ofList [.int 1, .text "lake"])).predicate ∧
    ∃ e, (Selector.clause (notWideOr (.ofList [.int 1, .int 3]))).bind (some codedWaters) true =
      .error e ∧ e.isAboutSchema = true := by
  have hfits : (notWideOr (.ofList [.int 1, .text "lake"])).predicate.Fits codedWaters := by
    intro atom hatom a hn
    rcases List.mem_pair.1 hatom with rfl | rfl <;> cases hn
    · exact ⟨rfl, List.forall_mem_singleton.2 rfl⟩
    · exact ⟨rfl, List.forall_mem_cons.2 ⟨rfl, List.forall_mem_singleton.2 rfl⟩⟩
  have hmisfits : ¬ (notWideOr (.ofList [.int 1, .int 3])).predicate.Fits codedWaters := by
    intro hfits
    have hclass := (hfits _ (List.mem_pair.2 (.inr rfl)) "class" rfl).2
    cases hclass (.int 3) (List.mem_pair.2 (.inr rfl))
  refine ⟨?_, ?_⟩
  · exact (bind_strict_exact codedWaters _ (hasPlainLiterals_notWideOr _)).1.2 hfits
  · obtain ⟨e, hfail, habout, -⟩ :=
      (bind_strict_exact codedWaters _ (hasPlainLiterals_notWideOr _)).2.1 hmisfits
    exact ⟨e, hfail, habout⟩

end Clause

end RuleCoverage
