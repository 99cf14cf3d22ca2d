import RuleCoverage.Coverage.Compiled
import RuleCoverage.Proofs.Coverage.Adding

/-!
# The first rule that matches wins

Compiled rules select what the given ones select, and of the rules that select a feature at a scale
the compiled one is a piece of the first (`Rule.compile_firstMatch`).  The coverage that the rules
are added to is an invariant of this: what it has is what the rules before select, and the rest of
the rules has pieces for nothing else.
-/

set_option autoImplicit false

namespace RuleCoverage

namespace Rule

variable {π : Type} {row : Row} {schema? : Option Schema} {x : Double} {r q : Rule π}
  {rules outs : List (Rule π)}

/-! ## What a piece has of its rule -/

/-- What a piece has from its rule. -/
structure Inherited (π : Type) where
  payload : π
  position : Int
  comment : Option String
  source : Rule π

/-- What the pieces of a rule have from it. -/
def inherited (r : Rule π) : Inherited π := ⟨r.payload, r.position, r.comment, r.source⟩

theorem IsPieceOf.inherited_eq (h : q.IsPieceOf r) : q.inherited = r.inherited := by
  rcases h with rfl | ⟨s, rfl⟩
  · rfl
  · rw [inherited, source_derive]
    rfl

/-- Of the pieces of a rule just one selects the row, or none does. -/
theorem filter_pieces {pieces : List (Rule π)} {b : Bool} (hpieces : ∀ q ∈ pieces, q.IsPieceOf r)
    (hcount : pieces.countP (selects row x) = b.toNat) :
    (pieces.filter (selects row x)).map inherited = if b then [r.inherited] else [] := by
  rw [List.countP_eq_length_filter] at hcount
  cases b with
  | false =>
    rw [List.length_eq_zero_iff.1 hcount]
    rfl
  | true =>
    obtain ⟨q, hq⟩ := List.length_eq_one_iff.1 hcount
    have hmem : q ∈ pieces.filter (selects row x) := by
      rw [hq]
      exact List.mem_singleton_self q
    rw [hq, List.map_singleton, (hpieces q (List.mem_filter.1 hmem).1).inherited_eq]
    rfl

/-! ## Compiling -/

/-- Rules that are added to a coverage have pieces for what it has not got, and they are pieces of
the first rule that selects it. -/
theorem filter_compileFrom {c : Coverage} {region : Bool} (hrow : row.Conforms c.schema)
    (hc : Fragment.Tile row c.schema x c.fragments region)
    (hrules : ∀ r ∈ rules, r.selector.JudgedBy row c.schema) (h : compileFrom c rules = .ok outs) :
    (outs.filter (selects row x)).map inherited =
      if region then [] else ((rules.find? (selects row x)).map inherited).toList := by
  induction rules generalizing c region outs with
  | nil =>
    cases h
    cases region <;> rfl
  | cons r rules ih =>
    obtain ⟨⟨pieces, next⟩, hadd, h⟩ := bind_eq_ok.1 h
    obtain ⟨rest, hrest, h⟩ := bind_eq_ok.1 h
    cases h
    obtain ⟨hnext, hcount⟩ := Coverage.addRule_spec hrow hc (hrules r List.mem_cons_self) hadd
    have hpieces := filter_pieces (Coverage.isPieceOf_of_addRule hadd) hcount
    have hschema := Coverage.addRule_schema hadd
    have hothers := fun q hq ↦ hrules q (List.mem_cons_of_mem _ hq)
    rw [← hschema] at hrow hnext hothers
    rw [List.filter_append, List.map_append, hpieces, ih hrow hnext hothers hrest, List.find?_cons]
    cases region with
    | true => simp
    | false => cases selects row x r <;> rfl

/-- The rules in the order in which they are compiled. -/
def arranged (order : Option RuleOrder) (rules : List (Rule π)) : Except Error (List (Rule π)) :=
  match order with
  | some order => arrange order rules
  | none => .ok rules

/-- The rules that select a row at a scale are compiled into a single one, which has what the first
of them has, or into none if there are none. -/
def IsFirstMatch (row : Row) (x : Double) (rules outs : List (Rule π)) : Prop :=
  (outs.filter (selects row x)).map inherited = ((rules.find? (selects row x)).map inherited).toList

theorem mem_of_arrange {order : RuleOrder} {sorted : List (Rule π)}
    (h : arrange order rules = .ok sorted) : ∀ r ∈ sorted, r ∈ rules := by
  cases order with
  | byPosition | byPositionDescending =>
    cases h
    exact fun r ↦ List.mem_mergeSort.1
  | byComment =>
    obtain ⟨_, -, h⟩ := bind_eq_ok.1 h
    cases h
    exact fun r ↦ List.mem_mergeSort.1

/-- Compiling rules in an order is adding the rules in that order to an empty coverage. -/
theorem compile_eq (rules : List (Rule π)) (schema? : Option Schema) (config : Config)
    (order : Option RuleOrder) : compile rules schema? config order =
      arranged order rules >>= compileFrom { schema := schema?, config := config } := by
  cases order <;> rfl

theorem mem_of_arranged {order : Option RuleOrder} {sorted : List (Rule π)}
    (h : arranged order rules = .ok sorted) : ∀ r ∈ sorted, r ∈ rules := by
  cases order with
  | some order => exact mem_of_arrange h
  | none =>
    cases h
    exact fun _ ↦ id

/-- **The first rule that matches wins**, in the order in which the rules are compiled: a compiled
rule selects a row at a scale when a given one does, no two compiled rules do, and the one that does
has what the first of the given ones has.  The order may also be that of any key by which the rules
were sorted before. -/
theorem compile_firstMatch (config : Config) (hrow : row.Conforms schema?)
    (hrules : ∀ r ∈ rules, r.selector.JudgedBy row schema?) :
    (∀ order outs, compile rules schema? config order = .ok outs →
      ∃ sorted, arranged order rules = .ok sorted ∧ IsFirstMatch row x sorted outs) ∧
    ∀ (le : Rule π → Rule π → Bool) outs,
      compile (rules.mergeSort le) schema? config none = .ok outs →
      IsFirstMatch row x (rules.mergeSort le) outs := by
  have hfirst : ∀ sorted outs, (∀ r ∈ sorted, r ∈ rules) →
      compileFrom { schema := schema?, config := config } sorted = .ok outs →
      IsFirstMatch row x sorted outs := fun sorted outs hmem h ↦
    filter_compileFrom (c := { schema := schema?, config := config }) hrow Fragment.tile_nil
      (fun r hr ↦ hrules r (hmem r hr)) h
  refine ⟨?_, ?_⟩
  · intro order outs h
    rw [compile_eq] at h
    obtain ⟨sorted, hsorted, h⟩ := bind_eq_ok.1 h
    exact ⟨sorted, hsorted, hfirst sorted outs (mem_of_arranged hsorted) h⟩
  · intro le outs h
    exact hfirst _ outs (fun r ↦ List.mem_mergeSort.1) h

/-- A rule for everything leaves nothing to the rule for two lanes. -/
theorem compile_everything_first : ∃ outs,
    compile [everything, twoLanes] none .withoutSearch none = .ok outs ∧
      (outs.filter (selects (.ofInt "lanes" 2) .zero)).map (·.payload) = ["base"] := by
  have hsome :
      (compile [everything, twoLanes] none .withoutSearch none).toOption.isSome = true := by
    decide +kernel
  obtain ⟨outs, houts⟩ := Option.isSome_iff_exists.1 hsome
  have houts := eq_ok_of_toOption houts
  have hrules : ∀ r ∈ [everything, twoLanes], r.selector.JudgedBy (.ofInt "lanes" 2) none := by
    rw [List.forall_mem_cons, List.forall_mem_singleton]
    exact ⟨judgedBy_everything, judgedBy_twoLanes (.inl rfl)⟩
  obtain ⟨sorted, hsorted, hfirst⟩ := (compile_firstMatch (x := .zero) .withoutSearch
    (fun _ h ↦ by cases h) hrules).1 none outs houts
  cases hsorted
  refine ⟨outs, houts, ?_⟩
  have hpayloads := congrArg (List.map Inherited.payload) hfirst
  rwa [List.map_map] at hpayloads

/-- A number that is no double on the far scales. -/
def far : Rule String := ⟨.rounded farScales, "far", 1, none, none⟩

/-- Compiling reads a number as a double, so a piece may select a row that no rule selects. -/
theorem compile_rounded : ∃ outs, compile [near, far] none .withoutSearch none = .ok outs ∧
    outs.any (selects (.ofInt "x" (2 ^ 53 + 1)) .one) = true ∧
    [near, far].any (selects (.ofInt "x" (2 ^ 53 + 1)) .one) = false := by
  have hfar : farScales.isEmpty = false := by decide +kernel
  have hnear : nearScales.isEmpty = false := by decide +kernel
  have hapart : (farScales.intersect? nearScales).isNone = true := by decide +kernel
  have hprecedes : nearScales.precedes farScales = true := by decide +kernel
  have hne : (nearScales == farScales) = false := by decide +kernel
  let start : Coverage := { config := .withoutSearch }
  let claimed : Coverage := { start with fragments := [⟨nearScales, .always⟩] }
  obtain ⟨q, hq, hr⟩ := Coverage.exists_toFragments_rounded hfar claimed.fragments
  let piece : Rule String := far.derive (Fragment.toSelector ⟨farScales, q⟩)
  have hfirst : start.addRule near = .ok ([near], claimed) :=
    bind_eq_ok.2 ⟨claimed.fragments, Coverage.toFragments_clause hnear rfl, rfl⟩
  have hleft : Coverage.remainder claimed.simplify [⟨farScales, q⟩] claimed.fragments =
      .ok [⟨farScales, q⟩] :=
    Coverage.remainder_of_apart (Option.isNone_iff_eq_none.1 hapart)
  have hsecond : claimed.addRule far = .ok ([piece],
      { start with fragments := [⟨nearScales, .always⟩, ⟨farScales, q⟩] }) :=
    Coverage.addRule_of_pair rfl hq hleft hprecedes hne
  refine ⟨[near, piece], ?_, ?_, by decide +kernel⟩
  · rw [compile_eq]
    refine bind_eq_ok.2
      ⟨[near, far], rfl, bind_eq_ok.2 ⟨_, hfirst, bind_eq_ok.2 ⟨[piece], ?_, rfl⟩⟩⟩
    exact bind_eq_ok.2 ⟨_, hsecond, rfl⟩
  · have hin : farScales.contains .one = true := by decide +kernel
    have hpiece : piece.selects (.ofInt "x" (2 ^ 53 + 1)) .one = true := by
      show (Fragment.toSelector ⟨farScales, q⟩).selects _ _ = true
      rw [Fragment.selects_toSelector, Fragment.holds, Predicate.isTrueOf_of_holds hr, hin]
      rfl
    rw [List.any_cons, List.any_cons, hpiece]
    simp

end Rule

end RuleCoverage
