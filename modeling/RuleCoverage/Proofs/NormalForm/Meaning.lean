import RuleCoverage.Proofs.NormalForm.Reading

/-!
# What an interpreted atom says

An atom on an attribute of a known kind says something about the attribute's value, and
`Predicate.meaning?` is what that is, in terms of the order of the line and of equality.  On a
numeric attribute literals are read as doubles (`Literal.point?`); an atom that its kind does not
interpret has no meaning.  `Predicate.Means` lists the atoms that have one, and what they say
(`Predicate.means_iff`).

The value set that an atom is given says the same (`Interpretation.values?_rel`), and an atom
without meaning is given none.
-/

set_option autoImplicit false

namespace RuleCoverage

/-! ## Comparing points -/

/-- The relation of points that a comparison asks for. -/
def Comparison.Rel : Comparison → EReal → EReal → Prop
  | .eq, x, y => x = y
  | .ne, x, y => x ≠ y
  | .lt, x, y => x < y
  | .le, x, y => x ≤ y
  | .gt, x, y => y < x
  | .ge, x, y => y ≤ x

/-- A comparison of a value, or of nothing, with a number. -/
def Comparison.Holds (op : Comparison) (v : Option EReal) (y : EReal) : Prop :=
  match v with
  | none => op = .ne
  | some x => op.Rel x y

namespace Comparison

variable {op : Comparison} {v : Option EReal} {y : EReal}

theorem holds_eq : Comparison.eq.Holds v y ↔ v = some y := by
  cases v <;> simp [Holds, Rel]

theorem holds_ne : Comparison.ne.Holds v y ↔ v ≠ some y := by
  cases v <;> simp [Holds, Rel]

/-- Only `!=` holds of nothing. -/
theorem holds_iff (hop : op ≠ .ne) : op.Holds v y ↔ ∃ x, v = some x ∧ op.Rel x y := by
  cases v <;> simp [Holds, hop]

end Comparison

/-- A range that is open to one side holds the points on that side. -/
theorem NumericValues.mem_ofInterval_iff (iv : Interval) (v : Option EReal) :
    (ofInterval iv).Mem v ↔ ∃ x, v = some x ∧
      (iv.low.toEReal < x ∨ iv.lowIncluded = true ∧ iv.low.toEReal = x) ∧
      (x < iv.high.toEReal ∨ iv.highIncluded = true ∧ x = iv.high.toEReal) := by
  rw [mem_ofInterval]
  simp only [Interval.mem_iff]

/-- The numbers that a comparison accepts are those that stand in its relation. -/
theorem Comparison.mem_numericValues (op : Comparison) (y : Double) (v : Option EReal) :
    (op.numericValues y).Mem v ↔ op.Holds v y.toEReal := by
  have hbot : ∀ x : EReal, ⊥ < x ∨ ⊥ = x := fun x ↦ bot_le.lt_or_eq
  have htop : ∀ x : EReal, x < ⊤ ∨ x = ⊤ := fun x ↦ le_top.lt_or_eq
  cases op with
  | eq =>
    rw [numericValues, NumericValues.mem_points]
    cases v <;> simp [Holds, Rel]
  | ne =>
    rw [numericValues, NumericValues.mem_complement, NumericValues.mem_points]
    cases v <;> simp [Holds, Rel]
  | lt | le =>
    rw [numericValues, NumericValues.mem_ofInterval_iff]
    cases v <;> simp [Holds, Rel, hbot, le_iff_lt_or_eq]
  | gt | ge =>
    rw [numericValues, NumericValues.mem_ofInterval_iff]
    cases v <;> simp [Holds, Rel, htop, le_iff_lt_or_eq]

/-! ## Literals -/

/-- The point that a number is read as; none for NaN and for what is no number. -/
def Literal.point? (v : Literal) : Option Double :=
  if v.kind? = some .numeric then
    match v.toDouble with
    | .ok (.number x) => some x
    | _ => none
  else none

theorem Literal.point?_eq {v : Literal} {x? : Option Double} (h : v.numeric? = .ok x?) :
    v.point? = x? := by
  rw [numeric?] at h
  rw [point?]
  by_cases hk : v.kind? = some .numeric
  · rw [if_pos (by simp [hk])] at h
    rw [if_pos hk]
    obtain ⟨reading, hr, h⟩ := bind_eq_ok.1 h
    rw [hr]
    cases reading <;> exact Except.ok.inj h
  · rw [if_neg (by simpa using hk)] at h
    rw [if_neg hk]
    exact Except.ok.inj h

/-- The points of a list of numbers; none as soon as one of them is not a number. -/
theorem numerics?_eq {vs : List Scalar} {xs? : Option (List Double)} (h : numerics? vs = .ok xs?) :
    xs? = vs.mapM fun s ↦ (Literal.scalar s).point? := by
  induction vs generalizing xs? with
  | nil =>
    cases h
    rfl
  | cons s vs ih =>
    obtain ⟨x?, hx, h⟩ := bind_eq_ok.1 h
    rw [List.mapM_cons, Literal.point?_eq hx]
    cases x? with
    | none =>
      cases h
      rfl
    | some x =>
      obtain ⟨ys?, hys, h⟩ := bind_eq_ok.1 h
      cases h
      rw [← ih hys]
      cases ys? <;> rfl

namespace Literal

variable {ss : List Scalar} {ys : List Double}

/-- The points of a list of scalars. -/
theorem mem_points_iff (h : ss.mapM (fun s ↦ (scalar s).point?) = some ys) (y : Double) :
    y ∈ ys ↔ ∃ s ∈ ss, (scalar s).point? = some y := by
  rw [← List.mem_map_of_injective (Option.some_injective _), ← mapM_eq_some.1 h, List.mem_map]

theorem exists_mem_of_points (h : ss.mapM (fun s ↦ (scalar s).point?) = some ys) :
    ∀ s ∈ ss, ∃ y ∈ ys, (scalar s).point? = some y := by
  intro s hs
  have hpoint := List.mem_map_of_mem (f := fun s ↦ (scalar s).point?) hs
  rw [mapM_eq_some.1 h] at hpoint
  obtain ⟨y, hy, hs⟩ := List.mem_map.1 hpoint
  exact ⟨y, hy, hs.symm⟩

end Literal

namespace Predicate

/-- What an atom says about the value of a numeric attribute. -/
def numericMeaning? : Predicate → Option (Option EReal → Prop)
  | .compare _ op v => v.point?.map fun y x? ↦ op.Holds x? y.toEReal
  | .isIn _ vs =>
    (vs.toList.mapM fun s ↦ (Literal.scalar s).point?).map fun ys x? ↦
      ∃ y ∈ ys, x? = some y.toEReal
  | .between _ l h li hi =>
    match l.point?, h.point? with
    | some l, some h => some fun x? ↦ ∃ x, x? = some x ∧
        (l.toEReal < x ∨ li = true ∧ l.toEReal = x) ∧ (x < h.toEReal ∨ hi = true ∧ x = h.toEReal)
    | _, _ => none
  | _ => none

/-- What an atom says about the key of an attribute of another kind. -/
def discreteMeaning? (k : Kind) : Predicate → Option (Option Scalar.Key → Prop)
  | .compare _ op (.scalar s) =>
    if k.fits s then
      match op with
      | .eq => some (· = some s.key)
      | .ne => some (· ≠ some s.key)
      | _ => none
    else none
  | .isIn _ vs =>
    if vs.toList.all k.fits then some fun key? ↦ ∃ s ∈ vs.toList, key? = some s.key else none
  | _ => none

/-- What an atom says about the value of its attribute, if the kind of the attribute interprets
it. -/
def meaning? (k : Kind) : Predicate → Option (Option Value → Prop)
  | .isNull _ => some (· = none)
  | atom =>
    match k with
    | .numeric => atom.numericMeaning?.map fun m v ↦ m (v.map Value.toEReal)
    | k => (atom.discreteMeaning? k).map fun m v ↦ m (v.bind Value.key?)

variable {atom : Predicate}

theorem meaning?_numeric (hnull : ∀ b, atom ≠ .isNull b) :
    atom.meaning? .numeric = atom.numericMeaning?.map fun m v ↦ m (v.map Value.toEReal) := by
  cases atom with
  | isNull b => exact absurd rfl (hnull b)
  | _ => rfl

theorem meaning?_discrete {k : Kind} (hnull : ∀ b, atom ≠ .isNull b) (hk : k ≠ .numeric) :
    atom.meaning? k = (atom.discreteMeaning? k).map fun m v ↦ m (v.bind Value.key?) := by
  cases atom with
  | isNull b => exact absurd rfl (hnull b)
  | _ =>
    cases k with
    | numeric => exact absurd rfl hk
    | _ => rfl

/-- The atoms that say something about a number, each with what it says. -/
inductive MeansOfNumber : Predicate → (Option EReal → Prop) → Prop
  | compare {a v : Literal} {op : Comparison} {y : Double} (hv : v.point? = some y) :
      MeansOfNumber (.compare a op v) fun x? ↦ op.Holds x? y.toEReal
  | isIn {a : Literal} {vs : Distinct Scalar} {ys : List Double}
      (hvs : (vs.toList.mapM fun s ↦ (Literal.scalar s).point?) = some ys) :
      MeansOfNumber (.isIn a vs) fun x? ↦ ∃ y ∈ ys, x? = some y.toEReal
  | between {a l u : Literal} {li ui : Bool} {y z : Double} (hl : l.point? = some y)
      (hu : u.point? = some z) :
      MeansOfNumber (.between a l u li ui) fun x? ↦ ∃ x, x? = some x ∧
        (y.toEReal < x ∨ li = true ∧ y.toEReal = x) ∧ (x < z.toEReal ∨ ui = true ∧ x = z.toEReal)

theorem meansOfNumber_iff {m : Option EReal → Prop} :
    atom.MeansOfNumber m ↔ atom.numericMeaning? = some m := by
  constructor
  · intro h
    cases h with
    | compare hv => rw [numericMeaning?, hv, Option.map_some]
    | isIn hvs => rw [numericMeaning?, hvs, Option.map_some]
    | between hl hu => rw [numericMeaning?, hl, hu]
  · intro h
    cases atom with
    | compare a op v =>
      obtain ⟨y, hv, rfl⟩ := Option.map_eq_some_iff.1 h
      exact .compare hv
    | isIn a vs =>
      obtain ⟨ys, hvs, rfl⟩ := Option.map_eq_some_iff.1 h
      exact .isIn hvs
    | between a l u li ui =>
      rw [numericMeaning?] at h
      split at h
      · rename_i y z hl hu
        cases h
        exact .between hl hu
      · cases h
    | _ => cases h

/-- The atoms that say something about the key of a value, each with what it says. -/
inductive MeansOfKey (k : Kind) : Predicate → (Option Scalar.Key → Prop) → Prop
  | eq {a : Literal} {s : Scalar} (hs : k.fits s = true) :
      MeansOfKey k (.compare a .eq (.scalar s)) (· = some s.key)
  | ne {a : Literal} {s : Scalar} (hs : k.fits s = true) :
      MeansOfKey k (.compare a .ne (.scalar s)) (· ≠ some s.key)
  | isIn {a : Literal} {vs : Distinct Scalar} (hvs : ∀ s ∈ vs.toList, k.fits s = true) :
      MeansOfKey k (.isIn a vs) fun key? ↦ ∃ s ∈ vs.toList, key? = some s.key

theorem meansOfKey_iff {k : Kind} {m : Option Scalar.Key → Prop} :
    atom.MeansOfKey k m ↔ atom.discreteMeaning? k = some m := by
  constructor
  · intro h
    cases h with
    | eq hs | ne hs => rw [discreteMeaning?, if_pos hs]
    | isIn hvs => rw [discreteMeaning?, if_pos (List.all_eq_true.2 hvs)]
  · intro h
    cases atom with
    | compare a op v =>
      cases v with
      | list | dict => cases h
      | scalar s =>
        rw [discreteMeaning?.eq_def] at h
        dsimp only at h
        split at h
        · rename_i hs
          cases op with
          | eq =>
            cases h
            exact .eq hs
          | ne =>
            cases h
            exact .ne hs
          | _ => cases h
        · cases h
    | isIn a vs =>
      rw [discreteMeaning?] at h
      split at h
      · rename_i hvs
        cases h
        exact .isIn (List.all_eq_true.1 hvs)
      · cases h
    | _ => cases h

/-- What an atom says about the value of an attribute of some kind: whether there is one, or
something about the number that it is, or about its key. -/
inductive Means (k : Kind) : Predicate → (Option Value → Prop) → Prop
  | isNull (a : Literal) : Means k (.isNull a) (· = none)
  | number {atom : Predicate} {n : Option EReal → Prop} (hk : k = .numeric)
      (h : atom.MeansOfNumber n) : Means k atom fun v ↦ n (v.map Value.toEReal)
  | key {atom : Predicate} {n : Option Scalar.Key → Prop} (hk : k ≠ .numeric)
      (h : atom.MeansOfKey k n) : Means k atom fun v ↦ n (v.bind Value.key?)

theorem means_iff {k : Kind} {m : Option Value → Prop} :
    atom.Means k m ↔ atom.meaning? k = some m := by
  constructor
  · intro h
    cases h with
    | isNull a => rfl
    | number hk h =>
      have hnull : ∀ a, atom ≠ .isNull a := by
        rintro a rfl
        cases h
      rw [hk, meaning?_numeric hnull, meansOfNumber_iff.1 h, Option.map_some]
    | key hk h =>
      have hnull : ∀ a, atom ≠ .isNull a := by
        rintro a rfl
        cases h
      rw [meaning?_discrete hnull hk, meansOfKey_iff.1 h, Option.map_some]
  · intro h
    by_cases hnull : ∃ a, atom = .isNull a
    · obtain ⟨a, rfl⟩ := hnull
      cases h
      exact .isNull a
    rw [not_exists] at hnull
    by_cases hk : k = .numeric
    · rw [hk, meaning?_numeric hnull] at h
      obtain ⟨n, hn, rfl⟩ := Option.map_eq_some_iff.1 h
      exact .number hk (meansOfNumber_iff.2 hn)
    · rw [meaning?_discrete hnull hk] at h
      obtain ⟨n, hn, rfl⟩ := Option.map_eq_some_iff.1 h
      exact .key hk (meansOfKey_iff.2 hn)

/-- The numbers that make an atom true are those of which it says so. -/
theorem numericMeaning?_eq {vs? : Option NumericValues} (h : atom.numericValues? = .ok vs?) :
    Option.Rel (fun vs m ↦ ∀ x?, vs.Mem x? ↔ m x?) vs? atom.numericMeaning? := by
  cases atom with
  | compare a op v =>
    obtain ⟨y?, hy, h⟩ := bind_eq_ok.1 h
    cases h
    rw [numericMeaning?, Literal.point?_eq hy]
    cases y? with
    | none => exact .none
    | some y => exact .some (op.mem_numericValues y)
  | isIn a vs =>
    obtain ⟨ys?, hys, h⟩ := bind_eq_ok.1 h
    cases h
    rw [numericMeaning?, ← numerics?_eq hys]
    cases ys? with
    | none => exact .none
    | some ys => exact .some (NumericValues.mem_points ys)
  | between a l u li ui =>
    rw [numericMeaning?]
    obtain ⟨l?, hl, h⟩ := bind_eq_ok.1 h
    rw [Literal.point?_eq hl]
    cases l? with
    | none =>
      cases h
      exact .none
    | some l =>
      obtain ⟨u?, hu, h⟩ := bind_eq_ok.1 h
      rw [Literal.point?_eq hu]
      cases u? with
      | none =>
        cases h
        exact .none
      | some u =>
        simp only at h ⊢
        split at h
        · rename_i hle
          cases h
          exact .some (NumericValues.mem_ofInterval_iff _)
        · rename_i hlt
          cases h
          refine .some fun x? ↦ iff_of_false (NumericValues.not_mem_nothing _) ?_
          -- the bounds are in the wrong order
          rintro ⟨x, -, hlow, hhigh⟩
          have hul : u.toEReal < l.toEReal := Double.toEReal_lt_toEReal.2 (Int.not_le.1 hlt)
          have hlx : l.toEReal ≤ x := hlow.elim le_of_lt fun h ↦ h.2.le
          have hxu : x ≤ u.toEReal := hhigh.elim le_of_lt fun h ↦ h.2.le
          exact absurd hul (hlx.trans hxu).not_gt
  | _ =>
    cases h
    exact .none

/-- The discrete values that make an atom true are those of which it says so. -/
theorem discreteMeaning?_eq (k : Kind) (atom : Predicate) :
    Option.Rel (fun vs m ↦ ∀ v : Option Value, vs.Mem (v.map Value.key?) ↔ m (v.bind Value.key?))
      (atom.discreteValues? k) (atom.discreteMeaning? k) := by
  have honly : ∀ (values : Distinct Scalar) (v : Option Value),
      (DiscreteValues.only values).Mem (v.map Value.key?) ↔ values.HasKey (v.bind Value.key?) := by
    intro values v
    rw [DiscreteValues.mem_iff_of_not_cofinite rfl]
    simp [DiscreteValues.only]
  have hsingle : ∀ (s : Scalar) (v : Option Value),
      (DiscreteValues.only (.singleton s.plain)).Mem (v.map Value.key?) ↔
        v.bind Value.key? = some s.key := by
    intro s v
    rw [honly, Distinct.hasKey_singleton, Scalar.key_plain]
  cases atom with
  | compare a op w =>
    cases w with
    | scalar s =>
      rw [discreteValues?.eq_def, discreteMeaning?.eq_def]
      dsimp only
      by_cases hfits : k.fits s = true
      · rw [if_pos hfits, if_pos hfits]
        cases op with
        | eq => exact .some (hsingle s)
        | ne =>
          refine .some ?_
          intro v
          rw [DiscreteValues.mem_complement, hsingle]
        | _ => exact .none
      · rw [if_neg hfits, if_neg hfits]
        exact .none
    | _ => exact .none
  | isIn a vs =>
    rw [discreteValues?, discreteMeaning?]
    split
    · refine .some ?_
      intro v
      rw [honly, Distinct.hasKey_ofList]
      simp only [List.mem_map, exists_exists_and_eq_and, Scalar.key_plain]
      exact exists_congr fun s ↦ and_congr_right fun _ ↦ eq_comm
    · exact .none
  | _ => exact .none

section discrete

variable {k : Kind} {a : Literal} (hk : k ≠ .numeric)

include hk

theorem meaning?_eq {s : Scalar} (h : k.fits s = true) :
    (compare a .eq (.scalar s)).meaning? k = some fun v ↦ v.bind Value.key? = some s.key :=
  means_iff.1 (.key hk (.eq h))

theorem meaning?_ne {s : Scalar} (h : k.fits s = true) :
    (compare a .ne (.scalar s)).meaning? k = some fun v ↦ v.bind Value.key? ≠ some s.key :=
  means_iff.1 (.key hk (.ne h))

theorem meaning?_isIn {vs : Distinct Scalar} (h : ∀ s ∈ vs.toList, k.fits s = true) :
    (isIn a vs).meaning? k = some fun v ↦ ∃ s ∈ vs.toList, v.bind Value.key? = some s.key :=
  means_iff.1 (.key hk (.isIn h))

end discrete

end Predicate

namespace Interpretation

variable {ctx : Interpretation} {atom : Predicate} {a : String} {k : Kind}

/-- **The value set of an atom holds the values of which the atom says so**, and an atom without a
value set has no meaning. -/
theorem values?_rel {vs? : Option ValueSet} (hn : atom.named? = some a) (hk : ctx.kind? a = some k)
    (h : ctx.values? atom = .ok vs?) :
    Option.Rel (fun vs m ↦ ∀ v, vs.Mem v ↔ m v) vs? (atom.meaning? k) := by
  rcases values?_cases hn hk h with ⟨rfl, rfl⟩ | ⟨hnull, rfl, ns?, hns, rfl⟩ | ⟨hnull, hk', rfl⟩
  · refine Option.Rel.some fun v ↦ ?_
    split
    · rw [ValueSet.Mem, NumericValues.mem_onlyNull, Option.map_eq_none_iff]
    · rw [ValueSet.Mem, DiscreteValues.mem_onlyNull, Option.map_eq_none_iff]
  · rw [Predicate.meaning?_numeric hnull]
    exact rel_map (Predicate.numericMeaning?_eq hns) fun hrel v ↦ hrel _
  · rw [Predicate.meaning?_discrete hnull hk']
    exact rel_map (Predicate.discreteMeaning?_eq k atom) fun hrel ↦ hrel

/-- An atom that has a value set says that the value is in it. -/
theorem exists_meaning?_of_values {vs : ValueSet} (hn : atom.named? = some a)
    (h : ctx.values? atom = .ok (some vs)) :
    ∃ k m, ctx.kind? a = some k ∧ atom.meaning? k = some m ∧ ∀ v, vs.Mem v ↔ m v := by
  obtain ⟨k, hk⟩ := exists_kind?_of_values hn h
  have hrel := values?_rel hn hk h
  generalize hm : atom.meaning? k = m? at hrel
  cases hrel with
  | some hrel => exact ⟨k, _, hk, hm, hrel⟩

/-- An atom that has no value set says nothing about the kind of its attribute. -/
theorem meaning?_eq_none (hn : atom.named? = some a) (hk : ctx.kind? a = some k)
    (h : ctx.values? atom = .ok none) : atom.meaning? k = none := by
  have hrel := values?_rel hn hk h
  generalize atom.meaning? k = m? at hrel
  cases hrel
  rfl

end Interpretation

end RuleCoverage
