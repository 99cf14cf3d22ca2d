import RuleCoverage.Proofs.NormalForm.Meaning
import RuleCoverage.Proofs.Number.Nearest
import RuleCoverage.Proofs.Values.Extensionality

/-!
# Equal atoms say the same where both say something

Equality of predicates does not look at the type of a number, but kinds do: an attribute that is
compared with a boolean may be left alone where the same comparison with an equal number is
interpreted.  Where both of two equal atoms are interpreted, they are given the same values
(`Interpretation.values_beq_of_tag`): equal numbers are read as one double.
-/

set_option autoImplicit false

namespace RuleCoverage

/-! ## Points -/

namespace Literal

/-- What is read as a point is a whole number or a double. -/
theorem point?_cases {v : Literal} {x : Double} (h : v.point? = some x) :
    ∃ s, v = .scalar s ∧ (s = .double x ∨ ∃ n, s = .int n ∧ Double.ofInt? n = some x) := by
  rw [point?] at h
  split at h
  · rename_i hk
    cases v with
    | list | dict => cases hk
    | scalar s =>
      refine ⟨s, rfl, ?_⟩
      cases s with
      | null | bool | flag | text => cases hk
      | nan => cases h
      | double y => exact .inl (congrArg Scalar.double (Option.some.inj h))
      | int n =>
        refine .inr ⟨n, rfl, ?_⟩
        cases hn : Double.ofInt? n with
        | none => simp [toDouble, Scalar.toDouble, doubleOfInt, hn] at h
        | some y => simpa [toDouble, Scalar.toDouble, doubleOfInt, hn] using h
  · cases h

/-- Equal numbers are read as one point. -/
theorem point?_congr {v w : Literal} {x y : Double} (htag : v.tag = w.tag)
    (hv : v.point? = some x) (hw : w.point? = some y) : x.toEReal = y.toEReal := by
  obtain ⟨s, rfl, hs⟩ := point?_cases hv
  obtain ⟨t, rfl, ht⟩ := point?_cases hw
  have hkey : s.key = t.key := by simpa [tag] using htag
  have hmixed : ∀ {n : Int} {x y : Double}, Double.ofInt? n = some x → y.value = .finite n →
      x.toEReal = y.toEReal := by
    intro n x y hx hy
    obtain ⟨z, hz, hzy⟩ := Double.ofInt?_of_value hy
    cases hx.symm.trans hz
    exact Double.toEReal_inj.2 hzy
  rcases hs with rfl | ⟨n, rfl, hn⟩ <;> rcases ht with rfl | ⟨n', rfl, hn'⟩
  · exact congrArg Extended.toEReal (Scalar.Key.number.inj hkey)
  · exact (hmixed hn' (Scalar.Key.number.inj hkey)).symm
  · exact hmixed hn (Scalar.Key.number.inj hkey).symm
  · have hnn : n = n' := by simpa [Scalar.key] using hkey
    subst hnn
    cases hn.symm.trans hn'
    rfl

/-- A number that equals one that is read as a point is read as one too. -/
theorem exists_point? {v w : Literal} {y : Double} (hkind : v.kind? = some .numeric)
    (htag : v.tag = w.tag) (hw : w.point? = some y) : ∃ x, v.point? = some x := by
  obtain ⟨t, rfl, ht⟩ := point?_cases hw
  have hint : ∀ {n : Int} {x : Double}, Double.ofInt? n = some x →
      (scalar (.int n)).point? = some x := by
    intro n x hn
    simp [point?, kind?, Scalar.kind?, toDouble, Scalar.toDouble, doubleOfInt, hn]
  cases v with
  | list | dict => cases hkind
  | scalar s =>
    have hkey : s.key = t.key := by simpa [tag] using htag
    cases s with
    | null | bool | flag | text => cases hkind
    | double x => exact ⟨x, rfl⟩
    | nan => rcases ht with rfl | ⟨n, rfl, -⟩ <;> cases hkey
    | int n =>
      rcases ht with rfl | ⟨m, rfl, hm⟩
      · obtain ⟨x, hx, -⟩ := Double.ofInt?_of_value (Scalar.Key.number.inj hkey).symm
        exact ⟨x, hint hx⟩
      · have hnm : n = m := by simpa [Scalar.key] using hkey
        exact ⟨y, hint (hnm ▸ hm)⟩

/-- A text equals nothing but itself. -/
theorem eq_text_of_tag {v : Literal} {a : String} (h : v.tag = (text a).tag) : v = .text a := by
  cases v with
  | dict => cases h
  | scalar s =>
    have hkey : s.key = .text a := by simpa [tag, Scalar.key] using h
    cases s <;> cases hkey
    rfl
  | list items =>
    exfalso
    change Tag.ofList (tagList items) = .key (.text a) at h
    rw [Tag.ofList.eq_def] at h
    split at h
    · split at h <;> cases h
    · cases h

theorem exists_points {ss : List Scalar} (h : ∀ s ∈ ss, ∃ x, (scalar s).point? = some x) :
    ∃ xs, ss.mapM (fun s ↦ (scalar s).point?) = some xs := by
  induction ss with
  | nil => exact ⟨[], rfl⟩
  | cons s ss ih =>
    rw [List.forall_mem_cons] at h
    obtain ⟨x, hx⟩ := h.1
    obtain ⟨xs, hxs⟩ := ih h.2
    exact ⟨x :: xs, by rw [List.mapM_cons, hx, hxs]; rfl⟩

/-- Lists of equal numbers are read as the same points. -/
theorem points_subset {ss ts : List Scalar} {xs ys : List Double}
    (hss : ss.mapM (fun s ↦ (Literal.scalar s).point?) = some xs)
    (hts : ts.mapM (fun s ↦ (Literal.scalar s).point?) = some ys)
    (h : ∀ s ∈ ss, ∃ t ∈ ts, t.key = s.key) {z : EReal} (hz : ∃ x ∈ xs, x.toEReal = z) :
    ∃ y ∈ ys, y.toEReal = z := by
  obtain ⟨x, hx, rfl⟩ := hz
  obtain ⟨s, hs, hsx⟩ := (mem_points_iff hss x).1 hx
  obtain ⟨t, ht, hkey⟩ := h s hs
  obtain ⟨y, hy, hty⟩ := exists_mem_of_points hts t ht
  exact ⟨y, hy, point?_congr (by rw [tag, tag, hkey]) hty hsx⟩

end Literal

/-! ## Meanings -/

namespace Predicate

variable {p q : Predicate} {a : String}

/-- Atoms of one class have members with the same keys. -/
theorem exists_key_of_tag {b c : Literal} {vs ws : Distinct Scalar}
    (htag : (isIn b vs).tag = (isIn c ws).tag) :
    ∀ s ∈ vs.toList, ∃ t ∈ ws.toList, t.key = s.key :=
  fun s hs ↦ (iff_of_eq (congrFun (Tag.isIn.inj htag).2 s.key)).1 ⟨s, hs, rfl⟩

theorem MeansOfNumber.congr {m m' : Option EReal → Prop} (hp : p.MeansOfNumber m)
    (hq : q.MeansOfNumber m') (htag : p.tag = q.tag) (x? : Option EReal) : m x? ↔ m' x? := by
  cases hp with
  | compare hv =>
    cases hq with
    | compare hw =>
      obtain ⟨-, rfl, hvw⟩ := Tag.compare.inj htag
      rw [Literal.point?_congr hvw hv hw]
    | isIn | between => cases htag
  | isIn hvs =>
    cases hq with
    | isIn hws =>
      cases x? with
      | none => simp
      | some z =>
        simp only [Option.some.injEq, eq_comm (a := z)]
        exact ⟨Literal.points_subset hvs hws (exists_key_of_tag htag),
          Literal.points_subset hws hvs (exists_key_of_tag htag.symm)⟩
    | compare | between => cases htag
  | between hl hu =>
    cases hq with
    | between hl' hu' =>
      obtain ⟨-, hll, huu, rfl, rfl⟩ := Tag.between.inj htag
      rw [Literal.point?_congr hll hl hl', Literal.point?_congr huu hu hu']
    | compare | isIn => cases htag

theorem MeansOfKey.congr {k : Kind} {m m' : Option Scalar.Key → Prop} (hp : p.MeansOfKey k m)
    (hq : q.MeansOfKey k m') (htag : p.tag = q.tag) (key? : Option Scalar.Key) :
    m key? ↔ m' key? := by
  have hkey : ∀ {b c : Literal} {op op' : Comparison} {s t : Scalar},
      (compare b op (.scalar s)).tag = (compare c op' (.scalar t)).tag → s.key = t.key := by
    intro b c op op' s t h
    simpa [Literal.tag] using (Tag.compare.inj h).2.2
  cases hp with
  | eq =>
    cases hq with
    | eq => rw [hkey htag]
    | ne => cases (Tag.compare.inj htag).2.1
    | isIn => cases htag
  | ne =>
    cases hq with
    | ne => rw [hkey htag]
    | eq => cases (Tag.compare.inj htag).2.1
    | isIn => cases htag
  | isIn =>
    cases hq with
    | isIn =>
      cases key? with
      | none => simp
      | some key =>
        simp only [Option.some.injEq, eq_comm (a := key)]
        exact iff_of_eq (congrFun (Tag.isIn.inj htag).2 key)
    | eq | ne => cases htag

/-- **Atoms of one class say the same**, if both say something. -/
theorem Means.congr {k : Kind} {m m' : Option Value → Prop} (hp : p.Means k m)
    (hq : q.Means k m') (htag : p.tag = q.tag) (v : Option Value) : m v ↔ m' v := by
  cases hp with
  | isNull b =>
    cases hq with
    | isNull c => exact Iff.rfl
    | number _ hq => cases hq <;> cases htag
    | key _ hq => cases hq <;> cases htag
  | number hk hp =>
    cases hq with
    | isNull c => cases hp <;> cases htag
    | number _ hq => exact hp.congr hq htag _
    | key hk' _ => exact absurd hk hk'
  | key hk hp =>
    cases hq with
    | isNull c => cases hp <;> cases htag
    | number hk' _ => exact absurd hk' hk
    | key _ hq => exact hp.congr hq htag _

theorem exists_meaning?_isIn {b : Literal} {vs : Distinct Scalar}
    (h : ∀ s ∈ vs.toList, ∃ x, (Literal.scalar s).point? = some x) :
    ∃ m, (isIn b vs).meaning? .numeric = some m := by
  obtain ⟨xs, hxs⟩ := Literal.exists_points h
  exact ⟨_, means_iff.1 (.number rfl (.isIn hxs))⟩

/-- Where one atom of a class says something about numbers, so do those that compare with numbers.
-/
theorem MeansOfNumber.exists_of_tag {m : Option EReal → Prop} (hq : q.MeansOfNumber m)
    (htag : p.tag = q.tag)
    (hkind : ∀ vs, p.literals? = some vs → ∀ v ∈ vs, v.kind? = some .numeric) :
    ∃ m, p.MeansOfNumber m := by
  cases hq with
  | compare hw =>
    cases p <;> try cases htag
    case compare b op v =>
      obtain ⟨x, hx⟩ := Literal.exists_point? (hkind [v] rfl v (List.mem_singleton_self v))
        (Tag.compare.inj htag).2.2 hw
      exact ⟨_, .compare hx⟩
  | isIn hws =>
    cases p <;> try cases htag
    case isIn b vs =>
      have hpoint : ∀ s ∈ vs.toList, ∃ x, (Literal.scalar s).point? = some x := by
        intro s hs
        obtain ⟨t, ht, hkey⟩ := exists_key_of_tag htag s hs
        obtain ⟨y, -, hy⟩ := Literal.exists_mem_of_points hws t ht
        exact Literal.exists_point? (hkind _ rfl _ (List.mem_map_of_mem hs))
          (by rw [Literal.tag, Literal.tag, hkey]) hy
      obtain ⟨xs, hxs⟩ := Literal.exists_points hpoint
      exact ⟨_, .isIn hxs⟩
  | between hl hu =>
    cases p <;> try cases htag
    case between b l u li ui =>
      obtain ⟨-, hll, huu, -, -⟩ := Tag.between.inj htag
      obtain ⟨x, hx⟩ := Literal.exists_point? (hkind [l, u] rfl l (by simp)) hll hl
      obtain ⟨y, hy⟩ := Literal.exists_point? (hkind [l, u] rfl u (by simp)) huu hu
      exact ⟨_, .between hx hy⟩

/-- Where one atom of a class says something about categories, booleans or texts, so do those that
compare with literals of this kind. -/
theorem MeansOfKey.exists_of_tag {k : Kind} {m : Option Scalar.Key → Prop}
    (hq : q.MeansOfKey k m) (htag : p.tag = q.tag)
    (hkind : ∀ vs, p.literals? = some vs → ∀ v ∈ vs, v.kind? = some k) :
    ∃ m, p.MeansOfKey k m := by
  have hfits : ∀ {s : Scalar}, s.kind? = some k → k.fits s = true := by
    intro s hs
    cases k <;> simp [Kind.fits, hs]
  cases hq with
  | eq | ne =>
    cases p <;> try cases htag
    case compare b op v =>
      obtain ⟨-, rfl, hvw⟩ := Tag.compare.inj htag
      have hv := hkind [v] rfl v (List.mem_singleton_self v)
      cases v with
      | list | dict => cases hv
      | scalar s => first | exact ⟨_, .eq (hfits hv)⟩ | exact ⟨_, .ne (hfits hv)⟩
  | isIn =>
    cases p <;> try cases htag
    case isIn b vs =>
      exact ⟨_, .isIn fun s hs ↦ hfits (hkind _ rfl _ (List.mem_map_of_mem hs))⟩

/-- Where one atom of a class says something about the values of a kind, so do those that compare
with literals of this kind. -/
theorem exists_meaning?_of_tag {k : Kind} (htag : p.tag = q.tag) (hq : ∃ m, q.meaning? k = some m)
    (hkind : ∀ vs, p.literals? = some vs → ∀ v ∈ vs, v.kind? = some k) :
    ∃ m, p.meaning? k = some m := by
  obtain ⟨m, hm⟩ := hq
  cases means_iff.2 hm with
  | isNull c =>
    cases p <;> try cases htag
    exact ⟨_, rfl⟩
  | number hk h =>
    subst hk
    obtain ⟨n, hn⟩ := h.exists_of_tag htag hkind
    exact ⟨_, means_iff.1 (.number rfl hn)⟩
  | key hk h =>
    obtain ⟨n, hn⟩ := h.exists_of_tag htag hkind
    exact ⟨_, means_iff.1 (.key hk hn)⟩

/-- An atom of the class of one on some attribute is on it as well. -/
theorem named?_of_tag (htag : p.tag = q.tag) (hq : q.named? = some a) : p.named? = some a := by
  have hattr : ∀ {x y : Literal}, x.tag = y.tag → y.text? = some a → x.text? = some a := by
    intro x y hxy hy
    obtain rfl : y = .text a := Interpretation.eq_text_of_named? hy
    rw [Literal.eq_text_of_tag hxy]
    rfl
  cases p <;> cases q <;> try first | cases hq | cases htag
  case compare.compare => exact hattr (Tag.compare.inj htag).1 hq
  case isIn.isIn => exact hattr (Tag.isIn.inj htag).1 hq
  case between.between => exact hattr (Tag.between.inj htag).1 hq
  case isNull.isNull => exact hattr (Tag.isNull.inj htag) hq

/-- Atoms of one class are on one attribute. -/
theorem named?_congr {b : String} (htag : p.tag = q.tag) (hp : p.named? = some a)
    (hq : q.named? = some b) : a = b :=
  Option.some.inj (hp.symm.trans (named?_of_tag htag hq))

/-- An atom of the class of one that compares with something does so as well. -/
theorem compares_of_tag (htag : p.tag = q.tag) (hq : ∃ vs, q.literals? = some vs ∧ vs ≠ []) :
    ∃ vs, p.literals? = some vs ∧ vs ≠ [] := by
  obtain ⟨ws, hws, hne⟩ := hq
  cases p <;> cases q <;> try first | (cases htag; done) | (cases hws; done)
  case compare.compare => exact ⟨_, rfl, List.cons_ne_nil _ _⟩
  case between.between => exact ⟨_, rfl, List.cons_ne_nil _ _⟩
  case isIn.isIn b vs b' us =>
    cases hws
    obtain ⟨v, hv⟩ := List.exists_mem_of_ne_nil _ hne
    obtain ⟨t, ht, -⟩ := List.mem_map.1 hv
    obtain ⟨s, hs, -⟩ := (iff_of_eq (congrFun (Tag.isIn.inj htag).2 t.key)).2 ⟨t, ht, rfl⟩
    exact ⟨_, rfl, List.ne_nil_of_mem (List.mem_map_of_mem hs)⟩

/-- Equal predicates have the same to say about the classes of their atoms. -/
theorem allAtoms_of_beq {Q : Predicate → Prop}
    (hQ : ∀ {x y : Predicate}, x.tag = y.tag → (Q x ↔ Q y)) (h : (p == q) = true) :
    p.AllAtoms Q ↔ q.AllAtoms Q := by
  induction p generalizing q with
  | always | never =>
    cases q <;> cases h
    exact Iff.rfl
  | bare | compare | isIn | between | isNull | test =>
    have htag := tag_eq_of_beq h
    cases q <;> first | exact hQ htag | cases h
  | not a ih =>
    cases q <;> try cases h
    rename_i b
    exact ih (q := b) h
  | and a b iha ihb | or a b iha ihb =>
    cases q <;> try cases h
    have hparts := Bool.and_eq_true_iff.1 h
    exact and_congr (iha hparts.1) (ihb hparts.2)

/-- Equal predicates have atoms of the same classes. -/
theorem map_tag_atoms (h : (p == q) = true) : p.atoms.map tag = q.atoms.map tag := by
  induction p generalizing q with
  | always | never | bare | compare | isIn | between | isNull | test =>
    have htag := tag_eq_of_beq h
    cases q <;> first | exact congrArg ([·]) htag | cases h
  | not a ih =>
    cases q <;> try cases h
    rename_i b
    exact ih (q := b) h
  | and a b iha ihb | or a b iha ihb =>
    cases q <;> try cases h
    have hparts := Bool.and_eq_true_iff.1 h
    rw [atoms, atoms, List.map_append, List.map_append, iha hparts.1, ihb hparts.2]

end Predicate

/-- **Interpreted atoms of one class are given the same values.** -/
theorem Interpretation.values_beq_of_tag {ctx : Interpretation} {p q : Predicate} {a : String}
    {us vs : ValueSet} (htag : p.tag = q.tag) (hp : p.named? = some a) (hq : q.named? = some a)
    (hus : ctx.values? p = .ok (some us)) (hvs : ctx.values? q = .ok (some vs)) :
    (us == vs) = true := by
  obtain ⟨b, full, hb, hfull, hshape⟩ := values?_eq_some hus
  cases hp.symm.trans hb
  obtain ⟨b, full', hb, hfull', hshape'⟩ := values?_eq_some hvs
  cases hq.symm.trans hb
  cases hfull.symm.trans hfull'
  obtain ⟨k, m, hk, hm, hmem⟩ := exists_meaning?_of_values hp hus
  obtain ⟨k', m', hk', hm', hmem'⟩ := exists_meaning?_of_values hq hvs
  cases hk.symm.trans hk'
  rw [ValueSet.beq_iff (hshape.trans hshape'.symm)]
  intro v
  rw [hmem, hmem', (Predicate.means_iff.2 hm).congr (Predicate.means_iff.2 hm') htag]

end RuleCoverage
