import RuleCoverage.Proofs.NormalForm.RoundTrip.Joined
import RuleCoverage.Proofs.NormalForm.RoundTrip.Sorted

/-!
# Normal forms are read as they are written

A term is written as the conjunction of its constraints and its literals, and a list of terms as the
disjunction of the terms.  If each constraint is read as a demand and each literal as an opaque
atom, the term is read as a corresponding one (`Term.exists_readsAs`), and a reduced list as the
list of the corresponding terms in the order in which they are written
(`Term.expand_disjunctionOf`).

The terms may be read otherwise than they were written: a constraint and what it is read as are
related by any relation under which the same value sets are equal and contain each other.
-/

set_option autoImplicit false

namespace RuleCoverage

variable {ctx ctx' : Interpretation} {r : Reading ctx} {r' : Reading ctx'}
  {M : String → ValueSet → ValueSet → Prop}

theorem List.exists_forall₂ {α β : Type} {R : α → β → Prop} {xs : List α}
    (h : ∀ x ∈ xs, ∃ y, R x y) : ∃ ys, List.Forall₂ R xs ys := by
  induction xs with
  | nil => exact ⟨[], .nil⟩
  | cons x xs ih =>
    rw [List.forall_mem_cons] at h
    obtain ⟨y, hy⟩ := h.1
    obtain ⟨ys, hys⟩ := ih h.2
    exact ⟨y :: ys, .cons hy hys⟩

/-! ## Literals -/

/-- The predicate that an opaque literal is written as. -/
def OpaqueLiteral.toPredicate (l : OpaqueLiteral) : Predicate :=
  if l.positive then l.atom else .not l.atom

namespace Predicate

/-- The atom is a proposition of its own. -/
structure Uninterpreted (ctx : Interpretation) (atom : Predicate) : Prop where
  member : atom.IsMember
  values : ctx.values? atom = .ok none
  present : ∀ a, atom.named? = some a → ¬ ctx.isMissing a = true

theorem uninterpreted_of_isOpaque {atom : Predicate} (h : r.IsOpaque atom) :
    Uninterpreted ctx atom := ⟨h.member, h.values, h.present⟩

theorem expandAtom_of_uninterpreted {atom : Predicate} (h : Uninterpreted ctx atom)
    (negated : Bool) : expandAtom ctx atom negated = .ok [.ofLiteral ⟨atom, !negated⟩] := by
  have hmissing : ¬ ((atom.attr?.bind Literal.text?).any ctx.isMissing) = true := by
    rw [Option.any_eq_true]
    rintro ⟨a, ha, hmiss⟩
    exact h.present a ha hmiss
  rw [expandAtom]
  simp only [hmissing, h.values, bind, Except.bind, checkMember_of_isMember h.member]
  rw [if_neg Bool.false_ne_true]
  split
  · rename_i heq
    cases heq
  · rfl

theorem readsAs_literal {l : OpaqueLiteral} (h : Uninterpreted ctx l.atom) :
    ReadsAs ctx l.toPredicate (.ofLiteral l) := by
  obtain ⟨atom, positive⟩ := l
  have hread := expandAtom_of_uninterpreted h (!positive)
  have hatom := h.member.isAtom
  rw [Bool.not_not] at hread
  cases positive <;> cases atom <;> first | exact hatom.elim | exact hread

end Predicate

namespace Term

/-! ## Joining constraints and literals one by one -/

/-- A demand on a later attribute goes to the end. -/
theorem constrain?_of_lt {a : String} {vs : ValueSet} {cs : List (String × ValueSet)}
    (h : ∀ c ∈ cs, c.1 < a) : constrain? a vs cs = some (cs ++ [(a, vs)]) := by
  induction cs with
  | nil => rfl
  | cons c cs ih =>
    rw [List.forall_mem_cons] at h
    have hne : ¬ c.1 = a := fun heq ↦ String.lt_irrefl a (heq ▸ h.1)
    rw [constrain?_cons, if_neg hne, if_neg fun hlt ↦ String.lt_irrefl _ (String.lt_trans hlt h.1),
      ih h.2]
    rfl

theorem foldlM_ofValues {cs ds : List (String × ValueSet)}
    (h : (cs ++ ds).Pairwise fun c d ↦ c.1 < d.1) :
    (ds.map fun d ↦ ofValues d.1 d.2).foldlM conjoin? ⟨cs, ∅⟩ = some ⟨cs ++ ds, ∅⟩ := by
  induction ds generalizing cs with
  | nil =>
    rw [List.append_nil]
    rfl
  | cons d ds ih =>
    have hlt : ∀ c ∈ cs, c.1 < d.1 :=
      fun c hc ↦ (List.pairwise_append.1 h).2.2 c hc d List.mem_cons_self
    have hstep : conjoin? ⟨cs, ∅⟩ (ofValues d.1 d.2) = some ⟨cs ++ [d], ∅⟩ := by
      refine conjoin?_eq_some.2 ⟨?_, rfl, Bool.false_ne_true⟩
      show (constrain? d.1 d.2 cs >>= fun cs ↦ some cs) = _
      rw [constrain?_of_lt hlt]
      rfl
    rw [List.map_cons, List.foldlM_cons, hstep]
    show (ds.map fun d ↦ ofValues d.1 d.2).foldlM conjoin? ⟨cs ++ [d], ∅⟩ = _
    rw [ih (by rwa [List.append_assoc]), List.append_assoc]
    rfl

/-- The literals are of different classes, and none is the negation of another one. -/
structure Separate (ls : List OpaqueLiteral) : Prop where
  distinct : ls.Pairwise fun l m ↦ (l == m) = false
  consistent : ∀ l ∈ ls, ∀ m ∈ ls, (m == l.negate) = false

/-- The literals of a term are separate, in any order. -/
theorem Valid.separate {t : Term} (ht : t.Valid r) {ls : List OpaqueLiteral}
    (hperm : ls.Perm t.literals.toList) : Separate ls := by
  have hmember : ∀ l ∈ ls, l.atom.IsMember :=
    fun l hl ↦ ht.opaques.members l (hperm.mem_iff.1 hl)
  constructor
  · have hclasses : t.literals.toList.Pairwise fun l m ↦ l.class_ ≠ m.class_ := by
      refine t.literals.distinct.imp_of_mem fun {l m} hl hm hne hclass ↦ ?_
      rw [(OpaqueLiteral.decidedBy_tag l m (ht.opaques.members l hl)
        (ht.opaques.members m hm)).2 hclass] at hne
      cases hne
    rw [← hperm.pairwise_iff Ne.symm] at hclasses
    refine hclasses.imp_of_mem fun {l m} hl hm hne ↦ Bool.eq_false_iff.2 fun heq ↦ hne ?_
    exact (OpaqueLiteral.decidedBy_tag l m (hmember l hl) (hmember m hm)).1 heq
  · intro l hl m hm
    rw [Bool.eq_false_iff]
    intro heq
    have hnegate : l.negate.atom.IsMember := hmember l hl
    have hclass := (OpaqueLiteral.decidedBy_tag m l.negate (hmember m hm) hnegate).1 heq
    rw [Prod.mk.injEq] at hclass
    have hsign := ht.consistent m (hperm.mem_iff.1 hm) l (hperm.mem_iff.1 hl) hclass.1
    rw [hclass.2, OpaqueLiteral.negate] at hsign
    cases hl : l.positive <;> simp [hl] at hsign

theorem toList_insert_of_separate {l : OpaqueLiteral} {ls : List OpaqueLiteral}
    {ms : Distinct OpaqueLiteral} (h : Separate (ms.toList ++ l :: ls)) :
    (ms.insert l).toList = ms.toList ++ [l] := by
  refine Distinct.toList_insert_of_not_contains fun hc ↦ ?_
  obtain ⟨m, hm, hml⟩ := List.any_eq_true.1 hc
  have hne := (List.pairwise_append.1 h.distinct).2.2 m hm l List.mem_cons_self
  rw [hml] at hne
  cases hne

theorem conjoin?_ofLiteral {cs : List (String × ValueSet)} {l : OpaqueLiteral}
    {ls : List OpaqueLiteral} {ms : Distinct OpaqueLiteral}
    (h : Separate (ms.toList ++ l :: ls)) :
    conjoin? ⟨cs, ms⟩ (ofLiteral l) = some ⟨cs, ms.insert l⟩ := by
  refine conjoin?_eq_some.2 ⟨rfl, rfl, fun hany ↦ ?_⟩
  obtain ⟨m, hm, hc⟩ := List.any_eq_true.1 hany
  obtain ⟨n, hn, hnm⟩ := List.any_eq_true.1 hc
  have hmem : ∀ {x}, x ∈ (ms.insert l).toList → x ∈ ms.toList ++ l :: ls := by
    intro x hx
    rw [toList_insert_of_separate h, List.mem_append, List.mem_singleton] at hx
    rw [List.mem_append, List.mem_cons]
    tauto
  rw [h.consistent m (hmem hm) n (hmem hn)] at hnm
  cases hnm

theorem foldlM_ofLiteral {cs : List (String × ValueSet)} {ls : List OpaqueLiteral}
    {ms : Distinct OpaqueLiteral} (h : Separate (ms.toList ++ ls)) :
    (ls.map ofLiteral).foldlM conjoin? ⟨cs, ms⟩ = some ⟨cs, ls.foldl .insert ms⟩ := by
  induction ls generalizing ms with
  | nil => rfl
  | cons l ls ih =>
    rw [List.map_cons, List.foldlM_cons, conjoin?_ofLiteral h]
    show (ls.map ofLiteral).foldlM conjoin? ⟨cs, ms.insert l⟩ = _
    rw [ih]
    · rfl
    · rwa [toList_insert_of_separate h, List.append_assoc, List.singleton_append]

/-! ## Terms -/

variable {t : Term} {ts : List Term}

theorem toPredicate_eq (ctx : Interpretation) (t : Term) : t.toPredicate ctx =
    .conjunction (t.constraints.map (fun c ↦ c.2.toPredicate ctx c.1) ++
      t.sortedLiterals.map OpaqueLiteral.toPredicate) := rfl

theorem always_conjoin?_ofLiteral (l : OpaqueLiteral) :
    always.conjoin? (ofLiteral l) = some (ofLiteral l) := by
  refine conjoin?_eq_some.2 ⟨rfl, rfl, fun hany ↦ ?_⟩
  obtain ⟨m, hm, hc⟩ := List.any_eq_true.1 hany
  obtain ⟨n, hn, hnm⟩ := List.any_eq_true.1 hc
  obtain rfl : m = l := List.mem_singleton.1 hm
  obtain rfl : n = m := List.mem_singleton.1 hn
  have hdef : (n == n.negate) = (n.atom == n.atom && n.positive == !n.positive) := rfl
  rw [hdef, Bool.and_eq_true] at hnm
  cases hp : n.positive <;> simp [hp] at hnm

/-- The attributes of respelled constraints are the same ones, in the same order. -/
theorem Respelled.ascending {cs cs' : List (String × ValueSet)} (h : Respelled M cs cs')
    (hcs : cs.Pairwise fun c d ↦ c.1 < d.1) : cs'.Pairwise fun c d ↦ c.1 < d.1 := by
  have hattrs : cs.map Prod.fst = cs'.map Prod.fst := by
    induction h with
    | nil => rfl
    | cons hc _ ih => rw [List.map_cons, List.map_cons, hc.1, ih (List.pairwise_cons.1 hcs).2]
  rwa [← List.pairwise_map (f := Prod.fst) (R := (· < ·)), ← hattrs, List.pairwise_map]

/-- **A term is read as it is written**: as a term with what its constraints are read as, and with
its literals in order. -/
theorem exists_readsAs (ht : t.Valid r)
    (hconstraints : ∀ c ∈ t.constraints, ∃ vs, M c.1 c.2 vs ∧
      (c.2.toPredicate ctx c.1).ReadsAs ctx' (.ofValues c.1 vs))
    (hliterals : ∀ l ∈ t.literals.toList, l.atom.Uninterpreted ctx') :
    ∃ t', (t.toPredicate ctx).ReadsAs ctx' t' ∧ Corresponds M t t' ∧
      t'.literals.toList = t.sortedLiterals := by
  have hread : ∀ c ∈ t.constraints, ∃ c' : String × ValueSet, c.1 = c'.1 ∧ M c.1 c.2 c'.2 ∧
      (c.2.toPredicate ctx c.1).ReadsAs ctx' (.ofValues c'.1 c'.2) := by
    intro c hc
    obtain ⟨vs, hM, hread⟩ := hconstraints c hc
    exact ⟨(c.1, vs), rfl, hM, hread⟩
  obtain ⟨cs', hcs'⟩ := List.exists_forall₂ hread
  have hrespelled : Respelled M t.constraints cs' := hcs'.imp fun c c' h ↦ ⟨h.1, h.2.1⟩
  have hperm := t.sortedLiterals_perm
  have hseparate := ht.separate hperm
  have hlist : (Distinct.ofList t.sortedLiterals).toList = t.sortedLiterals :=
    Distinct.toList_ofList hseparate.distinct
  refine ⟨⟨cs', .ofList t.sortedLiterals⟩, ?_, ⟨hrespelled, ht.opaques.members, ?_, ?_⟩, hlist⟩
  · rw [toPredicate_eq]
    have hfold : (cs'.map (fun c ↦ ofValues c.1 c.2) ++ t.sortedLiterals.map ofLiteral).foldlM
        conjoin? always = some ⟨cs', .ofList t.sortedLiterals⟩ := by
      have hascending : (([] : List (String × ValueSet)) ++ cs').Pairwise fun c d ↦ c.1 < d.1 :=
        hrespelled.ascending ht.constraints.ascending
      have hrest : Separate ((∅ : Distinct OpaqueLiteral).toList ++ t.sortedLiterals) := hseparate
      rw [List.foldlM_append, always, foldlM_ofValues hascending]
      exact foldlM_ofLiteral hrest
    refine Predicate.readsAs_conjunction (List.rel_append ?_ ?_) ?_ hfold
    · rw [List.forall₂_map_left_iff, List.forall₂_map_right_iff]
      exact hcs'.imp fun c c' h ↦ h.2.2
    · rw [List.forall₂_map_left_iff, List.forall₂_map_right_iff, List.forall₂_same]
      exact fun l hl ↦ Predicate.readsAs_literal (hliterals l (hperm.mem_iff.1 hl))
    · rw [List.forall_mem_append, List.forall_mem_map, List.forall_mem_map]
      exact ⟨fun c _ ↦ always_conjoin?_ofValues, fun l _ ↦ always_conjoin?_ofLiteral l⟩
  · intro l hl
    rw [hlist, hperm.mem_iff] at hl
    exact ht.opaques.members l hl
  · intro k
    simp only [hlist, hperm.mem_iff]

/-- Terms with constraints that are written alike and with the same literals are written alike. -/
theorem toPredicate_congr {t' : Term} (hls : t'.literals.toList = t.sortedLiterals)
    (hcs : Respelled (fun a us us' ↦ us'.toPredicate ctx' a = us.toPredicate ctx a)
      t.constraints t'.constraints) : t'.toPredicate ctx' = t.toPredicate ctx := by
  rw [toPredicate_eq, toPredicate_eq, sortedLiterals_of_toList hls]
  congr 2
  generalize t.constraints = cs at hcs
  generalize t'.constraints = cs' at hcs
  induction hcs with
  | nil => rfl
  | @cons c c' _ _ hc _ ih => rw [List.map_cons, List.map_cons, ih, ← hc.1, hc.2]

/-! ## Disjunctions -/

/-- The terms in the order in which they are written. -/
def inOrder (ctx : Interpretation) (ts : List Term) : List Term :=
  ts.mergeSort (textOrder fun t ↦ (t.toPredicate ctx).text)

theorem inOrder_perm (ctx : Interpretation) (ts : List Term) : (inOrder ctx ts).Perm ts :=
  List.mergeSort_perm _ _

theorem sorted_map_toPredicate (ctx : Interpretation) (ts : List Term) :
    Predicate.sorted (ts.map (toPredicate ctx)) = (inOrder ctx ts).map (toPredicate ctx) :=
  Predicate.sorted_map _ _

theorem disjunctionOf_nil (ctx : Interpretation) : disjunctionOf ctx [] = .never := by
  rw [disjunctionOf, sorted_map_toPredicate, inOrder, List.mergeSort_nil]
  rfl

theorem disjunctionOf_singleton (ctx : Interpretation) (t : Term) :
    disjunctionOf ctx [t] = t.toPredicate ctx := by
  rw [disjunctionOf, sorted_map_toPredicate, inOrder, List.mergeSort_singleton]
  rfl

theorem toPredicate_always (ctx : Interpretation) : always.toPredicate ctx = .always := by
  rw [toPredicate_eq, (sortedLiterals_perm always).eq_nil]
  rfl

/-- A demand on one attribute is written as its value set is. -/
theorem toPredicate_ofValues (ctx : Interpretation) (a : String) (vs : ValueSet) :
    (ofValues a vs).toPredicate ctx = vs.toPredicate ctx a := by
  rw [toPredicate_eq, (sortedLiterals_perm (ofValues a vs)).eq_nil]
  rfl

theorem inOrder_inOrder (ctx : Interpretation) (ts : List Term) :
    inOrder ctx (inOrder ctx ts) = inOrder ctx ts :=
  mergeSort_textOrder_mergeSort _ _

/-- **A reduced list of terms is read as it is written**: as the list of what the terms are read as,
in order. -/
theorem expand_disjunctionOf {ts' : List Term} (hM : Faithful M) (hts : Reduced ts)
    (hread : List.Forall₂ (fun t t' ↦ (t.toPredicate ctx).ReadsAs ctx' t' ∧ Corresponds M t t')
      (inOrder ctx ts) ts') (hvalid : AllValid r' ts') :
    (disjunctionOf ctx ts).expand ctx' false = .ok ts' := by
  rw [disjunctionOf, sorted_map_toPredicate]
  refine Predicate.expand_disjunction ?_ hvalid ?_
  · rw [List.forall₂_map_left_iff]
    exact hread.imp fun t t' h ↦ h.1
  · exact (hts.perm (inOrder_perm ctx ts).symm).corresponds hM (hread.imp fun t t' h ↦ h.2)

/-- Lists of terms that are written alike, up to the order, are written as the same predicate. -/
theorem disjunctionOf_congr {ts' : List Term}
    (h : List.Forall₂ (fun t t' ↦ t'.toPredicate ctx' = t.toPredicate ctx) (inOrder ctx ts) ts') :
    disjunctionOf ctx' ts' = disjunctionOf ctx ts := by
  have hmap : ts'.map (toPredicate ctx') = (inOrder ctx ts).map (toPredicate ctx) := by
    generalize inOrder ctx ts = us at h ⊢
    induction h with
    | nil => rfl
    | cons hc _ ih => rw [List.map_cons, List.map_cons, hc, ih]
  rw [disjunctionOf, disjunctionOf, hmap, sorted_map_toPredicate, sorted_map_toPredicate,
    inOrder_inOrder]

end Term

end RuleCoverage
