import RuleCoverage.NormalForm.Expansion
import RuleCoverage.Proofs.Distinct
import RuleCoverage.Proofs.Outcomes
import RuleCoverage.Proofs.Predicate.Truth

/-!
# Classes of equal atoms

Equality of predicates (`==`) is not transitive: a boolean taken from a table equals the plain
boolean, and it equals a list that holds nothing but itself, but these two differ.  Opaque atoms are
members of sets, though, and atoms with lists in them are refused there.  Among those that are left
(`Predicate.IsMember`) equality is that of a `Predicate.Tag`, and equal predicates have one tag in
any case.

## What is here

* `Literal.tag_eq_of_beq`, `Predicate.tag_eq_of_beq` — what is equal has one tag.
* `Predicate.decidedBy_tag`, `OpaqueLiteral.decidedBy_tag` — among members the converse holds too.
* `Predicate.isMember_of_checkMember` — which atoms are refused.
-/

set_option autoImplicit false

namespace RuleCoverage

/-! ## Literals -/

namespace Literal

/-- What a literal is up to equality and what follows from it. -/
inductive Tag where
  | key (k : Scalar.Key)
  | list (items : List Tag)
  | dict

/-- The tag of a list.  A list that holds nothing but a truth value equals a boolean taken from a
table, so it has the tag of that. -/
def Tag.ofList : List Tag → Tag
  | [.key (.number x)] =>
    if x = .finite 0 ∨ x = .finite 1 then .key (.number x) else .list [.key (.number x)]
  | ts => .list ts

mutual

def tag : Literal → Tag
  | .scalar s => .key s.key
  | .list items => .ofList (tagList items)
  | .dict _ => .dict

def tagList : List Literal → List Tag
  | [] => []
  | x :: xs => tag x :: tagList xs

end

theorem tag_of_sole? {b : Bool} : ∀ v : Literal, (v.sole?.any (· == .flag b)) = true →
    v.tag = .key (Scalar.flag b).key
  | .scalar s, h => by
    rw [tag, (Scalar.beq_iff_key _ _).1 (by simpa [sole?] using h)]
  | .list [x], h => by
    have hx := tag_of_sole? x (by simpa [sole?] using h)
    rw [tag, tagList, tagList, hx, Scalar.key, Tag.ofList, if_pos]
    cases b <;> simp [Scalar.ofBool]
  | .list [], h => by simp [sole?] at h
  | .list (_ :: _ :: _), h => by simp [sole?] at h
  | .dict _, h => by simp [sole?] at h

mutual

/-- **Equal literals have one tag.** -/
theorem tag_eq_of_beq : ∀ x y : Literal, beq x y = true → x.tag = y.tag
  | .scalar a, .scalar b, h => by
    rw [beq, Scalar.beq_iff_key] at h
    rw [tag, tag, h]
  | .list xs, .list ys, h => by
    rw [beq] at h
    rw [tag, tag, tagList_eq_of_beqList xs ys h]
  | .dict _, .dict _, _ => by rw [tag, tag]
  | .scalar s, .list ys, h => by
    cases s with
    | flag b =>
      rw [tag_of_sole? (.list ys) (by simpa [beq] using h), tag]
    | _ => simp [beq] at h
  | .list xs, .scalar s, h => by
    cases s with
    | flag b =>
      rw [tag_of_sole? (.list xs) (by simpa [beq] using h), tag]
    | _ => simp [beq] at h
  | .scalar s, .dict _, h => by cases s <;> simp [beq, sole?] at h
  | .dict _, .scalar s, h => by cases s <;> simp [beq, sole?] at h
  | .dict _, .list _, h => by simp [beq] at h
  | .list _, .dict _, h => by simp [beq] at h

theorem tagList_eq_of_beqList : ∀ xs ys : List Literal, beqList xs ys = true →
    tagList xs = tagList ys
  | [], [], _ => rfl
  | x :: xs, y :: ys, h => by
    rw [beqList, Bool.and_eq_true] at h
    rw [tagList, tagList, tag_eq_of_beq x y h.1, tagList_eq_of_beqList xs ys h.2]
  | [], _ :: _, h => by simp [beqList] at h
  | _ :: _, [], h => by simp [beqList] at h

end

/-- The literal is a scalar. -/
def IsScalar (v : Literal) : Prop := ∃ s, v = .scalar s

theorem isScalar_of_toMember {v : Literal} {s : Scalar} (h : v.toMember = .ok s) :
    v.IsScalar := by
  cases v with
  | scalar s => exact ⟨s, rfl⟩
  | list _ | dict _ => cases h

/-- Scalars of one tag are equal. -/
theorem beq_of_tag_eq {x y : Literal} (hx : x.IsScalar) (hy : y.IsScalar) (h : x.tag = y.tag) :
    (x == y) = true := by
  obtain ⟨a, rfl⟩ := hx
  obtain ⟨b, rfl⟩ := hy
  rw [tag, tag, Tag.key.injEq] at h
  rwa [scalar_beq_scalar, Scalar.beq_iff_key]

end Literal

/-! ## Predicates -/

namespace Predicate

/-- What an atom is up to equality and what follows from it.  Predicates that are no atoms have one
tag. -/
inductive Tag where
  | compare (attr : Literal.Tag) (op : Comparison) (value : Literal.Tag)
  | isIn (attr : Literal.Tag) (keys : Scalar.Key → Prop)
  | between (attr low high : Literal.Tag) (lowIncluded highIncluded : Bool)
  | isNull (attr : Literal.Tag)
  | test (function name : String)
  | other

def tag : Predicate → Tag
  | .compare a op v => .compare a.tag op v.tag
  | .isIn a vs => .isIn a.tag fun k ↦ ∃ x ∈ vs.toList, x.key = k
  | .between a l h li hi => .between a.tag l.tag h.tag li hi
  | .isNull a => .isNull a.tag
  | .test t => .test t.function t.name
  | _ => .other

/-- An atom that can be a member of a set. -/
def IsMember : Predicate → Prop
  | .compare a _ v => a.IsScalar ∧ v.IsScalar
  | .isIn a _ | .isNull a => a.IsScalar
  | .between a l h _ _ => a.IsScalar ∧ l.IsScalar ∧ h.IsScalar
  | .bare | .test _ => True
  | _ => False

theorem IsMember.isAtom {p : Predicate} (h : p.IsMember) : p.IsAtom := by
  cases p <;> trivial

theorem sets_beq_iff (vs ws : Distinct Scalar) : (vs == ws) = true ↔
    (fun k ↦ ∃ x ∈ vs.toList, x.key = k) = fun k ↦ ∃ x ∈ ws.toList, x.key = k := by
  rw [Distinct.beq_iff Scalar.decidedBy_key (fun _ _ ↦ trivial) fun _ _ ↦ trivial, funext_iff]
  exact forall_congr' fun k ↦ eq_iff_iff.symm

/-- **Equal predicates have one tag.** -/
theorem tag_eq_of_beq {p q : Predicate} (h : (p == q) = true) : p.tag = q.tag := by
  change beq p q = true at h
  cases p <;> cases q <;> try first | rfl | cases h
  case compare.compare a op v b op' w =>
    simp only [beq, Bool.and_eq_true, beq_iff_eq] at h
    rw [tag, tag, Literal.tag_eq_of_beq _ _ h.1.1, h.1.2, Literal.tag_eq_of_beq _ _ h.2]
  case isIn.isIn a vs b ws =>
    simp only [beq, Bool.and_eq_true] at h
    rw [tag, tag, Literal.tag_eq_of_beq _ _ h.1, (sets_beq_iff vs ws).1 h.2]
  case between.between =>
    simp only [beq, Bool.and_eq_true, beq_iff_eq] at h
    rw [tag, tag, Literal.tag_eq_of_beq _ _ h.1.1.1.1, Literal.tag_eq_of_beq _ _ h.1.1.1.2,
      Literal.tag_eq_of_beq _ _ h.1.1.2, h.1.2, h.2]
  case isNull.isNull =>
    rw [tag, tag, Literal.tag_eq_of_beq _ _ h]
  case test.test t u =>
    have ht : t.function = u.function ∧ t.name = u.name := by
      simpa [beq, BEq.beq] using h
    rw [tag, tag, ht.1, ht.2]

/-- Members of one tag are equal. -/
theorem beq_of_tag_eq {p q : Predicate} (hp : p.IsMember) (hq : q.IsMember) (h : p.tag = q.tag) :
    (p == q) = true := by
  show beq p q = true
  cases p <;> cases q <;> try first | exact hp.elim | exact hq.elim | rfl | cases h
  case compare.compare =>
    simp only [tag, Tag.compare.injEq] at h
    simp only [beq, Bool.and_eq_true, beq_iff_eq]
    exact ⟨⟨Literal.beq_of_tag_eq hp.1 hq.1 h.1, h.2.1⟩, Literal.beq_of_tag_eq hp.2 hq.2 h.2.2⟩
  case isIn.isIn vs _ ws =>
    simp only [tag, Tag.isIn.injEq] at h
    rw [beq, Bool.and_eq_true]
    exact ⟨Literal.beq_of_tag_eq hp hq h.1, (sets_beq_iff vs ws).2 h.2⟩
  case between.between =>
    simp only [tag, Tag.between.injEq] at h
    simp only [beq, Bool.and_eq_true, beq_iff_eq]
    exact ⟨⟨⟨⟨Literal.beq_of_tag_eq hp.1 hq.1 h.1, Literal.beq_of_tag_eq hp.2.1 hq.2.1 h.2.1⟩,
      Literal.beq_of_tag_eq hp.2.2 hq.2.2 h.2.2.1⟩, h.2.2.2.1⟩, h.2.2.2.2⟩
  case isNull.isNull =>
    exact Literal.beq_of_tag_eq hp hq (Tag.isNull.inj h)
  case test.test t u =>
    simp only [tag, Tag.test.injEq] at h
    simp [beq, BEq.beq, h.1, h.2]

theorem decidedBy_tag : Distinct.DecidedBy IsMember tag := fun _ _ hp hq ↦
  ⟨tag_eq_of_beq, beq_of_tag_eq hp hq⟩

/-- An atom that is not refused as a member of a set is one. -/
theorem isMember_of_checkMember {atom : Predicate} (hatom : atom.IsAtom)
    (h : atom.checkMember = .ok ()) : atom.IsMember := by
  cases atom with
  | always | never | and | or | not => exact hatom.elim
  | bare | test => trivial
  | compare a op v =>
    obtain ⟨_, ha, h⟩ := bind_eq_ok.1 h
    obtain ⟨_, hv, -⟩ := bind_eq_ok.1 h
    exact ⟨Literal.isScalar_of_toMember ha, Literal.isScalar_of_toMember hv⟩
  | isIn a vs | isNull a =>
    obtain ⟨_, ha, -⟩ := bind_eq_ok.1 h
    exact Literal.isScalar_of_toMember ha
  | between a l u li ui =>
    obtain ⟨_, ha, h⟩ := bind_eq_ok.1 h
    obtain ⟨_, hl, h⟩ := bind_eq_ok.1 h
    obtain ⟨_, hu, -⟩ := bind_eq_ok.1 h
    exact ⟨Literal.isScalar_of_toMember ha, Literal.isScalar_of_toMember hl,
      Literal.isScalar_of_toMember hu⟩

theorem checkMember_of_isMember {atom : Predicate} (h : atom.IsMember) :
    atom.checkMember = .ok () := by
  cases atom with
  | always | never | and | or | not => exact h.elim
  | bare | test => rfl
  | compare a op v =>
    obtain ⟨⟨_, rfl⟩, ⟨_, rfl⟩⟩ := h
    rfl
  | isIn a vs | isNull a =>
    obtain ⟨_, rfl⟩ := h
    rfl
  | between a l u li ui =>
    obtain ⟨⟨_, rfl⟩, ⟨_, rfl⟩, ⟨_, rfl⟩⟩ := h
    rfl

end Predicate

/-! ## Opaque literals -/

namespace OpaqueLiteral

/-- Among literals whose atoms are members of sets, equality is that of the tag and the sign. -/
theorem decidedBy_tag : Distinct.DecidedBy (fun l : OpaqueLiteral ↦ l.atom.IsMember)
    fun l ↦ (l.atom.tag, l.positive) := by
  intro l m hl hm
  have hdef : (l == m) = (l.atom == m.atom && l.positive == m.positive) := rfl
  rw [hdef, Bool.and_eq_true, Predicate.decidedBy_tag l.atom m.atom hl hm, beq_iff_eq,
    Prod.mk.injEq]

end OpaqueLiteral

end RuleCoverage
