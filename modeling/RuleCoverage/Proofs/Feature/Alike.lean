import RuleCoverage.Proofs.Feature.ByValue

/-!
# Literals that are compared alike

Equal literals need not be compared alike with what a table holds: a boolean taken from a table
looks into a list, and a plain boolean that equals it does not.  `Literal.Alike` says that two
literals are equal and have such booleans at the same places.  Then no comparison part by part can
tell one from the other, because apart from these booleans it sees of a scalar its key only.

## What is here

* `Scalar.toOption_orders` — the order of scalars is that of their keys, and so is having none.
* `Literal.toOption_equal?_congr`, `Literal.toOption_orders_congr` — a value is compared with
  literals that are alike with the same answer, or with an error in both cases.
-/

set_option autoImplicit false

namespace RuleCoverage

/-! ## Scalars -/

namespace Scalar

variable {a b c : Scalar}

/-- Whether a scalar is a boolean taken from a table. -/
def isFlag : Scalar → Bool
  | .flag _ => true
  | _ => false

theorem eq_of_isFlag (hb : b.isFlag = true) (hc : c.isFlag = true) (h : b.key = c.key) : b = c := by
  cases b <;> cases hb
  cases c <;> cases hc
  rename_i s t
  cases s <;> cases t <;> first | rfl | exact absurd h (by decide)

/-- Scalars of one key agree in being of no kind, and in being texts. -/
theorem kind?_congr (h : a.key = b.key) : a.kind?.isNone = b.kind?.isNone ∧
    (a.kind? == some .string) = (b.kind? == some .string) := by
  cases a <;> cases b <;> first | exact ⟨rfl, rfl⟩ | cases h

/-- Whether scalars of the given keys have an order. -/
def Key.ordered : Key → Key → Bool
  | .text _, .text _ => true
  | .null, _ | _, .null | .text _, _ | _, .text _ => false
  | _, _ => true

/-- **The order of scalars is that of their keys.** -/
theorem toOption_orders (op : Comparison) (a b : Scalar) : (a.orders op b).toOption =
    if Key.ordered a.key b.key then some (Key.orders op a.key b.key) else none := by
  cases a <;> cases b <;> rfl

end Scalar

/-! ## Literals -/

namespace Literal

/-- The value that some entries have for a key. -/
def lookup? (k : Scalar) (entries : List (Scalar × Literal)) : Option Literal :=
  (entries.find? fun e ↦ k == e.1).map Prod.snd

/-- Two literals are equal, with booleans taken from a table at the same places. -/
inductive Alike : Literal → Literal → Prop
  | scalar {b c : Scalar} (hkey : b.key = c.key) (hflag : b.isFlag = c.isFlag) :
    Alike (.scalar b) (.scalar c)
  | list {xs ys : List Literal} (h : List.Forall₂ Alike xs ys) : Alike (.list xs) (.list ys)
  | dict {xs ys : List (Scalar × Literal)} (hlength : xs.length = ys.length)
    (h : ∀ k, Option.Rel Alike (lookup? k xs) (lookup? k ys)) : Alike (.dict xs) (.dict ys)

mutual

/-- Every literal is like itself. -/
theorem Alike.refl : ∀ x : Literal, Alike x x
  | .scalar _ => .scalar rfl rfl
  | .list xs => .list (forall₂_alike_refl xs)
  | .dict xs => .dict rfl fun k ↦ by
    have hvalues := alike_values_refl xs
    rw [lookup?]
    cases he : xs.find? fun e ↦ k == e.1 with
    | none => exact .none
    | some e => exact .some (hvalues e (List.mem_of_find?_eq_some he))

theorem forall₂_alike_refl : ∀ xs : List Literal, List.Forall₂ Alike xs xs
  | [] => .nil
  | x :: xs => .cons (Alike.refl x) (forall₂_alike_refl xs)

theorem alike_values_refl : ∀ xs : List (Scalar × Literal), ∀ e ∈ xs, Alike e.2 e.2
  | [], _, he => nomatch he
  | (_, v) :: _, _, .head _ => Alike.refl v
  | _ :: rest, e, .tail _ he => alike_values_refl rest e he

end

/-! ### What is in them -/

mutual

theorem size_eq_length_leaves : ∀ x : Literal, size x = (leaves x).length
  | .list xs => sizeOfList_eq_length_leaves xs
  | .scalar _ | .dict _ => rfl

theorem sizeOfList_eq_length_leaves : ∀ xs : List Literal,
    sizeOfList xs = (leavesOfList xs).length
  | [] => rfl
  | x :: xs => by
    rw [sizeOfList, leavesOfList, List.length_append, size_eq_length_leaves x,
      sizeOfList_eq_length_leaves xs]

end

namespace Tag

mutual

/-- The tags of what is in a literal. -/
def leaves : Tag → List Tag
  | .list ts => leavesOfList ts
  | t => [t]

def leavesOfList : List Tag → List Tag
  | [] => []
  | t :: ts => leaves t ++ leavesOfList ts

end

/-- The key of the scalar in a list of one item. -/
def sole? : Tag → Option Scalar.Key
  | .key k => some k
  | .list [t] => sole? t
  | _ => none

theorem leaves_ofList (ts : List Tag) : (ofList ts).leaves = leavesOfList ts := by
  rw [ofList.eq_def]
  split
  · split <;> rfl
  · rfl

theorem sole?_ofList_singleton (t : Tag) : (ofList [t]).sole? = t.sole? := by
  rw [ofList.eq_def]
  split
  · rename_i x ht
    cases ht
    split <;> rfl
  · rfl

end Tag

/-- A literal that is no list, by its tag. -/
inductive IsLeaf : Literal → Tag → Prop
  | scalar (s : Scalar) : IsLeaf (.scalar s) (.key s.key)
  | dict (entries : List (Scalar × Literal)) : IsLeaf (.dict entries) .dict

mutual

theorem isLeaf_leaves : ∀ x : Literal, List.Forall₂ IsLeaf x.leaves x.tag.leaves
  | .scalar s => .cons (.scalar s) .nil
  | .dict entries => .cons (.dict entries) .nil
  | .list xs => by
    rw [tag, Tag.leaves_ofList]
    exact isLeaf_leavesOfList xs

theorem isLeaf_leavesOfList : ∀ xs : List Literal,
    List.Forall₂ IsLeaf (leavesOfList xs) (Tag.leavesOfList (tagList xs))
  | [] => .nil
  | x :: xs => List.rel_append (isLeaf_leaves x) (isLeaf_leavesOfList xs)

end

theorem sole?_tag : ∀ x : Literal, x.tag.sole? = x.sole?.map Scalar.key
  | .scalar _ | .dict _ | .list [] => rfl
  | .list [x] => (Tag.sole?_ofList_singleton x.tag).trans (sole?_tag x)
  | .list (_ :: _ :: _) => by simp [tag, tagList, Tag.ofList, Tag.sole?, sole?]

mutual

/-- Literals that are alike have one tag. -/
theorem Alike.tag_eq : ∀ {x y : Literal}, Alike x y → x.tag = y.tag
  | .scalar _, _, .scalar hkey _ => congrArg Tag.key hkey
  | .list _, _, .list h => congrArg Tag.ofList (tagList_eq_of_alike h)
  | .dict _, _, .dict _ _ => rfl

theorem tagList_eq_of_alike : ∀ {xs ys : List Literal}, List.Forall₂ Alike xs ys →
    tagList xs = tagList ys
  | [], _, .nil => rfl
  | _ :: _, _, .cons hx hxs => by rw [tagList, tagList, hx.tag_eq, tagList_eq_of_alike hxs]

end

/-! ### Comparing part by part -/

variable {op : Comparison} {x y : Literal} {xs ys : List Literal}

/-- A boolean taken from a table sees of a list its tag only. -/
theorem equalsFlag?_congr (b : Bool) (h : (list xs).tag = (list ys).tag) :
    equalsFlag? b xs = equalsFlag? b ys := by
  have hsize : ∀ zs, sizeOfList zs = (list zs).tag.leaves.length := fun zs ↦ by
    rw [sizeOfList_eq_length_leaves]
    exact (isLeaf_leaves (.list zs)).length_eq
  have hany : ∀ x : Literal,
      x.sole?.any (· == .flag b) = x.tag.sole?.any (· == (Scalar.flag b).key) := by
    intro x
    rw [sole?_tag]
    cases x.sole? <;> rfl
  rw [equalsFlag?, equalsFlag?, hsize, hsize, hany, hany, h]

/-- A list equals no scalar but a boolean taken from a table. -/
theorem equal?_list_scalar {b : Scalar} (hb : b.isFlag = false) :
    equal? (.list xs) (.scalar b) = .ok false := by
  cases b with
  | flag b => cases hb
  | _ => simp [equal?]

mutual

/-- **A literal equals literals that are alike alike**, as far as there is an answer. -/
theorem toOption_equal?_congr : ∀ (v : Literal) {x y : Literal}, Alike x y →
    (equal? v x).toOption = (equal? v y).toOption
  | .scalar a, _, _, .scalar hkey _ => by
    rw [equal?, equal?]
    exact congrArg (fun k ↦ some (a.key == k)) hkey
  | .scalar a, _, _, .list h => by
    cases a with
    | flag b => exact congrArg Except.toOption (equalsFlag?_congr b (Alike.list h).tag_eq)
    | _ => simp [equal?]
  | .scalar a, _, _, .dict _ _ => by simp [equal?]
  | .list vs, _, _, .scalar (b := b) (c := c) hkey hflag => by
    cases hb : b.isFlag with
    | true => rw [Scalar.eq_of_isFlag hb (hflag ▸ hb) hkey]
    | false => rw [equal?_list_scalar hb, equal?_list_scalar (hflag ▸ hb)]
  | .list vs, _, _, .list h => by
    rw [equal?, equal?, h.length_eq]
    split
    · exact toOption_equalList?_congr vs h
    · rfl
  | .list vs, _, _, .dict _ _ => by simp [equal?]
  | .dict vs, _, _, .scalar _ _ => by simp [equal?]
  | .dict vs, _, _, .list _ => by simp [equal?]
  | .dict vs, _, _, .dict hlength h => by
    rw [equal?, equal?, hlength]
    split
    · exact toOption_equalEntries?_congr vs h
    · rfl

theorem toOption_equalList?_congr : ∀ (vs : List Literal) {xs ys : List Literal},
    List.Forall₂ Alike xs ys → (equalList? vs xs).toOption = (equalList? vs ys).toOption
  | [], _, _, .nil => rfl
  | _ :: _, _, _, .nil => rfl
  | [], _, _, .cons _ _ => rfl
  | v :: vs, _, _, .cons hx hxs => by
    rw [equalList?, equalList?]
    refine toOption_bind_congr (toOption_equal?_congr v hx) fun b ↦ ?_
    cases b with
    | true => exact toOption_equalList?_congr vs hxs
    | false => rfl

theorem toOption_equalEntries?_congr : ∀ (vs : List (Scalar × Literal))
    {xs ys : List (Scalar × Literal)}, (∀ k, Option.Rel Alike (lookup? k xs) (lookup? k ys)) →
    (equalEntries? vs xs).toOption = (equalEntries? vs ys).toOption
  | [], _, _, _ => rfl
  | (k, v) :: vs, xs, ys, h => by
    have hk := h k
    rw [lookup?, lookup?] at hk
    rw [equalEntries?, equalEntries?]
    cases hx : xs.find? fun e ↦ k == e.1 with
    | none =>
      cases hy : ys.find? fun e ↦ k == e.1 with
      | none => rfl
      | some f =>
        rw [hx, hy] at hk
        cases hk
    | some e =>
      cases hy : ys.find? fun e ↦ k == e.1 with
      | none =>
        rw [hx, hy] at hk
        cases hk
      | some f =>
        rw [hx, hy] at hk
        cases hk with
        | some hef =>
          refine toOption_bind_congr (toOption_equal?_congr v hef) fun b ↦ ?_
          cases b with
          | true => exact toOption_equalEntries?_congr vs h
          | false => rfl

end

theorem toOption_equalValues (v x : Literal) :
    (v.equalValues x).toOption = (v.equal? x).toOption := by
  rw [equalValues]
  cases v.equal? x <;> rfl

/-- Literals of one tag that are no lists are scalars of one key, or dictionaries. -/
theorem IsLeaf.cases_of_tag {u v : Literal} {t : Tag} (hu : IsLeaf u t) (hv : IsLeaf v t) :
    (∃ s s', u = .scalar s ∧ v = .scalar s' ∧ s.key = s'.key) ∨
      ∃ entries entries', u = .dict entries ∧ v = .dict entries' := by
  cases hu with
  | dict entries =>
    cases hv with
    | dict entries' => exact .inr ⟨entries, entries', rfl, rfl⟩
  | scalar s =>
    generalize hk : Tag.key s.key = k at hv
    cases hv with
    | scalar s' => exact .inl ⟨s, s', rfl, rfl, Tag.key.inj hk⟩
    | dict => cases hk

/-- Whether literals that are no lists have a kind, and whether they are texts, is seen by their
tags. -/
theorem any_kind?_congr {us vs : List Literal} {ts : List Tag} (hus : List.Forall₂ IsLeaf us ts)
    (hvs : List.Forall₂ IsLeaf vs ts) :
    us.any (fun v ↦ v.kind?.isNone) = vs.any (fun v ↦ v.kind?.isNone) ∧
      us.any (fun v ↦ v.kind? == some .string) = vs.any (fun v ↦ v.kind? == some .string) := by
  induction hus generalizing vs with
  | nil =>
    cases hvs
    exact ⟨rfl, rfl⟩
  | cons hu _ ih =>
    cases hvs with
    | cons hv hvs =>
      rw [List.any_cons, List.any_cons, List.any_cons, List.any_cons, (ih hvs).1, (ih hvs).2]
      rcases hu.cases_of_tag hv with ⟨s, s', rfl, rfl, hkey⟩ | ⟨entries, entries', rfl, rfl⟩
      · have hkind := Scalar.kind?_congr hkey
        exact ⟨congrArg (· || _) hkind.1, congrArg (· || _) hkind.2⟩
      · exact ⟨rfl, rfl⟩

/-- In the order of values, too, a boolean taken from a table sees of a list its tag only. -/
theorem toOption_flagOrders_congr (b : Bool) (h : (list xs).tag = (list ys).tag) :
    (flagOrders op b xs).toOption = (flagOrders op b ys).toOption := by
  have hxs : List.Forall₂ IsLeaf (leavesOfList xs) (list ys).tag.leaves :=
    h ▸ isLeaf_leaves (.list xs)
  have hys : List.Forall₂ IsLeaf (leavesOfList ys) (list ys).tag.leaves := isLeaf_leaves (.list ys)
  rw [flagOrders, flagOrders]
  generalize leavesOfList xs = us, leavesOfList ys = vs, (list ys).tag.leaves = ts at hxs hys
  rw [(any_kind?_congr hxs hys).1, (any_kind?_congr hxs hys).2]
  split
  · rfl
  split
  · rfl
  -- only a single scalar is compared with the boolean
  cases hxs with
  | nil =>
    cases hys
    rfl
  | cons hu hus =>
    cases hys with
    | cons hv hvs =>
      cases hus with
      | cons =>
        cases hvs
        simp
      | nil =>
        cases hvs
        rcases hu.cases_of_tag hv with ⟨s, s', rfl, rfl, hkey⟩ | ⟨entries, entries', rfl, rfl⟩
        · show (Scalar.orders op (.flag b) s).toOption = (Scalar.orders op (.flag b) s').toOption
          rw [Scalar.toOption_orders, Scalar.toOption_orders, hkey]
        · rfl

theorem orders_list_scalar {b : Scalar} (hb : b.isFlag = false) :
    orders op (.list xs) (.scalar b) = .error .incomparable := by
  cases b with
  | flag b => cases hb
  | _ => simp [orders]

mutual

/-- **A literal stands in one order to literals that are alike**, as far as there is an order. -/
theorem toOption_orders_congr : ∀ (v : Literal) {x y : Literal}, Alike x y →
    (orders op v x).toOption = (orders op v y).toOption
  | .scalar a, _, _, .scalar hkey _ => by
    rw [orders, orders, Scalar.toOption_orders, Scalar.toOption_orders, hkey]
  | .scalar a, _, _, .list h => by
    cases a with
    | flag b => exact toOption_flagOrders_congr b (Alike.list h).tag_eq
    | _ => simp [orders]
  | .scalar a, _, _, .dict _ _ => by simp [orders]
  | .list vs, _, _, .scalar (b := b) (c := c) hkey hflag => by
    cases hb : b.isFlag with
    | true => rw [Scalar.eq_of_isFlag hb (hflag ▸ hb) hkey]
    | false => rw [orders_list_scalar hb, orders_list_scalar (hflag ▸ hb)]
  | .list vs, _, _, .list h => toOption_ordersList_congr vs h
  | .list vs, _, _, .dict _ _ => by simp [orders]
  | .dict vs, _, _, .scalar _ _ => by simp [orders]
  | .dict vs, _, _, .list _ => by simp [orders]
  | .dict vs, _, _, .dict _ _ => by simp [orders]

theorem toOption_ordersList_congr : ∀ (vs : List Literal) {xs ys : List Literal},
    List.Forall₂ Alike xs ys → (ordersList op vs xs).toOption = (ordersList op vs ys).toOption
  | [], _, _, .nil => rfl
  | _ :: _, _, _, .nil => rfl
  | [], _, _, .cons _ _ => rfl
  | v :: vs, _, _, .cons hx hxs => by
    rw [ordersList, ordersList]
    refine toOption_bind_congr ?_ fun b ↦ ?_
    · rw [toOption_equalValues, toOption_equalValues, toOption_equal?_congr v hx]
    · cases b with
      | true => exact toOption_ordersList_congr vs hxs
      | false => exact toOption_orders_congr v hx

end

end Literal

end RuleCoverage
