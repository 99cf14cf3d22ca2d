import RuleCoverage.Proofs.Coverage.Tiles
import RuleCoverage.Proofs.Predicate.SingleRow

/-!
# Adding a rule

A rule that is added to a coverage claims what it selects and the coverage has not got
(`Coverage.addRule_spec`): the coverage grows by just that, and the pieces of the rule are disjoint
and select just that.

## What is here

* `Coverage.addRule_cases` — the three outcomes of adding a rule.
* `Coverage.addRule_spec` — what the coverage and the pieces are afterwards.
* `Coverage.covers_toFrame` — asking a coverage about a table of one row.
-/

set_option autoImplicit false

namespace RuleCoverage

variable {π : Type} {row : Row} {x : Double}

namespace Rule

variable {r q : Rule π}

/-- The rule selects the row at the scale. -/
def selects (row : Row) (x : Double) (r : Rule π) : Bool := r.selector.selects row x

/-- The rule is the other one or a piece of it. -/
def IsPieceOf (q r : Rule π) : Prop := q = r ∨ ∃ s, q = r.derive s

theorem countP_derive (r : Rule π) (fs : List Fragment) :
    (fs.map fun f ↦ r.derive f.toSelector).countP (selects row x) = Fragment.depth row x fs := by
  rw [List.countP_map, Fragment.depth]
  exact List.countP_congr fun f _ ↦ by
    rw [Function.comp_apply, selects, derive, Fragment.selects_toSelector]

end Rule

namespace Coverage

variable {c next : Coverage} {r : Rule π} {pieces : List (Rule π)} {region : Bool}

/-- What adding a rule does: the first rule is kept whole, a rule that has nothing new leaves the
coverage as it is, and the new fragments of any other join the old ones. -/
theorem addRule_cases (h : c.addRule r = .ok (pieces, next)) :
    ∃ incoming, c.toFragments r.selector = .ok incoming ∧
      ((c.fragments = [] ∧ pieces = [r] ∧ next = { c with fragments := incoming }) ∨
       ∃ left, remainder c.simplify incoming c.fragments = .ok left ∧
         ((left = [] ∧ pieces = [] ∧ next = c) ∨
          ∃ fs, c.compact (c.fragments ++ left) = .ok fs ∧
            pieces = left.map (fun f ↦ r.derive f.toSelector) ∧
            next = { c with fragments := fs })) := by
  obtain ⟨incoming, hincoming, h⟩ := bind_eq_ok.1 h
  refine ⟨incoming, hincoming, ?_⟩
  split at h
  · rename_i hempty
    obtain ⟨rfl, rfl⟩ := Prod.mk.inj (Except.ok.inj h)
    exact .inl ⟨List.isEmpty_iff.1 hempty, rfl, rfl⟩
  obtain ⟨left, hleft, h⟩ := bind_eq_ok.1 h
  refine .inr ⟨left, hleft, ?_⟩
  split at h
  · rename_i hnothing
    obtain ⟨rfl, rfl⟩ := Prod.mk.inj (Except.ok.inj h)
    exact .inl ⟨List.isEmpty_iff.1 hnothing, rfl, rfl⟩
  obtain ⟨fs, hfs, h⟩ := bind_eq_ok.1 h
  obtain ⟨rfl, rfl⟩ := Prod.mk.inj (Except.ok.inj h)
  exact .inr ⟨fs, hfs, rfl, rfl⟩

/-- A rule of which one fragment is left, after the only one that there is. -/
theorem addRule_of_pair {f g : Fragment} {incoming : List Fragment} (hc : c.fragments = [f])
    (hin : c.toFragments r.selector = .ok incoming)
    (hleft : remainder c.simplify incoming c.fragments = .ok [g])
    (hbefore : f.scale.precedes g.scale = true) (hne : (f.scale == g.scale) = false) :
    c.addRule r = .ok ([r.derive g.toSelector], { c with fragments := [f, g] }) := by
  have hpair := c.compact_pair hbefore hne
  obtain ⟨schema, config, fragments⟩ := c
  subst hc
  exact bind_eq_ok.2 ⟨_, hin, bind_eq_ok.2 ⟨_, hleft, bind_eq_ok.2 ⟨_, hpair, rfl⟩⟩⟩

/-- What predicates are read against never changes. -/
theorem addRule_schema (h : c.addRule r = .ok (pieces, next)) : next.schema = c.schema := by
  obtain ⟨_, -, ⟨-, -, rfl⟩ | ⟨_, -, ⟨-, -, rfl⟩ | ⟨_, -, -, rfl⟩⟩⟩ := addRule_cases h <;> rfl

theorem isPieceOf_of_addRule (h : c.addRule r = .ok (pieces, next)) :
    ∀ q ∈ pieces, q.IsPieceOf r := by
  intro q hq
  obtain ⟨_, -, ⟨-, rfl, -⟩ | ⟨left, -, ⟨-, rfl, -⟩ | ⟨_, -, rfl, -⟩⟩⟩ := addRule_cases h
  · exact .inl (List.mem_singleton.1 hq)
  · cases hq
  · obtain ⟨f, -, rfl⟩ := List.mem_map.1 hq
    exact .inr ⟨_, rfl⟩

/-- **Adding a rule claims what the rule selects, and its pieces select what had not been claimed**,
no two of them the same. -/
theorem addRule_spec (hrow : row.Conforms c.schema)
    (hc : Fragment.Tile row c.schema x c.fragments region)
    (hr : r.selector.JudgedBy row c.schema) (h : c.addRule r = .ok (pieces, next)) :
    Fragment.Tile row c.schema x next.fragments (region || r.selects row x) ∧
      pieces.countP (Rule.selects row x) = (r.selects row x && !region).toNat := by
  have hs := c.keeps_simplify hrow
  obtain ⟨incoming, hincoming, hcases⟩ := addRule_cases h
  have htile := tile_toFragments (x := x) hs hr hincoming
  change Fragment.Tile row c.schema x incoming (r.selects row x) at htile
  rcases hcases with ⟨hempty, rfl, rfl⟩ | ⟨left, hleft, hcases⟩
  · -- nothing was claimed before
    have hregion : region = false := by
      have hdepth := hc.depth
      rw [hempty, Fragment.depth_nil] at hdepth
      cases region
      · rfl
      · cases hdepth
    rw [hregion, Bool.false_or, Bool.not_false, Bool.and_true, List.countP_singleton]
    refine ⟨htile, ?_⟩
    cases r.selects row x <;> rfl
  have hnew := tile_remainder hs htile hc.judged hleft
  rw [hc.any_holds] at hnew
  rcases hcases with ⟨rfl, rfl, rfl⟩ | ⟨fs, hfs, rfl, rfl⟩
  · -- the rule selects nothing new
    have hnone : (r.selects row x && !region) = false := by
      have hdepth := hnew.depth
      rw [Fragment.depth_nil] at hdepth
      revert hdepth
      cases (r.selects row x && !region) <;> simp
    have hunion : (region || r.selects row x) = region := by
      revert hnone
      cases region <;> cases r.selects row x <;> simp
    rw [hunion, hnone]
    exact ⟨hc, rfl⟩
  · have hdisjoint : (region && (r.selects row x && !region)) = false := by
      cases region <;> simp
    have hunion : (region || (r.selects row x && !region)) = (region || r.selects row x) := by
      cases region <;> simp
    have hall := tile_compact hs (hc.append hnew hdisjoint) hfs
    rw [hunion] at hall
    exact ⟨hall, (Rule.countP_derive r left).trans hnew.depth⟩

end Coverage

/-! ## Asking about one row -/

/-- A fragment holds of the table of a single row when it holds of the row. -/
theorem Fragment.mask_toFrame {f : Fragment} (hf : ∃ r, f.predicate.holds row = .ok r) :
    f.mask row.tests row.toFrame (.double x) = .ok [f.holds row x] := by
  obtain ⟨r, hr⟩ := hf
  show (if f.scale.contains x = true then f.predicate.mask row.tests row.toFrame
    else .ok (List.replicate row.toFrame.rows false)) = _
  rw [Fragment.holds, Predicate.isTrueOf_of_holds hr]
  split
  · rename_i hin
    rw [Predicate.mask_toFrame, hr, hin, Bool.true_and]
    rfl
  · rename_i hout
    rw [Bool.eq_false_iff.2 hout, Bool.false_and]
    rfl

/-- **A coverage covers the table of a single row where one of its fragments holds.** -/
theorem Coverage.covers_toFrame {c : Coverage}
    (hc : ∀ f ∈ c.fragments, ∃ r, f.predicate.holds row = .ok r) :
    c.covers row.tests row.toFrame (.double x) = .ok [c.fragments.any (Fragment.holds row x)] := by
  have hfold : ∀ (fs : List Fragment) (b : Bool), (∀ f ∈ fs, ∃ r, f.predicate.holds row = .ok r) →
      fs.foldlM (fun covered f ↦ do
        return List.zipWith (· || ·) covered (← f.mask row.tests row.toFrame (.double x))) [b] =
        (.ok [b || fs.any (Fragment.holds row x)] : Except Error (List Bool)) := by
    intro fs
    induction fs with
    | nil =>
      intro b _
      rw [List.any_nil, Bool.or_false]
      rfl
    | cons f fs ih =>
      intro b hfs
      rw [List.foldlM_cons, Fragment.mask_toFrame (hfs f List.mem_cons_self), List.any_cons,
        ← Bool.or_assoc]
      exact ih _ fun g hg ↦ hfs g (List.mem_cons_of_mem _ hg)
  exact (hfold c.fragments false hc).trans (by rw [Bool.false_or])

/-! ## Rules about numbers -/

namespace Rule

/-- The rule for everything. -/
def everything : Rule String := ⟨.data .always, "base", 0, none, none⟩

/-- The rule for two lanes. -/
def twoLanes : Rule String :=
  ⟨.data (.compare (.text "lanes") .eq (.int 2)), "wide", 0, none, none⟩

theorem judgedBy_everything : everything.selector.JudgedBy row none := by
  intro c hc
  obtain rfl := List.mem_singleton.1 hc
  trivial

theorem judgedBy_twoLanes {n : Int} (hn : n = 2 ∨ n = 3) :
    twoLanes.selector.JudgedBy (.ofInt "lanes" n) none := by
  intro c hc
  obtain rfl := List.mem_singleton.1 hc
  exact Row.knows_lanes hn

/-- The scales below one. -/
def nearScales : Interval := ⟨.zero, .one, true, false, by decide +kernel⟩

/-- The scales from one on. -/
def farScales : Interval := ⟨.one, .posInf, true, false, Double.one.key_bounds.2⟩

/-- Everything on the near scales. -/
def near : Rule String := ⟨.scaleRange nearScales, "near", 0, none, none⟩

theorem judgedBy_near : near.selector.JudgedBy row none := by
  intro c hc
  obtain rfl := List.mem_singleton.1 hc
  trivial

end Rule

/-- A number that is no double, as one of two alternatives on some scales. -/
def Selector.rounded (iv : Interval) : Selector :=
  .anyOf [.clause ⟨some iv, .never⟩, .clause ⟨some iv, .compare (.text "x") .eq (.int (2 ^ 53))⟩]

/-- The fragment of these alternatives holds of a row that neither of them selects. -/
theorem Coverage.exists_toFragments_rounded {iv : Interval} (hiv : iv.isEmpty = false)
    (fs : List Fragment) : ∃ q,
    toFragments { config := .withoutSearch, fragments := fs } (.rounded iv) = .ok [⟨iv, q⟩] ∧
      q.holds (.ofInt "x" (2 ^ 53 + 1)) = .ok true := by
  obtain ⟨q, hq, hr⟩ := Predicate.exists_simplify_rounded
  refine ⟨q, ?_, hr⟩
  have hsame : (iv == iv) = true := by simp [BEq.beq]
  have hplace : place (simplify { config := .withoutSearch, fragments := fs }) iv
      (.compare (.text "x") .eq (.int (2 ^ 53))) [⟨iv, .never⟩] = .ok [⟨iv, q⟩] := by
    rw [place, if_pos hsame]
    exact bind_eq_ok.2 ⟨q, hq, rfl⟩
  have hrest : rectangles { config := .withoutSearch, fragments := fs } [⟨iv, .never⟩]
      [⟨some iv, .compare (.text "x") .eq (.int (2 ^ 53))⟩] = .ok [⟨iv, q⟩] := by
    rw [rectangles, Option.getD_some, hiv, if_neg Bool.false_ne_true]
    exact bind_eq_ok.2 ⟨_, rfl, bind_eq_ok.2 ⟨_, hplace, rfl⟩⟩
  have hall : rectangles { config := .withoutSearch, fragments := fs } []
      [⟨some iv, .never⟩, ⟨some iv, .compare (.text "x") .eq (.int (2 ^ 53))⟩] =
        .ok [⟨iv, q⟩] := by
    rw [rectangles, Option.getD_some, hiv, if_neg Bool.false_ne_true]
    exact bind_eq_ok.2 ⟨_, rfl, bind_eq_ok.2 ⟨_, rfl, hrest⟩⟩
  exact bind_eq_ok.2 ⟨_, rfl, bind_eq_ok.2 ⟨_, hall, rfl⟩⟩

end RuleCoverage
