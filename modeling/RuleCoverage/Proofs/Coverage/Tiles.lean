import RuleCoverage.Proofs.Coverage.Operations

/-!
# Fragments that do not overlap

Fragments *tile* a region if just one of them holds where the region is, and none elsewhere.  What
the operations on fragments do to the regions that are tiled is said for a single row and a single
scale, so a region is a truth value here (`Fragment.Tile`); simplification has to keep what the row
judges (`Simplifier.Keeps`).

## What is here

* `Fragment.depth_difference`, `Coverage.tile_remainder` — taking fragments away.
* `Coverage.tile_toFragments` — the fragments of a selector tile what it selects.
* `Coverage.depth_compact` — joining fragments of equal scale ranges.
-/

set_option autoImplicit false

namespace RuleCoverage

variable {row : Row} {schema? : Option Schema} {x : Double} {simplify : Simplifier}
  {P : Predicate → Prop}

namespace Interval

variable {a b c : Interval}

theorem contains_intersect? (h : a.intersect? b = some c) :
    c.contains x = (a.contains x && b.contains x) := by
  have hmem := mem_intersect? a b x.toEReal
  simp only [h, Option.some.injEq, exists_eq_left', ← contains_iff_mem] at hmem
  rw [Bool.eq_iff_iff, Bool.and_eq_true, hmem]

theorem contains_of_intersect?_eq_none (h : a.intersect? b = none) :
    (a.contains x && b.contains x) = false := by
  have hmem := mem_intersect? a b x.toEReal
  simp only [h, reduceCtorEq, false_and, exists_false, ← contains_iff_mem] at hmem
  rw [Bool.eq_false_iff, Ne, Bool.and_eq_true, ← hmem]
  exact id

theorem contains_congr (h : (a == b) = true) : a.contains x = b.contains x := by
  rw [Bool.eq_iff_iff, contains_iff_mem, contains_iff_mem, mem_congr h]

theorem contains_of_isEmpty (h : a.isEmpty = true) : a.contains x = false := by
  rw [Bool.eq_false_iff, Ne, contains_iff_mem]
  exact a.isEmpty_iff_forall.1 h _

end Interval

/-! ## Tiles -/

namespace Fragment

variable {a b : Fragment} {fs gs : List Fragment} {region region' : Bool}

/-- The row judges the fragments, and just one of them holds if the region has the row at the scale,
and none if it has not. -/
structure Tile (row : Row) (schema? : Option Schema) (x : Double) (fs : List Fragment)
    (region : Bool) : Prop where
  judged : ∀ f ∈ fs, row.Judges schema? f.predicate
  depth : depth row x fs = region.toNat

/-- Some of the fragments hold just where the region is. -/
theorem Tile.any_holds (h : Tile row schema? x fs region) : fs.any (holds row x) = region := by
  rw [any_holds_eq, h.depth]
  cases region <;> rfl

theorem tile_nil : Tile row schema? x [] false := ⟨nofun, rfl⟩

theorem tile_singleton (ha : row.Judges schema? a.predicate) :
    Tile row schema? x [a] (a.holds row x) :=
  ⟨by simpa using ha, by simp⟩

theorem Tile.append (hfs : Tile row schema? x fs region) (hgs : Tile row schema? x gs region')
    (h : (region && region') = false) : Tile row schema? x (fs ++ gs) (region || region') where
  judged f hf := (List.mem_append.1 hf).elim (hfs.judged f) (hgs.judged f)
  depth := by
    rw [depth_append, hfs.depth, hgs.depth]
    revert h
    cases region <;> cases region' <;> simp

/-! ## Taking away a fragment -/

/-- Rectangles with one predicate hold as often as their scale ranges have the scale. -/
theorem depth_map_mk (ivs : List Interval) (p : Predicate) :
    depth row x (ivs.map fun iv ↦ ⟨iv, p⟩) =
      if p.isTrueOf row then ivs.countP (·.contains x) else 0 := by
  rw [depth, List.countP_map]
  dsimp only [Function.comp_def, holds]
  cases p.isTrueOf row <;> simp

/-- **A difference holds where the one fragment holds and the other does not**, and no more than
once.  The predicates are of a class that simplification keeps. -/
theorem depth_difference (hs : simplify.KeepsOn row P) (ha : P a.predicate) (hb : P b.predicate)
    (h : a.difference simplify b = .ok fs) :
    (∀ f ∈ fs, P f.predicate) ∧ depth row x fs = (a.holds row x && !b.holds row x).toNat := by
  rcases difference_cases h with ⟨hnone, rfl⟩ | ⟨shared, inside, hshared, hinside, rfl⟩
  · refine ⟨List.forall_mem_singleton.2 ha, ?_⟩
    have hdisjoint := Interval.contains_of_intersect?_eq_none (x := x) hnone
    rw [depth_cons, depth_nil, holds, holds]
    revert hdisjoint
    cases a.scale.contains x <;> cases b.scale.contains x <;> simp
  · have hnot := hs.not hb
    have htrue := hs.isTrueOf_eq (hs.and ha hnot) hinside
    rw [Predicate.isTrueOf_and (hs.exists_holds ha) (hs.exists_holds hnot),
      Predicate.isTrueOf_not (hs.exists_holds hb)] at htrue
    refine ⟨?_, ?_⟩
    · intro f hf
      rcases List.mem_append.1 hf with hf | hf
      · obtain ⟨iv, -, rfl⟩ := List.mem_map.1 hf
        exact ha
      · split at hf
        · cases hf
        · rw [List.mem_singleton.1 hf]
          exact (hs.keeps (hs.and ha hnot) hinside).1
    · -- what is dropped can never hold
      have hdepth : depth row x (if inside == .never then [] else [⟨shared, inside⟩]) =
          (shared.contains x && inside.isTrueOf row).toNat := by
        split
        · rename_i hnever
          rw [Predicate.eq_never_of_beq hnever, Predicate.isTrueOf_never, Bool.and_false]
          rfl
        · rw [depth_cons, depth_nil, Nat.add_zero]
          rfl
      rw [depth_append, depth_map_mk, hdepth, htrue, Interval.contains_intersect? hshared,
        Interval.countP_subtract, holds, holds]
      cases a.scale.contains x <;> cases b.scale.contains x <;> cases a.predicate.isTrueOf row <;>
        cases b.predicate.isTrueOf row <;> rfl

/-- A difference tiles what the one fragment has and the other has not. -/
theorem tile_difference (hs : simplify.Keeps row schema?) (ha : row.Judges schema? a.predicate)
    (hb : row.Judges schema? b.predicate) (h : a.difference simplify b = .ok fs) :
    Tile row schema? x fs (a.holds row x && !b.holds row x) := by
  obtain ⟨hjudged, hdepth⟩ := depth_difference (x := x) hs.keepsOn ha hb h
  exact ⟨hjudged, hdepth⟩

/-- Taking a fragment away from each of some fragments that tile a region takes it away from the
region. -/
theorem Tile.differenceAll (hs : simplify.Keeps row schema?) (hfs : Tile row schema? x fs region)
    (hb : row.Judges schema? b.predicate) (h : differenceAll simplify fs b = .ok gs) :
    Tile row schema? x gs (region && !b.holds row x) := by
  obtain ⟨parts, hparts, rfl⟩ := map_eq_ok.1 h
  have hdepth : (∀ f ∈ parts.flatten, row.Judges schema? f.predicate) ∧
      Fragment.depth row x parts.flatten =
        if b.holds row x then 0 else Fragment.depth row x fs := by
    have hjudged := hfs.judged
    clear hfs h
    induction mapM_eq_ok.1 hparts with
    | nil =>
      refine ⟨nofun, ?_⟩
      split <;> rfl
    | @cons f part fs parts hpart htail ih =>
      have htile := tile_difference (x := x) hs (hjudged f List.mem_cons_self) hb hpart
      obtain ⟨hrest, hdepth⟩ := ih (mapM_eq_ok.2 htail) fun g hg ↦
        hjudged g (List.mem_cons_of_mem _ hg)
      rw [List.flatten_cons, depth_append, depth_cons, htile.depth, hdepth]
      refine ⟨fun g hg ↦ (List.mem_append.1 hg).elim (htile.judged g) (hrest g), ?_⟩
      cases b.holds row x <;> simp
  refine ⟨hdepth.1, hdepth.2.trans ?_⟩
  rw [hfs.depth]
  cases b.holds row x <;> simp

end Fragment

namespace Coverage

variable {c : Coverage} {fs gs done pieces : List Fragment} {region : Bool}

/-- **Taking fragments away one after another takes away all that they have.** -/
theorem tile_remainder (hs : simplify.Keeps row schema?)
    (hfs : Fragment.Tile row schema? x fs region) (hgs : ∀ g ∈ gs, row.Judges schema? g.predicate)
    (h : remainder simplify fs gs = .ok pieces) :
    Fragment.Tile row schema? x pieces (region && !gs.any (Fragment.holds row x)) := by
  induction gs generalizing fs region with
  | nil =>
    cases h
    simpa using hfs
  | cons g gs ih =>
    obtain ⟨rest, hrest, h⟩ := bind_eq_ok.1 h
    have htile := hfs.differenceAll hs (hgs g List.mem_cons_self) hrest
    have hpieces := ih htile (fun f hf ↦ hgs f (List.mem_cons_of_mem _ hf)) h
    rwa [Bool.and_assoc, ← Bool.not_or, ← List.any_cons] at hpieces

/-! ## From selectors to fragments -/

/-- The clauses of a selector without nesting are its leaves. -/
theorem clauses_eq {s : Selector} {cs : List Clause} (h : clauses s = .ok cs) : cs = s.leaves := by
  cases s with
  | clause c =>
    cases h
    rfl
  | anyOf children =>
    rw [Selector.leaves]
    induction mapM_eq_ok.1 h with
    | nil => rfl
    | @cons s c children cs hs htail ih =>
      rw [Selector.leavesList, ← ih (mapM_eq_ok.2 htail)]
      cases s with
      | clause d =>
        cases hs
        rfl
      | anyOf => cases hs

/-- Scale zero, or a disjunction within the disjunction. -/
def nestedSelector : Selector := .anyOf [.scaleRange (.point .zero), .anyOf [.data .always]]

/-- A disjunction within a disjunction is not taken apart, whatever stands before it. -/
theorem toFragments_nested {s : Selector} {children inner : List Selector} (c : Coverage)
    (hs : s = .anyOf children) (hinner : .anyOf inner ∈ children) :
    c.toFragments s = .error .nestedOr := by
  have hclauses : clauses s = .error .nestedOr := by
    rw [hs, clauses]
    clear hs
    induction children with
    | nil => cases hinner
    | cons child rest ih =>
      rw [List.mapM_cons]
      cases child with
      | anyOf => rfl
      | clause d =>
        rw [ih ((List.mem_cons.1 hinner).resolve_left nofun)]
        rfl
  rw [toFragments, hclauses]
  rfl

/-- Adding a rectangle adds what it has. -/
theorem Places.spec {scale : Interval} {p : Predicate} (h : Places simplify scale p fs gs)
    (hs : simplify.Keeps row schema?) (hp : row.Judges schema? p)
    (hfs : ∀ f ∈ fs, row.Judges schema? f.predicate) :
    (∀ g ∈ gs, row.Judges schema? g.predicate) ∧ gs.any (Fragment.holds row x) =
      (fs.any (Fragment.holds row x) || (scale.contains x && p.isTrueOf row)) := by
  induction h with
  | last => exact ⟨by simpa using hp, by simp [Fragment.holds]⟩
  | @join f fs q hscale hq =>
    obtain ⟨hf, hrest⟩ := List.forall_mem_cons.1 hfs
    obtain ⟨hjudged, htrue⟩ := hs _ _ (hf.or hp) hq
    refine ⟨List.forall_mem_cons.2 ⟨hjudged, hrest⟩, ?_⟩
    rw [List.any_cons, List.any_cons, Fragment.holds, Fragment.holds,
      Interval.contains_congr hscale, htrue,
      Predicate.isTrueOf_or hf.exists_holds hp.exists_holds]
    cases scale.contains x <;> cases f.predicate.isTrueOf row <;> simp [Bool.or_comm]
  | behind _ ih =>
    obtain ⟨hf, hrest⟩ := List.forall_mem_cons.1 hfs
    obtain ⟨hjudged, hany⟩ := ih hrest
    refine ⟨List.forall_mem_cons.2 ⟨hf, hjudged⟩, ?_⟩
    rw [List.any_cons, List.any_cons, hany, Bool.or_assoc]

/-- The rectangles of some clauses hold where one of the clauses selects. -/
theorem Gathers.spec {cs : List Clause} (h : c.Gathers fs cs gs)
    (hs : Simplifier.Keeps c.simplify row schema?)
    (hcs : ∀ clause ∈ cs, row.Judges schema? clause.predicate)
    (hfs : ∀ f ∈ fs, row.Judges schema? f.predicate) :
    (∀ g ∈ gs, row.Judges schema? g.predicate) ∧ gs.any (Fragment.holds row x) =
      (fs.any (Fragment.holds row x) || cs.any (Clause.selects row x)) := by
  induction h with
  | nil => exact ⟨hfs, by simp⟩
  | skip hempty _ ih =>
    obtain ⟨hjudged, hany⟩ := ih (List.forall_mem_cons.1 hcs).2 hfs
    refine ⟨hjudged, hany.trans ?_⟩
    rw [List.any_cons, Clause.selects, Interval.contains_of_isEmpty hempty, Bool.false_and,
      Bool.false_or]
  | place _ hplaced _ ih =>
    obtain ⟨hclause, hcs⟩ := List.forall_mem_cons.1 hcs
    obtain ⟨hjudged, hany⟩ := hplaced.spec (x := x) hs hclause hfs
    obtain ⟨hjudged', hany'⟩ := ih hcs hjudged
    refine ⟨hjudged', hany'.trans ?_⟩
    rw [hany, List.any_cons, Bool.or_assoc]
    rfl

/-- Fragments that were made disjoint tile what any of them has. -/
theorem tile_disjoint (hs : simplify.Keeps row schema?)
    (hdone : Fragment.Tile row schema? x done region)
    (hfs : ∀ f ∈ fs, row.Judges schema? f.predicate) (h : disjoint simplify done fs = .ok gs) :
    Fragment.Tile row schema? x gs (region || fs.any (Fragment.holds row x)) := by
  induction fs generalizing done region with
  | nil =>
    cases h
    simpa using hdone
  | cons f fs ih =>
    obtain ⟨rest, hrest, h⟩ := bind_eq_ok.1 h
    have hnew := tile_remainder hs (Fragment.tile_singleton (x := x) (hfs f List.mem_cons_self))
      hdone.judged hrest
    rw [hdone.any_holds] at hnew
    have hdisjoint : (region && (f.holds row x && !region)) = false := by
      cases region <;> simp
    have htile := ih (hdone.append hnew hdisjoint) (fun g hg ↦ hfs g (List.mem_cons_of_mem _ hg)) h
    have hunion : (region || (f.holds row x && !region)) = (region || f.holds row x) := by
      cases region <;> simp
    rwa [hunion, Bool.or_assoc, ← List.any_cons] at htile

/-- **The fragments of a selector tile what it selects.** -/
theorem tile_toFragments (hs : Simplifier.Keeps c.simplify row schema?) {s : Selector}
    (hjudged : s.JudgedBy row schema?) (h : c.toFragments s = .ok fs) :
    Fragment.Tile row schema? x fs (s.selects row x) := by
  obtain ⟨cs, hcs, h⟩ := bind_eq_ok.1 h
  obtain ⟨rects, hrects, h⟩ := bind_eq_ok.1 h
  rw [clauses_eq hcs] at hrects
  obtain ⟨hrects', hany⟩ :=
    (gathers_of_rectangles hrects).spec (x := x) hs hjudged (List.forall_mem_nil _)
  have htile := tile_disjoint hs (Fragment.tile_nil (x := x)) hrects' h
  rwa [hany, List.any_nil, Bool.false_or, Bool.false_or] at htile

/-! ## Joining fragments -/

/-- **Joining fragments of equal scale ranges keeps where they hold**, and none more often than
before.  The predicates are of a class that simplification keeps. -/
theorem Joins.depth (h : Joins simplify done fs gs) (hs : simplify.KeepsOn row P)
    (hdone : ∀ f ∈ done, P f.predicate) (hfs : ∀ f ∈ fs, P f.predicate) :
    (∀ g ∈ gs, P g.predicate) ∧
      Fragment.depth row x gs ≤ Fragment.depth row x done + Fragment.depth row x fs ∧
      (Fragment.depth row x gs = 0 → Fragment.depth row x done + Fragment.depth row x fs = 0) := by
  induction h with
  | @nil done =>
    refine ⟨fun g hg ↦ hdone g (List.mem_reverse.1 hg), ?_⟩
    rw [Fragment.depth_perm (List.reverse_perm done), Fragment.depth_nil]
    omega
  | @join last f before fs gs p hscale hp _ ih =>
    obtain ⟨hf, hrest⟩ := List.forall_mem_cons.1 hfs
    obtain ⟨hlast, hbefore⟩ := List.forall_mem_cons.1 hdone
    have hjoined : Fragment.holds row x ⟨last.scale, p⟩ = (f.holds row x || last.holds row x) := by
      rw [Fragment.holds, Fragment.holds, Fragment.holds, hs.isTrueOf_eq (hs.or hf hlast) hp,
        Predicate.isTrueOf_or (hs.exists_holds hf) (hs.exists_holds hlast),
        Interval.contains_congr hscale, ← Bool.and_or_distrib_left]
    have hnew := (hs.keeps (hs.or hf hlast) hp).1
    obtain ⟨hgs, hle, hzero⟩ := ih (List.forall_mem_cons.2 ⟨hnew, hbefore⟩) hrest
    rw [Fragment.depth_cons, hjoined] at hle hzero
    rw [Fragment.depth_cons, Fragment.depth_cons]
    refine ⟨hgs, ?_⟩
    revert hle hzero
    cases f.holds row x <;> cases last.holds row x <;>
      simp only [Bool.or_false, Bool.or_true, Bool.toNat_true, Bool.toNat_false] <;> omega
  | next _ _ ih =>
    obtain ⟨hf, hrest⟩ := List.forall_mem_cons.1 hfs
    obtain ⟨hgs, hle, hzero⟩ := ih (List.forall_mem_cons.2 ⟨hf, hdone⟩) hrest
    rw [Fragment.depth_cons] at hle hzero ⊢
    exact ⟨hgs, by omega, by omega⟩

/-- Two fragments that are in order stay as they are. -/
theorem compact_pair {f g : Fragment} (h : f.scale.precedes g.scale = true)
    (hne : (f.scale == g.scale) = false) : c.compact [f, g] = .ok [f, g] := by
  have hsorted : [f, g].mergeSort (fun f g ↦ f.scale.precedes g.scale) = [f, g] :=
    List.mergeSort_of_pairwise (by simpa using h)
  rw [compact, hsorted, joinEqual, joinEqual, hne]
  rfl

/-- **Bringing fragments into order keeps where they hold**, and none more often than before. -/
theorem depth_compact (hs : Simplifier.KeepsOn c.simplify row P) (hfs : ∀ f ∈ fs, P f.predicate)
    (h : c.compact fs = .ok gs) : (∀ g ∈ gs, P g.predicate) ∧
      Fragment.depth row x gs ≤ Fragment.depth row x fs ∧
      (Fragment.depth row x gs = 0 → Fragment.depth row x fs = 0) := by
  have hperm := List.mergeSort_perm fs fun f g ↦ f.scale.precedes g.scale
  have hjoined := (joins_of_joinEqual h).depth (x := x) hs (List.forall_mem_nil _)
    fun f hf ↦ hfs f (hperm.mem_iff.1 hf)
  rwa [Fragment.depth_nil, Nat.zero_add, Fragment.depth_perm hperm] at hjoined

/-- Bringing fragments into order keeps what they tile. -/
theorem tile_compact (hs : Simplifier.Keeps c.simplify row schema?)
    (hfs : Fragment.Tile row schema? x fs region) (h : c.compact fs = .ok gs) :
    Fragment.Tile row schema? x gs region := by
  obtain ⟨hjudged, hle, hzero⟩ := depth_compact (x := x) hs.keepsOn hfs.judged h
  refine ⟨hjudged, ?_⟩
  rw [hfs.depth] at hle hzero
  revert hle hzero
  cases region <;> simp only [Bool.toNat_true, Bool.toNat_false] <;> omega

end Coverage

end RuleCoverage
