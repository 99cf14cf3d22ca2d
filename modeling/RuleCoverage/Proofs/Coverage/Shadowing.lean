import RuleCoverage.Proofs.Coverage.Cutting
import RuleCoverage.Proofs.Coverage.Region

/-!
# What a rule has left

A rule that is added to a coverage keeps the points that the coverage has not got.  Read against a
schema, simplification finds out whenever nothing is left of a predicate, so a rule is shadowed just
when all of its points were there before, and otherwise each of its pieces has points of its own.

This asks that the rule has no dead clauses itself.  A predicate is looked into only where its
scales meet those of another fragment: a clause that can never hold passes through unseen elsewhere
(`Coverage.addRule_stillborn`).

## What is here

* `Fragment.Live`, `Coverage.live_toFragments`, `Coverage.live_remainder` — fragments with points
  are cut into fragments with points.
* `Coverage.live_of_addRule`, `Coverage.addRule_shadows` — the pieces of a rule without dead clauses
  are live, and shadowing is exact.
-/

set_option autoImplicit false

namespace RuleCoverage

variable {schema : Schema} {simplify : Simplifier}

/-- A simplification keeps the truth under every assignment, and what it does not find to be
unsatisfiable is satisfiable. -/
structure Simplifier.Decides (simplify : Simplifier) (schema : Schema) : Prop where
  keepsTruth : ∀ α : Assignment schema, simplify.KeepsTruth α
  satisfiable : ∀ p q, simplify p = .ok q → q ≠ .never → q.Satisfiable schema

theorem Coverage.decides_simplify {c : Coverage} (hcat : schema.HasPlainCategories)
    (hc : c.schema = some schema) : Simplifier.Decides c.simplify schema where
  keepsTruth := keepsTruth_simplify hcat hc
  satisfiable p q h hq := by
    rw [Coverage.simplify, hc] at h
    exact Predicate.satisfiable_of_simplify hcat h hq

/-! ## Live fragments -/

namespace Fragment

variable {f : Fragment}

/-- The scale range is not empty and the predicate can hold. -/
structure Live (schema : Schema) (f : Fragment) : Prop where
  scale : f.scale.isEmpty = false
  predicate : f.predicate.Satisfiable schema

theorem Live.exists_hasPoint (h : f.Live schema) :
    ∃ x, ∃ α : Assignment schema, f.HasPoint x α := by
  obtain ⟨α, hα⟩ := h.predicate
  have hscale : f.scale.lowCut < f.scale.highCut := by simpa [Interval.isEmpty] using h.scale
  obtain ⟨x, hx⟩ := Interval.exists_mem hscale
  exact ⟨x, α, hx, hα⟩

/-- Fragments hand on that they are live.  The scales are never empty, and the predicate is the old
one or was found to be satisfiable. -/
theorem handedOn_live (hs : simplify.Decides schema) : HandedOn simplify (Live schema) where
  difference := by
    intro a b fs ha h f hf
    refine ⟨isEmpty_of_mem_difference h ha.scale hf, ?_⟩
    rcases mem_difference h hf with ⟨rfl, -⟩ | ⟨hpredicate, -⟩ | ⟨hinside, hne, -⟩
    · exact ha.predicate
    · exact hpredicate ▸ ha.predicate
    · exact hs.satisfiable _ _ hinside hne
  join := by
    -- what satisfies the one alternative satisfies both together
    intro f scale p q hf hnew hq
    obtain ⟨α, hα⟩ := hf.predicate
    exact ⟨hnew.scale, α, (hs.keepsTruth α _ _ hq).2 (.inl hα)⟩

end Fragment

namespace Coverage

variable {c : Coverage} {fs gs pieces : List Fragment}

theorem live_remainder (hs : simplify.Decides schema) (hfs : ∀ f ∈ fs, f.Live schema)
    (h : remainder simplify fs gs = .ok pieces) : ∀ f ∈ pieces, f.Live schema :=
  forall_remainder (Fragment.handedOn_live hs) hfs h

/-- Clauses are live where they have scales. -/
def ClausesLive (schema : Schema) (cs : List Clause) : Prop :=
  ∀ clause ∈ cs, clause.scales.isEmpty = false → clause.predicate.Satisfiable schema

/-- The fragments of a selector without dead clauses are live. -/
theorem live_toFragments (hs : Simplifier.Decides c.simplify schema) {s : Selector}
    (hlive : ClausesLive schema s.leaves) (h : c.toFragments s = .ok fs) :
    ∀ f ∈ fs, f.Live schema :=
  forall_toFragments (Fragment.handedOn_live hs)
    (fun clause hclause hscale ↦ ⟨hscale, hlive clause hclause hscale⟩) h

end Coverage

/-! ## Waterways -/

/-- The scales above zero. -/
def Interval.positive : Interval := { fullScaleRange with lowIncluded := false }

/-- Features of two classes. -/
def Schema.waterways : Schema := .ofCategories "class" (.ofList [.text "river", .text "canal"])

theorem Schema.hasPlainCategories_waterways : Schema.waterways.HasPlainCategories := by
  refine Schema.hasPlainCategories_ofCategories fun s hs ↦ ?_
  have hs' := Distinct.mem_of_mem_ofList hs
  simp only [List.mem_cons, List.not_mem_nil, or_false] at hs'
  rcases hs' with rfl | rfl <;> trivial

namespace Rule

/-- The rule for all features at scale zero. -/
def atZero : Rule String := ⟨.scaleRange (.point .zero), "", 0, none, none⟩

/-- The rule for rivers. -/
def rivers : Rule String :=
  ⟨.data (.compare (.text "class") .eq (.text "river")), "", 1, none, none⟩

/-- The scales from 0 up to 100. -/
def firstHundred : Interval := ⟨.zero, .nearest false 100 1, true, false, by decide +kernel⟩

/-- The scales from 200 up to 300. -/
def thirdHundred : Interval :=
  ⟨.nearest false 200 1, .nearest false 300 1, true, false, by decide +kernel⟩

/-- The rule for all features at the scales from 0 up to 100. -/
def upToHundred : Rule String := ⟨.scaleRange firstHundred, "", 0, none, none⟩

/-- A rule for no features, at the scales from 200 up to 300. -/
def stillborn : Rule String := ⟨.clause ⟨some thirdHundred, .never⟩, "", 1, none, none⟩

/-- There are rivers. -/
theorem clausesLive_rivers : Coverage.ClausesLive .waterways rivers.selector.leaves := by
  intro clause hclause _
  obtain rfl := List.mem_singleton.1 hclause
  have h : (Predicate.compare (.text "class") .eq (.text "river")).simplify (some .waterways) {} =
    .ok (.compare (.text "class") .eq (.text "river")) := by with_unfolding_all rfl
  exact Predicate.satisfiable_of_simplify Schema.hasPlainCategories_waterways h (by simp)

end Rule

namespace Coverage

/-- What has claimed all waterways at scale zero. -/
def ofZero : Coverage := after { schema := some .waterways } [.add Rule.atZero]

/-- Rivers are left over at the other scales. -/
theorem exists_addRule_rivers : ∃ next, ofZero.addRule Rule.rivers = .ok ([Rule.rivers.derive
    (.clause ⟨some .positive, .compare (.text "class") .eq (.text "river")⟩)], next) := by
  have hleft : remainder ofZero.simplify
      [⟨fullScaleRange, .compare (.text "class") .eq (.text "river")⟩] ofZero.fragments =
        .ok [⟨.positive, .compare (.text "class") .eq (.text "river")⟩] := by
    with_unfolding_all rfl
  exact ⟨_, addRule_of_pair rfl rfl hleft rfl rfl⟩

theorem fragments_ofZero : ofZero.fragments ≠ [] := by
  have h : ofZero.fragments = [⟨.point .zero, .always⟩] := rfl
  simp [h]

/-! ## Shadowing -/

variable {π : Type} {c next : Coverage} {r : Rule π} {answer : List (Rule π)}

/-- A coverage with fragments answers with what they leave of the rule, and if that is nothing, it
stays as it is. -/
theorem remainder_of_addRule (hne : c.fragments ≠ []) (h : c.addRule r = .ok (answer, next)) :
    ∃ incoming left, c.toFragments r.selector = .ok incoming ∧
      remainder c.simplify incoming c.fragments = .ok left ∧
      answer = left.map (fun f ↦ r.derive f.toSelector) ∧ (left = [] → next = c) := by
  obtain ⟨incoming, hincoming, h⟩ := bind_eq_ok.1 h
  rw [isEmpty, if_neg fun hempty ↦ hne (List.isEmpty_iff.1 hempty)] at h
  obtain ⟨left, hleft, h⟩ := bind_eq_ok.1 h
  refine ⟨incoming, left, hincoming, hleft, ?_⟩
  split at h
  · rename_i hnothing
    obtain ⟨rfl, rfl⟩ := Prod.mk.inj (Except.ok.inj h)
    rw [List.isEmpty_iff.1 hnothing]
    exact ⟨rfl, fun _ ↦ rfl⟩
  · rename_i hleftover
    obtain ⟨fs, -, h⟩ := bind_eq_ok.1 h
    obtain ⟨rfl, rfl⟩ := Prod.mk.inj (Except.ok.inj h)
    exact ⟨rfl, fun hnil ↦ absurd (List.isEmpty_iff.2 hnil) hleftover⟩

/-- **The pieces of a rule without dead clauses are live**: each has scales, and a predicate that
some assignment satisfies. -/
theorem live_of_addRule (hcat : schema.HasPlainCategories) (hc : c.schema = some schema)
    (hne : c.fragments ≠ []) (hlive : ClausesLive schema r.selector.leaves)
    (h : c.addRule r = .ok (answer, next)) :
    ∀ q ∈ answer, ∃ scale p, q.selector = .clause ⟨some scale, p⟩ ∧ scale.isEmpty = false ∧
      p.Satisfiable schema := by
  obtain ⟨incoming, left, hincoming, hleft, rfl, -⟩ := remainder_of_addRule hne h
  have hs := decides_simplify hcat hc
  intro q hq
  obtain ⟨f, hf, rfl⟩ := List.mem_map.1 hq
  have hf' := live_remainder hs (live_toFragments hs hlive hincoming) hleft f hf
  exact ⟨f.scale, f.predicate, rfl, hf'.scale, hf'.predicate⟩

/-- What is left of the rule for rivers is alive. -/
theorem live_of_addRule_rivers :
    ∃ q next, ofZero.addRule Rule.rivers = .ok ([q], next) ∧
      ∃ scale p, q.selector = .clause ⟨some scale, p⟩ ∧ scale.isEmpty = false ∧
        p.Satisfiable .waterways := by
  obtain ⟨next, hadd⟩ := exists_addRule_rivers
  exact ⟨_, next, hadd, live_of_addRule Schema.hasPlainCategories_waterways rfl fragments_ofZero
    Rule.clausesLive_rivers hadd _ List.mem_cons_self⟩

/-- A dead clause whose scales meet no fragment is passed on: after a rule for the scales from 0 up
to 100, the answer is a rule that no feature can satisfy. -/
theorem addRule_stillborn : ∃ q next,
    (after { schema := some .waterways } [.add Rule.upToHundred]).addRule Rule.stillborn =
        .ok ([q], next) ∧
      q.selector = .clause ⟨some Rule.thirdHundred, .never⟩ ∧
      ¬ Predicate.Satisfiable .waterways .never := by
  let start : Coverage := { schema := some .waterways }
  let claimed : Coverage := { start with fragments := [⟨Rule.firstHundred, .always⟩] }
  have hscales : Interval.isEmpty Rule.firstHundred = false := by decide +kernel
  have hscales' : Interval.isEmpty Rule.thirdHundred = false := by decide +kernel
  have hapart : Rule.thirdHundred.intersect? Rule.firstHundred = none := by
    rw [← Option.isNone_iff_eq_none]
    decide +kernel
  have hfirst : start.addRule Rule.upToHundred = .ok ([Rule.upToHundred], claimed) :=
    bind_eq_ok.2 ⟨claimed.fragments, toFragments_clause hscales rfl, rfl⟩
  have hsecond := addRule_of_pair (c := claimed) (r := Rule.stillborn) rfl
    (toFragments_clause hscales' rfl) (remainder_of_apart hapart) (by decide +kernel)
    (by decide +kernel)
  have hafter : start.after [.add Rule.upToHundred] = claimed := by
    rw [after_cons, take_add_of_ok hfirst]
    rfl
  rw [hafter]
  exact ⟨_, _, hsecond, rfl, fun h ↦ h.choose_spec⟩

/-- **Shadowing is exact.**  After any run of steps that has left fragments behind, a rule without
dead clauses has no pieces exactly when all of its points were there before, and then nothing
changes; otherwise each piece has points, and all of them are points of the rule that were not there
before.  Those that were there before are the points of the rules added since the last reset. -/
theorem addRule_shadows (hcat : schema.HasPlainCategories) (config : Config)
    (steps : List (Step π)) (hlive : ClausesLive schema r.selector.leaves) :
    let start : Coverage := { schema := some schema, config := config }
    let c := start.after steps
    c.fragments ≠ [] → c.addRule r = .ok (answer, next) →
      (∀ x (α : Assignment schema),
        c.HasPoint x α ↔ ∃ q ∈ start.added [] steps, q.selector.HasPoint x α) ∧
      (answer = [] ↔ ∀ x (α : Assignment schema), r.selector.HasPoint x α → c.HasPoint x α) ∧
      (answer = [] → next = c) ∧
      ∀ q ∈ answer, (∃ x, ∃ α : Assignment schema, q.selector.HasPoint x α) ∧
        ∀ x (α : Assignment schema), q.selector.HasPoint x α →
          r.selector.HasPoint x α ∧ ¬ c.HasPoint x α := by
  intro start c hne h
  have hafter := fun x (α : Assignment schema) ↦ hasPoint_after (x := x) (α := α) hcat config steps
  have hs : Simplifier.Decides c.simplify schema := decides_simplify hcat (hafter 0 default).1
  obtain ⟨incoming, left, hincoming, hleft, rfl, hsame⟩ := remainder_of_addRule hne h
  have hpoints : ∀ x (α : Assignment schema),
      Fragment.AnyHasPoint x α left ↔ r.selector.HasPoint x α ∧ ¬ c.HasPoint x α := by
    intro x α
    rw [hasPoint_remainder (hs.keepsTruth α) hleft,
      hasPoint_toFragments (hs.keepsTruth α) hincoming]
    rfl
  have hlive' := live_remainder hs (live_toFragments hs hlive hincoming) hleft
  refine ⟨fun x α ↦ (hafter x α).2, ?_, fun hnil ↦ hsame (List.map_eq_nil_iff.1 hnil), ?_⟩
  · rw [List.map_eq_nil_iff]
    constructor
    · rintro rfl x α hx
      by_contra hnot
      exact Fragment.anyHasPoint_nil ((hpoints x α).2 ⟨hx, hnot⟩)
    · intro hall
      -- a fragment that is left would have a point
      refine List.eq_nil_iff_forall_not_mem.2 fun f hf ↦ ?_
      obtain ⟨x, α, hx⟩ := (hlive' f hf).exists_hasPoint
      have hnew := (hpoints x α).1 ⟨f, hf, hx⟩
      exact hnew.2 (hall x α hnew.1)
  · intro q hq
    obtain ⟨f, hf, rfl⟩ := List.mem_map.1 hq
    refine ⟨?_, fun x α hx ↦ (hpoints x α).1 ⟨f, hf, (f.hasPoint_toSelector).1 hx⟩⟩
    obtain ⟨x, α, hx⟩ := (hlive' f hf).exists_hasPoint
    exact ⟨x, α, (f.hasPoint_toSelector).2 hx⟩

/-- The rivers that are left over are at scales that had not been claimed. -/
theorem addRule_shadows_rivers :
    ∃ q next, ofZero.addRule Rule.rivers = .ok ([q], next) ∧
      (∃ x, ∃ α : Assignment .waterways, q.selector.HasPoint x α) ∧
        ∀ x (α : Assignment .waterways), q.selector.HasPoint x α → ¬ ofZero.HasPoint x α := by
  obtain ⟨next, hadd⟩ := exists_addRule_rivers
  have hq := (addRule_shadows Schema.hasPlainCategories_waterways {} [.add Rule.atZero]
    Rule.clausesLive_rivers fragments_ofZero hadd).2.2.2 _ List.mem_cons_self
  exact ⟨_, next, hadd, hq.1, fun x α hx ↦ (hq.2 x α hx).2⟩

end Coverage

end RuleCoverage
