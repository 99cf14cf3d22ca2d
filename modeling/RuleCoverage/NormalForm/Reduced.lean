import RuleCoverage.NormalForm.Term

/-!
# Reducing a disjunction of terms

A list of terms stands for their disjunction.  `Term.reduce` makes it shorter without changing its
meaning: it drops terms that are stronger than another one and merges pairs that differ in one
place, until neither is possible.  The order of the terms matters for the result, so it is fixed:

* of equal terms the first stays;
* a term is dropped when it implies another one, but of terms that imply each other the first stays;
* each round first drops, then merges at most one pair.  When terms were dropped, only the first of
  the remaining terms is tried as the first of the pair; else all pairs are tried in order.  The
  merged term goes to the end.

Each round that changes something makes the list shorter, so the rounds end.
-/

set_option autoImplicit false

namespace RuleCoverage

namespace Term

/-- The terms of a list, each one once. -/
def dedup (ts : List Term) : List Term := (Distinct.ofList ts).toList

theorem length_dedup_le (ts : List Term) : (dedup ts).length ≤ ts.length :=
  Distinct.size_ofList_le ts

/-- Drops the terms that imply another one; `earlier` are the terms before the given ones. -/
def prune (earlier : List Term) : List Term → List Term
  | [] => []
  | t :: later =>
    let rest := prune (earlier ++ [t]) later
    if earlier.any t.implies || later.any (fun u ↦ t.implies u && !u.implies t) then rest
    else t :: rest

theorem length_prune_le (earlier ts : List Term) : (prune earlier ts).length ≤ ts.length := by
  induction ts generalizing earlier with
  | nil => simp [prune]
  | cons t later ih =>
    have := ih (earlier ++ [t])
    unfold prune
    simp only
    split <;> simp <;> omega

/-- Merges `t` with the first term of a list that it can be merged with: the other terms and the
merged one. -/
def mergeWith? (full? : String → Option ValueSet) (t : Term) :
    List Term → Option (List Term × Term)
  | [] => none
  | u :: rest =>
    match merge? full? t u with
    | some m => some (rest, m)
    | none => (mergeWith? full? t rest).map fun (others, m) ↦ (u :: others, m)

theorem length_mergeWith? {full? : String → Option ValueSet} {t m : Term} {ts others : List Term}
    (h : mergeWith? full? t ts = some (others, m)) : others.length + 1 = ts.length := by
  induction ts generalizing others m with
  | nil => simp [mergeWith?] at h
  | cons u rest ih =>
    unfold mergeWith? at h
    split at h
    · cases h
      rfl
    · cases hr : mergeWith? full? t rest with
      | none => simp [hr] at h
      | some found =>
        obtain ⟨o, m'⟩ := found
        simp only [hr, Option.map_some, Option.some.injEq, Prod.mk.injEq] at h
        obtain ⟨rfl, rfl⟩ := h
        simpa using ih hr

/-- Merges the first term of a list with another one. -/
def mergeFirst? (full? : String → Option ValueSet) : List Term → Option (List Term)
  | [] => none
  | t :: rest => (mergeWith? full? t rest).map fun (others, m) ↦ dedup (others ++ [m])

/-- Merges the first pair of a list that can be merged; `earlier` are terms that go before. -/
def mergeAny? (full? : String → Option ValueSet) (earlier : List Term) :
    List Term → Option (List Term)
  | [] => none
  | t :: rest =>
    match mergeWith? full? t rest with
    | some (others, m) => some (dedup (earlier ++ others ++ [m]))
    | none => mergeAny? full? (earlier ++ [t]) rest

theorem length_mergeFirst? {full? : String → Option ValueSet} {ts us : List Term}
    (h : mergeFirst? full? ts = some us) : us.length < ts.length := by
  cases ts with
  | nil => simp [mergeFirst?] at h
  | cons t rest =>
    obtain ⟨⟨others, m⟩, hm, rfl⟩ := Option.map_eq_some_iff.1 h
    have h1 := length_mergeWith? hm
    have h2 := length_dedup_le (others ++ [m])
    simp only [List.length_append, List.length_cons, List.length_nil] at h2 ⊢
    omega

theorem length_mergeAny? {full? : String → Option ValueSet} {ts us earlier : List Term}
    (h : mergeAny? full? earlier ts = some us) : us.length < earlier.length + ts.length := by
  induction ts generalizing earlier with
  | nil => simp [mergeAny?] at h
  | cons t rest ih =>
    unfold mergeAny? at h
    split at h
    · rename_i others m hm
      cases h
      have h1 := length_mergeWith? hm
      have h2 := length_dedup_le (earlier ++ others ++ [m])
      simp only [List.length_append, List.length_cons, List.length_nil] at h2 ⊢
      omega
    · have := ih h
      simp only [List.length_append, List.length_cons, List.length_nil] at this ⊢
      omega

/-- Drops and merges until nothing changes. -/
def reduceRounds (full? : String → Option ValueSet) (ts : List Term) : List Term :=
  if ts.any isAlways then [always]
  else
    let kept := prune [] ts
    if _ : kept.length < ts.length then
      match _ : mergeFirst? full? kept with
      | some us => reduceRounds full? us
      | none => reduceRounds full? kept
    else
      match _ : mergeAny? full? [] kept with
      | some us => reduceRounds full? us
      | none => kept
termination_by ts.length
decreasing_by
  · have := length_mergeFirst? ‹_›
    omega
  · assumption
  · have := length_mergeAny? ‹_›
    have : kept.length ≤ ts.length := length_prune_le [] ts
    simp only [List.length_nil] at *
    omega

/-- The reduced form of a disjunction of terms. -/
def reduce (full? : String → Option ValueSet) (ts : List Term) : List Term :=
  reduceRounds full? (dedup ts)

end Term

end RuleCoverage
