import RuleCoverage.Error

/-!
# Comparing literals part by part

Equality of literals (`==`) always has an answer.  Comparing them part by part from left to right,
which stops at the first difference, may not come to one: a boolean taken from a table is compared
with each item of a list, and only a list of one item leaves a single truth value.

* `Literal.equal?` compares part by part;
* where it finds literals equal, they are equal (`Literal.beq_of_equal?`).
-/

set_option autoImplicit false

namespace RuleCoverage

namespace Literal

mutual

/-- The number of scalars and dictionaries in a literal, however deep in lists. -/
def size : Literal → Nat
  | .list xs => sizeOfList xs
  | _ => 1

def sizeOfList : List Literal → Nat
  | [] => 0
  | x :: xs => size x + sizeOfList xs

end

/-- Compares a boolean taken from a table with the items of a list. -/
def equalsFlag? (b : Bool) (items : List Literal) : Except Error Bool :=
  let answers := sizeOfList items
  if answers = 1 then .ok ((Literal.list items).sole?.any (· == .flag b))
  else .error (.ambiguousTruth answers)

mutual

/-- Compares literals part by part. -/
def equal? : Literal → Literal → Except Error Bool
  | .scalar a, .scalar b => .ok (a == b)
  | .list xs, .list ys => if xs.length == ys.length then equalList? xs ys else .ok false
  | .dict xs, .dict ys => if xs.length == ys.length then equalEntries? xs ys else .ok false
  | .scalar (.flag b), .list ys => equalsFlag? b ys
  | .list xs, .scalar (.flag b) => equalsFlag? b xs
  | _, _ => .ok false

def equalList? : List Literal → List Literal → Except Error Bool
  | x :: xs, y :: ys => do if ← equal? x y then equalList? xs ys else return false
  | [], [] => .ok true
  | _, _ => .ok false

def equalEntries? : List (Scalar × Literal) → List (Scalar × Literal) → Except Error Bool
  | [], _ => .ok true
  | (k, v) :: rest, ys =>
    match ys.find? fun e ↦ k == e.1 with
    | some e => do if ← equal? v e.2 then equalEntries? rest ys else return false
    | none => .ok false

end

theorem beq_of_equalsFlag? {b : Bool} {items : List Literal} (h : equalsFlag? b items = .ok true) :
    (Literal.list items).sole?.any (· == .flag b) = true := by
  simp only [equalsFlag?] at h
  split at h
  · simpa using h
  · simp at h

/-- A guarded comparison holds only if its guard does. -/
theorem true_of_guarded {x y : Except Error Bool}
    (h : (do if ← x then y else return false) = Except.ok true) : x = .ok true ∧ y = .ok true := by
  cases x with
  | error e => simp [bind, Except.bind] at h
  | ok b => cases b <;> simp_all [bind, Except.bind, pure, Except.pure]

mutual

theorem beq_of_equal? : ∀ x y : Literal, equal? x y = .ok true → beq x y = true
  | .scalar a, .scalar b, h => by simpa [equal?, beq] using h
  | .list xs, .list ys, h => by
    simp only [equal?] at h
    split at h
    · simpa [beq] using beqList_of_equalList? xs ys h
    · simp at h
  | .dict xs, .dict ys, h => by
    simp only [equal?] at h
    split at h
    · rename_i hl
      simp only [beq, hl, Bool.true_and]
      exact beqEntries_of_equalEntries? xs ys h
    · simp at h
  | .scalar s, .list ys, h => by
    cases s with
    | flag b =>
      simp only [equal?] at h
      simpa [beq] using beq_of_equalsFlag? h
    | _ => simp [equal?] at h
  | .list xs, .scalar s, h => by
    cases s with
    | flag b =>
      simp only [equal?] at h
      simpa [beq] using beq_of_equalsFlag? h
    | _ => simp [equal?] at h
  | .scalar s, .dict _, h => by simp [equal?] at h
  | .dict _, .scalar s, h => by simp [equal?] at h
  | .dict _, .list _, h => by simp [equal?] at h
  | .list _, .dict _, h => by simp [equal?] at h

theorem beqList_of_equalList? : ∀ xs ys : List Literal, equalList? xs ys = .ok true →
    beqList xs ys = true
  | x :: xs, y :: ys, h => by
    obtain ⟨hx, hxs⟩ := true_of_guarded (by simpa only [equalList?] using h)
    simp [beqList, beq_of_equal? x y hx, beqList_of_equalList? xs ys hxs]
  | [], [], _ => by simp [beqList]
  | _ :: _, [], h => by simp [equalList?] at h
  | [], _ :: _, h => by simp [equalList?] at h

theorem beqEntries_of_equalEntries? : ∀ xs ys : List (Scalar × Literal),
    equalEntries? xs ys = .ok true → beqEntries xs ys = true
  | [], _, _ => by simp [beqEntries]
  | (k, v) :: rest, ys, h => by
    simp only [equalEntries?] at h
    split at h
    · rename_i e he
      obtain ⟨hv, hrest⟩ := true_of_guarded h
      simp only [beqEntries, beqEntries_of_equalEntries? rest ys hrest, Bool.and_true,
        List.any_eq_true, Bool.and_eq_true]
      exact ⟨e, List.mem_of_find?_eq_some he, by simpa using List.find?_some he,
        beq_of_equal? v e.2 hv⟩
    · simp at h

end

end Literal

end RuleCoverage
