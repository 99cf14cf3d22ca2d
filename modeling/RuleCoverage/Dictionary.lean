/-!
# Dictionaries in order of insertion

A dictionary is a list of entries with different keys.  Giving a key again replaces its value, and
the entry stays where it was, with the key as it was first given.
-/

set_option autoImplicit false

namespace RuleCoverage

namespace Dictionary

variable {κ β : Type} [BEq κ]

/-- Sets the value of a key. -/
def set (key : κ) (value : β) : List (κ × β) → List (κ × β)
  | [] => [(key, value)]
  | (k, v) :: rest => if k == key then (k, value) :: rest else (k, v) :: set key value rest

/-- The dictionary of a list of entries. -/
def ofList (entries : List (κ × β)) : List (κ × β) :=
  entries.foldl (fun acc (k, v) ↦ set k v acc) []

/-- The value of a key. -/
def get? (key : κ) : List (κ × β) → Option β
  | [] => none
  | (k, v) :: rest => if k == key then some v else get? key rest

theorem get?_set [EquivBEq κ] (key other : κ) (value : β) (entries : List (κ × β)) :
    get? other (set key value entries) =
      if key == other then some value else get? other entries := by
  induction entries with
  | nil => simp [set, get?]
  | cons entry rest ih =>
    obtain ⟨k, v⟩ := entry
    unfold set
    split
    · rename_i h
      have : (k == other) = (key == other) := BEq.congr_left h
      simp [get?, this]
      split <;> simp_all
    · rename_i h
      by_cases ho : (k == other) = true
      · have : (key == other) = false := by
          cases hk : (key == other) with
          | false => rfl
          | true => exact absurd (BEq.trans ho (BEq.symm hk)) h
        simp [get?, ho, this]
      · simp [get?, ho, ih]

end Dictionary

end RuleCoverage
