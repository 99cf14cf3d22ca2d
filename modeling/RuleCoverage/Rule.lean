import RuleCoverage.Selector.Basic

/-!
# Rules

A `Rule` gives a payload, such as the style of a map feature, to what its selector selects.  Nothing
here looks into the payload, so its type is left open.

Compiling cuts a rule into pieces, each of them a rule with the same payload and a narrower
selector.  Such a derived rule remembers the rule that was given, its source, also when a piece is
cut again (`Rule.source_derive`).
-/

set_option autoImplicit false

namespace RuleCoverage

/-- A payload for what a selector selects. -/
structure Rule (π : Type) where
  selector : Selector
  payload : π
  position : Int := 0
  comment : Option String := none
  /-- The rule that this one was cut from. -/
  origin : Option (Rule π) := none

namespace Rule

variable {π : Type}

/-- Rules are compared without regard to where they were cut from. -/
instance [BEq π] : BEq (Rule π) := ⟨fun a b ↦
  a.selector == b.selector && a.payload == b.payload && a.position == b.position &&
    a.comment == b.comment⟩

def isDerived (r : Rule π) : Bool := r.origin.isSome

/-- The rule that a rule was cut from; a rule that was not cut is its own source. -/
def source (r : Rule π) : Rule π := r.origin.getD r

/-- The piece of a rule that a narrower selector selects. -/
def derive (r : Rule π) (selector : Selector) : Rule π :=
  { r with selector := selector, origin := some r.source }

/-- The position, the comment if there is one, the selector and the payload. -/
def text (r : Rule π) (payloadText : π → String) : String :=
  let comment := match r.comment with
    | some c => "/* " ++ c ++ " */ "
    | none => ""
  "#" ++ toString r.position ++ " " ++ comment ++ r.selector.text ++
    " \x7b" ++ payloadText r.payload ++ "\x7d"

/-- A piece of a piece has the source of the first. -/
theorem source_derive (r : Rule π) (s : Selector) : (r.derive s).source = r.source := rfl

end Rule

end RuleCoverage
