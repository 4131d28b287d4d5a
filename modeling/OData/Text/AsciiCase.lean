/-!
Letter case of the 26 Latin letters; every other character is its own upper and lower case.
-/

namespace OData.Text

/-- Lower case of `A` to `Z`. -/
def lower (cs : List Char) : List Char :=
  cs.map Char.toLower

/-- Upper case of `a` to `z`. -/
def upper (cs : List Char) : List Char :=
  cs.map Char.toUpper

/-- Equality up to the case of Latin letters. -/
def sameIgnoringCase (s t : String) : Bool :=
  lower s.toList == lower t.toList

theorem sameIgnoringCase_iff {s t : String} :
    sameIgnoringCase s t ↔ lower s.toList = lower t.toList := by
  simp [sameIgnoringCase]

end OData.Text
