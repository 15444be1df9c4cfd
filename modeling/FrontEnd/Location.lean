import FrontEnd.Text.Bytes

/-! Where in a source unit something stands. -/

namespace FrontEnd

/-- Names the source unit that a location belongs to. -/
structure FileId where
  index : Nat
deriving DecidableEq

/-- A range of bytes in one source unit. -/
structure Location where
  file : FileId
  offset : Nat
  length : Nat
deriving DecidableEq

namespace Location

/-- The empty range at the start of the first unit, for failures that belong to no token. -/
def origin : Location := ⟨⟨0⟩, 0, 0⟩

/-- The offset one past the last byte. -/
def endOffset (location : Location) : Nat :=
  location.offset + location.length

/-- The empty range just past this one. -/
def after (location : Location) : Location :=
  ⟨location.file, location.endOffset, 0⟩

/-- The form used in messages. -/
def describe (location : Location) : String :=
  "offset " ++ toString location.offset

/-- Line and column of the start of this location in `source`. -/
def position (location : Location) (source : String) : Text.Position :=
  Text.positionAt source.toList location.offset

end Location

/-- A value with the place it came from. -/
structure Located (α : Type) where
  value : α
  location : Location
deriving DecidableEq

end FrontEnd
