/-!
# Points, rectangles and colours

What annotations of a tree may hold for those who draw it.
-/

namespace MinimalistGrammar

/-- A point of the plane. -/
structure Point where
  x : Float
  y : Float
deriving BEq, Inhabited

/-- A rectangle, by a corner and its size. -/
structure Rect where
  x : Float
  y : Float
  w : Float
  h : Float
deriving BEq, Inhabited

/-- A colour with its opacity. -/
structure Color where
  r : UInt8
  g : UInt8
  b : UInt8
  a : UInt8
deriving DecidableEq, Inhabited, Repr

/-- A colour that lets nothing through. -/
def Color.rgb (r g b : UInt8) : Color := ⟨r, g, b, 255⟩

end MinimalistGrammar
