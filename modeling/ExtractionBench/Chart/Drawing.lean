/-!
# Drawings

A chart on its canvas: every line, bar and label in pixels, with its colour, from left to right and
from top to bottom.
-/

namespace ExtractionBench

/-- A colour by its parts. -/
structure Color where
  /-- The red part. -/
  red : UInt8
  /-- The green part. -/
  green : UInt8
  /-- The blue part. -/
  blue : UInt8
  deriving DecidableEq, Repr

namespace Color

/-- Two hexadecimal digits in capitals. -/
def hexPair (b : UInt8) : List Char :=
  [Nat.digitChar (b.toNat / 16), Nat.digitChar (b.toNat % 16)].map Char.toUpper

/-- The colour as `#RRGGBB`. -/
def code (c : Color) : String :=
  String.ofList ('#' :: hexPair c.red ++ hexPair c.green ++ hexPair c.blue)

/-- Black. -/
def black : Color := ⟨0, 0, 0⟩

/-- The colours of series, one after the other. -/
def palette : List Color :=
  [⟨0xE6, 0x19, 0x4B⟩, ⟨0x3C, 0xB4, 0x4B⟩, ⟨0xFF, 0xE1, 0x19⟩, ⟨0x00, 0x82, 0xC8⟩,
    ⟨0xF5, 0x82, 0x30⟩,
   ⟨0x91, 0x1E, 0xB4⟩, ⟨0x46, 0xF0, 0xF0⟩, ⟨0xF0, 0x32, 0xE6⟩, ⟨0xD2, 0xF5, 0x3C⟩,
     ⟨0xFA, 0xBE, 0xBE⟩,
   ⟨0x00, 0x80, 0x80⟩, ⟨0xE6, 0xBE, 0xFF⟩, ⟨0xAA, 0x6E, 0x28⟩, ⟨0xFF, 0xFA, 0xC8⟩,
     ⟨0x80, 0x00, 0x00⟩,
   ⟨0xAA, 0xFF, 0xC3⟩, ⟨0x80, 0x80, 0x00⟩, ⟨0xFF, 0xD7, 0xB4⟩, ⟨0x00, 0x00, 0x80⟩,
     ⟨0x80, 0x80, 0x80⟩,
   ⟨0x00, 0x00, 0x00⟩]

/-- The colour of the series with an index; the palette starts again when it is used up. -/
def ofIndex (i : Nat) : Color := palette.getD (i % palette.length) black

end Color

/-- A place on the canvas. -/
structure Pixel where
  /-- The distance from the left. -/
  x : Int
  /-- The distance from the top. -/
  y : Int
  deriving DecidableEq, Repr

/-- A line through places in order. -/
structure Polyline where
  /-- Its colour. -/
  color : Color
  /-- The places. -/
  points : List Pixel
  deriving DecidableEq, Repr

/-- A filled rectangle. -/
structure Bar where
  /-- Its colour. -/
  color : Color
  /-- The corner nearest to the upper left of the canvas. -/
  corner : Pixel
  /-- Its width. -/
  width : Int
  /-- Its height. -/
  height : Int
  deriving DecidableEq, Repr

/-- A text at a place. -/
structure Label where
  /-- The text. -/
  text : String
  /-- The place. -/
  place : Pixel
  deriving DecidableEq, Repr

/-- A chart on its canvas. -/
structure Drawing where
  /-- The heading. -/
  caption : String
  /-- What the horizontal axis shows. -/
  xTitle : Option String
  /-- What the vertical axis shows. -/
  yTitle : Option String
  /-- The lines, in drawing order. -/
  lines : List Polyline
  /-- The bars, in drawing order. -/
  bars : List Bar
  /-- The labels inside the chart. -/
  labels : List Label
  /-- The series by name and colour, in drawing order. -/
  legend : List (String × Color)
  deriving DecidableEq, Repr

/-- The width of the canvas. -/
def Drawing.width : Nat := 900

/-- The height of the canvas. -/
def Drawing.height : Nat := 540

end ExtractionBench
