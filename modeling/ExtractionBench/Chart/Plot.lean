import ExtractionBench.Chart.Drawing
import ExtractionBench.Numeric.Scalar
/-!
# Plots

A chart before it is drawn: the ranges of its axes, and lines, bars and labels in the coordinates of
the data. Drawing turns coordinates into pixels.
-/

namespace ExtractionBench

/-- The numbers that an axis covers. -/
structure Range (α : Type) where
  /-- The number at the start of the axis. -/
  low : α
  /-- The number at its end. -/
  high : α

/-- A rectangle in the coordinates of the data. -/
structure Box (α : Type) where
  /-- The left edge. -/
  left : α
  /-- The right edge. -/
  right : α
  /-- The edge on the base line. -/
  bottom : α
  /-- The opposite edge. -/
  top : α

/-- What is drawn for a series. -/
inductive Shape (α : Type) where
  /-- A line through points. -/
  | line (points : List (α × α))
  /-- A rectangle for each value. -/
  | bars (boxes : List (Box α))

/-- A series of values under one name. -/
structure Series (α : Type) where
  /-- The name. -/
  name : String
  /-- What is drawn. -/
  shape : Shape α

/-- How an axis is divided. -/
inductive AxisScale where
  /-- Evenly. -/
  | linear
  /-- By logarithms. -/
  | logarithmic
  deriving DecidableEq, Repr

/-- A chart in the coordinates of its data. -/
structure Plot (α : Type) where
  /-- The heading. -/
  caption : String
  /-- What the horizontal axis shows. -/
  xTitle : Option String
  /-- What the vertical axis shows. -/
  yTitle : Option String
  /-- The horizontal axis. -/
  x : Range α
  /-- The vertical axis. -/
  y : Range α
  /-- How the vertical axis is divided. -/
  yScale : AxisScale
  /-- The pixels below the horizontal axis. -/
  footer : Nat
  /-- The series, in drawing order. -/
  series : List (Series α)
  /-- Lines drawn in black over the series. -/
  rules : List (List (α × α))
  /-- Texts at points. -/
  labels : List (String × α × α)

namespace Plot

/-- The margin around the chart, in pixels. -/
def margin : Nat := 10

/-- The pixels left of the vertical axis. -/
def sidebar : Nat := 60

/-- The pixels that the heading takes. -/
def header : Nat := 26

/-- The pixel column of the vertical axis. -/
def leftEdge : Int := margin + sidebar

/-- The last pixel column. -/
def rightEdge : Int := Drawing.width - margin - 1

/-- The first pixel row. -/
def topEdge : Int := margin + header

variable {α : Type}

/-- The pixel row of the horizontal axis. -/
def bottomEdge (p : Plot α) : Int := Drawing.height - margin - p.footer - 1

variable [Scalar α]

/-- The offset of a value on an axis that runs over `length` pixels, backwards if that is negative.
A value that falls on a pixel up to a thousandth counts as falling on it. -/
def offset (range : Range α) (length : Int) (v : α) : Int :=
  let part := (v - range.low) / (range.high - range.low)
  let slack : α := Scalar.quotient 1 1000
  if 0 < length then Scalar.floor ((length.natAbs : α) * part + slack)
  else Scalar.ceil (-(length.natAbs : α) * part - slack)

/-- The pixel of a value on an axis from one pixel to another; on an axis without extent all values
are in one place. -/
def project (range : Range α) (start stop : Int) (v : α) : Int :=
  if range.low == range.high then (stop - start).tdiv 2 else start + offset range (stop - start) v

/-- The number kept between two bounds. -/
def clampTo (low high n : Int) : Int := max low (min n high)

/-- No number is kept below the lower bound. -/
theorem le_clampTo (low high n : Int) : low ≤ clampTo low high n := by
  simp only [clampTo]
  omega

/-- No number is kept above the upper bound. -/
theorem clampTo_le {low high : Int} (n : Int) (h : low ≤ high) : clampTo low high n ≤ high := by
  simp only [clampTo]
  omega

variable [Elementary α]

/-- A vertical coordinate on the even scale that the axis is drawn by. -/
def scaled (scale : AxisScale) (v : α) : α :=
  match scale with
  | .linear => v
  | .logarithmic => Elementary.ln v

/-- The pixel of a point, inside the area of the chart. -/
def pixel (p : Plot α) (point : α × α) : Pixel where
  x := clampTo leftEdge (rightEdge + 1) (project p.x leftEdge rightEdge point.1)
  y :=
    let range : Range α := ⟨scaled p.yScale p.y.low, scaled p.yScale p.y.high⟩
    clampTo topEdge (p.bottomEdge + 1)
      (project range p.bottomEdge topEdge (scaled p.yScale point.2))

/-- The bar between the pixels of two opposite corners. -/
def bar (p : Plot α) (color : Color) (box : Box α) : Bar :=
  let a := p.pixel (box.left, box.bottom)
  let b := p.pixel (box.right, box.top)
  { color, corner := ⟨min a.x b.x, min a.y b.y⟩, width := (a.x - b.x).natAbs, height :=
    (a.y - b.y).natAbs }

/-- The lines of a series; one without points has no line. -/
def linesOf (p : Plot α) (color : Color) : Shape α → List Polyline
  | .line [] => []
  | .line points => [⟨color, points.map p.pixel⟩]
  | .bars _ => []

/-- The bars of a series. -/
def barsOf (p : Plot α) (color : Color) : Shape α → List Bar
  | .line _ => []
  | .bars boxes => boxes.map (p.bar color)

/-- The chart on its canvas. -/
def draw (p : Plot α) : Drawing :=
  let colored := p.series.zipIdx.map fun (s, i) => (s, Color.ofIndex i)
  { caption := p.caption
    xTitle := p.xTitle
    yTitle := p.yTitle
    lines := colored.flatMap (fun (s, color) => p.linesOf color s.shape)
      ++ p.rules.map fun points => ⟨.black, points.map p.pixel⟩
    bars := colored.flatMap fun (s, color) => p.barsOf color s.shape
    labels := p.labels.map fun (text, x, y) => ⟨text, p.pixel (x, y)⟩
    legend := colored.map fun (s, color) => (s.name, color) }

end Plot

end ExtractionBench
