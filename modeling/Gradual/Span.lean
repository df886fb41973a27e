import Gradual.Json.Basic

/-! Source locations. Lines and columns are signed: a tree carries whatever numbers its producer wrote. -/

namespace Gradual

structure Position where
  line : Int := 0
  column : Int := 0
  deriving DecidableEq, Repr, Inhabited

structure Span where
  start : Position := {}
  stop : Position := {}
  deriving DecidableEq, Repr, Inhabited

namespace Span

def none : Span := {}

def isNone (s : Span) : Bool :=
  s == none

def point (line column : Int) : Span :=
  ⟨⟨line, column⟩, ⟨line, column⟩⟩

end Span

def Position.toJson (p : Position) : Json :=
  .obj [("line", .int p.line), ("column", .int p.column)]

def Span.toJson (s : Span) : Json :=
  .obj [("start", s.start.toJson), ("end", s.stop.toJson)]

end Gradual
