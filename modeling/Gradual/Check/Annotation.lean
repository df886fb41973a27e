import Gradual.Signature
import Gradual.Syntax.Basic
import Gradual.Ty.Name

/-! The types that written types denote, and the modes of written parameters. -/

namespace Gradual

namespace TypeExpr

def isEllipsis : TypeExpr → Bool
  | .simple _ name => name.name == "..."
  | _ => false

mutual

/-- The type that a written type denotes. A name that is not reserved denotes the custom type of that
name; what cannot be read denotes any type. -/
def denote : TypeExpr → Ty
  | .hole => .any
  | .simple _ name => .ofName name.name [] false
  | .generic _ base args =>
    match base with
    | .simple _ name => .ofName name.name (denoteArgs args) (args.any isEllipsis)
    | _ => .any
  | .union _ members => .union (denoteAll members)

def denoteArgs : List TypeExpr → List Ty
  | [] => []
  | t :: rest => if t.isEllipsis then denoteArgs rest else t.denote :: denoteArgs rest

def denoteAll : List TypeExpr → List Ty
  | [] => []
  | t :: rest => t.denote :: denoteAll rest

end

end TypeExpr

def ParamMode.ofKind : Text → ParamMode
  | "pos_only" => .posOnly
  | "named_only" => .namedOnly
  | "args" => .args
  | "kwargs" => .kwargs
  | _ => .posOrNamed

end Gradual
