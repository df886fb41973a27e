import Gradual.Ty.Subtype

/-! The meet of two types: what their alternatives have in common, pair by pair. Disjoint pairs vanish,
and `Any` leaves the other side as it is. -/

namespace Gradual

mutual

def Ty.meet (a b : Ty) : Ty :=
  if a.isAny then b
  else if b.isAny then a
  else .ofAlts (a.alts.attach.flatMap fun ⟨x, _⟩ =>
    b.alts.attach.filterMap fun ⟨y, _⟩ => x.meet y)
termination_by a.weight + b.weight
decreasing_by
  have := Ty.weight_alt_lt ‹x ∈ a.alts›
  have := Ty.weight_alt_lt ‹y ∈ b.alts›
  omega

/-- The common part of two alternatives, if they have one. A container meets an iterable in a container
of its own shape; callables and structs meet in the one that is below the other. -/
def Alt.meet (x y : Alt) : Option Alt :=
  match x, y with
  | .any, y => some y
  | x, .any => some x
  | .prim p, .prim q => if p = q then some (.prim p) else none
  | .list a, .list b => some (.list (a.meet b))
  | .list a, .iterable b => some (.list (a.meet b))
  | .iterable a, .list b => some (.list (b.meet a))
  | .tuple as, .tuple bs =>
    if as.length = bs.length then
      some (.tuple ((as.zip bs).attach.map fun ⟨(a, b), _⟩ => a.meet b))
    else none
  | .tuple as, .tupleOf b => some (.tuple (as.attach.map fun ⟨a, _⟩ => a.meet b))
  | .tuple as, .iterable b => some (.tuple (as.attach.map fun ⟨a, _⟩ => a.meet b))
  | .tupleOf a, .tuple bs => some (.tuple (bs.attach.map fun ⟨b, _⟩ => b.meet a))
  | .iterable a, .tuple bs => some (.tuple (bs.attach.map fun ⟨b, _⟩ => b.meet a))
  | .tupleOf a, .tupleOf b => some (.tupleOf (a.meet b))
  | .tupleOf a, .iterable b => some (.tupleOf (a.meet b))
  | .iterable a, .tupleOf b => some (.tupleOf (b.meet a))
  | .dict k v, .dict k' v' => some (.dict (k.meet k') (v.meet v'))
  | .dict k v, .iterable e => some (.dict (k.meet e) v)
  | .iterable e, .dict k v => some (.dict (k.meet e) v)
  | .iterable a, .iterable b => some (.iterable (a.meet b))
  | .custom n (some ⟨attributes, call, binOps, some elem⟩), .iterable _ =>
    some (.custom n (some ⟨attributes, call, binOps, some elem⟩))
  | .iterable _, .custom n (some ⟨attributes, call, binOps, some elem⟩) =>
    some (.custom n (some ⟨attributes, call, binOps, some elem⟩))
  | .function none, .function t => some (.function t)
  | .function s, .function none => some (.function s)
  | .function (some s), .function (some t) =>
    if Alt.subtype (.function (some s)) (.function (some t)) then some (.function (some s))
    else if Alt.subtype (.function (some t)) (.function (some s)) then some (.function (some t))
    else none
  | .struct fields isOpen, .struct fields' isOpen' =>
    if Alt.subtype (.struct fields isOpen) (.struct fields' isOpen') then some (.struct fields isOpen)
    else if Alt.subtype (.struct fields' isOpen') (.struct fields isOpen) then
      some (.struct fields' isOpen')
    else none
  | .custom n host, .custom m _ => if n = m then some (.custom n host) else none
  | _, _ => none
termination_by x.weight + y.weight
decreasing_by
  all_goals simp only [Alt.weight]
  any_goals omega
  · have h := List.of_mem_zip ‹(a, b) ∈ as.zip bs›
    have := Ty.weight_le_weights h.1
    have := Ty.weight_le_weights h.2
    omega
  · have := Ty.weight_le_weights ‹a ∈ as›
    omega
  · have := Ty.weight_le_weights ‹a ∈ as›
    omega
  · have := Ty.weight_le_weights ‹b ∈ bs›
    omega
  · have := Ty.weight_le_weights ‹b ∈ bs›
    omega

end

end Gradual
