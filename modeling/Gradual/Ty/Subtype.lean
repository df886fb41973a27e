import Gradual.Ty.Weight

/-! Subtyping: whether every value of one type is acceptable where another is expected. `Any` is
compatible in both directions, and `Never` is below every type. -/

namespace Gradual

mutual

/-- Whether every alternative of `sub` is below some alternative of `super`. -/
def Ty.subtype (sub super : Ty) : Bool :=
  super.isAny || sub.isAny
    || sub.alts.attach.all fun ⟨a, _⟩ => super.alts.attach.any fun ⟨b, _⟩ => a.subtype b
termination_by sub.weight + super.weight
decreasing_by
  have := Ty.weight_alt_lt ‹a ∈ sub.alts›
  have := Ty.weight_alt_lt ‹b ∈ super.alts›
  omega

/-- Subtyping of alternatives. Containers are covariant, a tuple is below the iterables of its element
union, callables are compared by their results, and a struct may have more fields than are asked for
unless it is open where a closed one is wanted. -/
def Alt.subtype (sub super : Alt) : Bool :=
  match sub, super with
  | .any, _ => true
  | _, .any => true
  | .prim p, .prim q => p == q
  | .list a, .list b => a.subtype b
  | .tuple as, .tuple bs =>
    as.length == bs.length && (as.zip bs).attach.all fun ⟨(a, b), _⟩ => a.subtype b
  | .tuple as, .tupleOf b => (Ty.union as).subtype b
  | .tupleOf a, .tupleOf b => a.subtype b
  | .dict k v, .dict k' v' => k.subtype k' && v.subtype v'
  | .list a, .iterable b => a.subtype b
  | .tuple as, .iterable b => (Ty.union as).subtype b
  | .tupleOf a, .iterable b => a.subtype b
  | .dict k _, .iterable b => k.subtype b
  | .iterable a, .iterable b => a.subtype b
  | .custom _ (some ⟨_, _, _, some a⟩), .iterable b => a.subtype b
  | .function (some ⟨_, r⟩), .function (some ⟨_, r'⟩) => r.subtype r'
  | .function _, .function _ => true
  | .custom _ host, .function none => Alt.hostCalls host
  | .struct fields isOpen, .struct wanted wantedOpen =>
    (wanted.attach.all fun ⟨(name, t), _⟩ =>
      match _h : fields.lookup name with
      | some s => s.subtype t
      | none => false) && (wantedOpen || !isOpen)
  | .custom n _, .custom m _ => n == m
  | _, _ => false
termination_by sub.weight + super.weight
decreasing_by
  all_goals simp only [Alt.weight]
  any_goals omega
  · have h := List.of_mem_zip ‹(a, b) ∈ as.zip bs›
    have := Ty.weight_le_weights h.1
    have := Ty.weight_le_weights h.2
    omega
  · have := Ty.weight_union_lt as
    rw [Alt.weight] at this
    omega
  · have := Ty.weight_union_lt as
    rw [Alt.weight] at this
    omega
  · have := Ty.weight_le_fieldWeights (mem_of_lookup_eq_some ‹fields.lookup name = some s›)
    have := Ty.weight_le_fieldWeights ‹(name, t) ∈ wanted›
    omega

end

theorem Ty.subtype_eq (sub super : Ty) :
    sub.subtype super = (super.isAny || sub.isAny
      || sub.alts.all fun a => super.alts.any fun b => a.subtype b) := by
  rw [Ty.subtype]
  simp only [List.all_subtype, List.any_subtype, List.unattach_attach]

end Gradual
