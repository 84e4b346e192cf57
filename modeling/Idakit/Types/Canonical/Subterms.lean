import Idakit.Types.Canonical.Model

/-!
The types inside a canonical type, and what is asked of all of them. One
induction over direct children replaces the thirteen cases wherever only
the nesting matters.
-/

namespace Idakit.Types.Canonical

namespace CanonicalType

def children : CanonicalType → List CanonicalType
  | .ptr pointee _ => [pointee]
  | .array elem _ => [elem]
  | .aggregate _ _ members _ => members.map CanonicalMember.ty
  | .enum _ underlying _ _ => [underlying]
  | .function ret params _ => ret :: params
  | .typedef _ underlying => [underlying]
  | .void | .bool | .int _ _ | .float _ | .named _ _ | .opaqueNamed _ | .backRef _ => []

/-- Induction with one hypothesis, about the children. -/
theorem childrenInduct {P : CanonicalType → Prop}
    (h : ∀ c, (∀ d ∈ c.children, P d) → P c) (c : CanonicalType) : P c := by
  induction c with
  | ptr pointee width ih => exact h _ (by simpa [children] using ih)
  | array elem len ih => exact h _ (by simpa [children] using ih)
  | aggregate tag kind members size ih => exact h _ (by simpa [children] using ih)
  | enum tag underlying members size ih => exact h _ (by simpa [children] using ih)
  | function ret params varargs ihr ihp => exact h _ (by simpa [children] using ⟨ihr, ihp⟩)
  | typedef name underlying ih => exact h _ (by simpa [children] using ih)
  | _ => exact h _ (by simp [children])

inductive Everywhere (p : CanonicalType → Prop) : CanonicalType → Prop
  | mk {c} (here : p c) (inside : ∀ d ∈ c.children, Everywhere p d) : Everywhere p c

namespace Everywhere

variable {p q : CanonicalType → Prop} {c : CanonicalType}

theorem here (h : Everywhere p c) : p c := by
  cases h with
  | mk here _ => exact here

theorem inside (h : Everywhere p c) {d : CanonicalType} (hd : d ∈ c.children) :
    Everywhere p d := by
  cases h with
  | mk _ inside => exact inside d hd

theorem member {tag : Option Text} {kind : RecordKind}
    {members : List (CanonicalMember CanonicalType)} {size : Option ℕ}
    (h : Everywhere p (.aggregate tag kind members size))
    {m : CanonicalMember CanonicalType} (hm : m ∈ members) : Everywhere p m.ty :=
  h.inside (List.mem_map_of_mem hm)

end Everywhere

end CanonicalType

end Idakit.Types.Canonical
