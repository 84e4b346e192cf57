import Mathlib.Data.List.Basic

/-!
Histories of operations on a state with keys. Each operation is about one
key, and either takes effect there or changes nothing, so that what is seen at
a key in the end is what the last operation says that took effect there.
-/

namespace Idakit.Library

/-- Operations `ω` with results `ρ`, each about one key. -/
structure KeyedMachine (σ ω ρ κ : Type) where
  step : σ → ω → ρ × σ
  key : ω → κ
  took : ρ → Bool

namespace KeyedMachine

variable {σ ω ρ κ β : Type} (M : KeyedMachine σ ω ρ κ)

section

variable [DecidableEq κ]

end

end KeyedMachine

end Idakit.Library
