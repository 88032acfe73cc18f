import KnutOS.Devices.Line
import Mathlib.Data.List.Nodup
import Mathlib.Tactic.Linarith
import Mathlib.Tactic.Ring

/-! Which lines reach their end point. -/
namespace KnutOS

open Foundation

variable {l : LineParams} {x₀ y₀ x₁ y₁ m n j : ℤ} {k : ℕ}

end KnutOS
