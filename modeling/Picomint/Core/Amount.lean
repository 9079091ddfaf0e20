/-
Checked 64-bit arithmetic on amounts.

An amount is a natural number of msat, or of sat where the source has
`bitcoin::Amount`.
-/

import Mathlib.Tactic

namespace Picomint

def U64_BOUND : Nat := 2 ^ 64

def fromSat (sat : Nat) : Nat := sat * 1000

def checkedAdd (left right : Nat) : Option Nat :=
  if left + right < U64_BOUND then some (left + right) else none

def checkedSub (left right : Nat) : Option Nat :=
  if right ≤ left then some (left - right) else none

def checkedMul (left right : Nat) : Option Nat :=
  if left * right < U64_BOUND then some (left * right) else none

def saturatingMul (left right : Nat) : Nat := min (left * right) (U64_BOUND - 1)

theorem checkedAdd_eq_some {left right sum : Nat} :
    checkedAdd left right = some sum ↔ sum = left + right ∧ sum < U64_BOUND := by
  unfold checkedAdd
  split
  · simp only [Option.some.injEq]
    omega
  · simp only [reduceCtorEq, false_iff]
    omega

theorem checkedSub_eq_some {left right rest : Nat} :
    checkedSub left right = some rest ↔ left = rest + right := by
  unfold checkedSub
  split
  · simp only [Option.some.injEq]
    omega
  · simp only [reduceCtorEq, false_iff]
    omega

theorem checkedMul_eq_some {left right product : Nat} :
    checkedMul left right = some product ↔ product = left * right ∧ product < U64_BOUND := by
  unfold checkedMul
  split
  · simp only [Option.some.injEq]
    omega
  · simp only [reduceCtorEq, false_iff]
    omega

end Picomint
