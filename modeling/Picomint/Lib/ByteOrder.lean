/-
The lexicographic order of byte strings.

Fixed-width big-endian numbers are ordered as their bytes, and concatenating
strings of one width keeps the order of the pairs.
-/

import Mathlib.Data.List.Lex
import Picomint.Lib.BigEndian

instance byteLinearOrder : LinearOrder UInt8 where
  le_refl := UInt8.le_refl
  le_trans _ _ _ := UInt8.le_trans
  le_antisymm _ _ := UInt8.le_antisymm
  le_total := UInt8.le_total
  lt_iff_le_not_ge a b := by
    rw [UInt8.lt_iff_toNat_lt, UInt8.le_iff_toNat_le, UInt8.le_iff_toNat_le]
    omega
  toDecidableLE := inferInstance
  toDecidableEq := inferInstance
  toDecidableLT := inferInstance

namespace ByteOrder

theorem cons_lt_cons {left right : UInt8} {front back : List UInt8} :
    left :: front < right :: back ↔ left < right ∨ left = right ∧ front < back :=
  List.cons_lt_cons_iff

theorem cons_le_cons {left right : UInt8} {front back : List UInt8} :
    left :: front ≤ right :: back ↔ left < right ∨ left = right ∧ front ≤ back := by
  rw [← not_lt, cons_lt_cons, ← not_lt]
  rcases lt_trichotomy left right with below | rfl | above
  · simp [below, below.ne', below.not_gt]
  · simp
  · simp [above, above.ne', above.not_gt]

/-- Of strings of one length, the first difference decides the order whatever
follows. -/
theorem append_lt_append {left right front back : List UInt8} (same : left.length = right.length)
    (below : left < right) : left ++ front < right ++ back := by
  induction left generalizing right with
  | nil =>
      obtain rfl := List.length_eq_zero_iff.mp same.symm
      exact absurd below (lt_irrefl _)
  | cons head tail ih =>
      cases right with
      | nil => cases same
      | cons other rest =>
          rw [List.cons_append, List.cons_append, cons_lt_cons]
          rcases cons_lt_cons.mp below with first | ⟨rfl, later⟩
          · exact Or.inl first
          · exact Or.inr ⟨rfl, ih (Nat.succ.inj same) later⟩

theorem append_lt_append_left {shared front back : List UInt8} (below : front < back) :
    shared ++ front < shared ++ back := by
  induction shared with
  | nil => exact below
  | cons head tail ih => exact cons_lt_cons.mpr (Or.inr ⟨rfl, ih⟩)

theorem toBigEndian_lt {width left right : Nat} (below : left < right)
    (fits : right < 256 ^ width) : toBigEndian width left < toBigEndian width right := by
  induction width generalizing left right with
  | zero =>
      rw [Nat.pow_zero] at fits
      omega
  | succ width ih =>
      have positive : 0 < 256 ^ width := by positivity
      have digit : right / 256 ^ width < 256 := by
        rw [Nat.div_lt_iff_lt_mul positive, ← Nat.pow_succ']
        exact fits
      have ordered : left / 256 ^ width ≤ right / 256 ^ width := Nat.div_le_div_right below.le
      rw [toBigEndian, toBigEndian, cons_lt_cons]
      rcases ordered.lt_or_eq with first | same
      · left
        rw [UInt8.lt_iff_toNat_lt, UInt8.toNat_ofNat_of_lt' (first.trans digit),
          UInt8.toNat_ofNat_of_lt' digit]
        exact first
      · right
        refine ⟨by rw [same], ?_⟩
        have leftSplit := Nat.div_add_mod' left (256 ^ width)
        have rightSplit := Nat.div_add_mod' right (256 ^ width)
        rw [← leftSplit, ← rightSplit, toBigEndian_add_mul, toBigEndian_add_mul]
        refine ih ?_ (Nat.mod_lt _ positive)
        rw [same] at leftSplit
        omega

end ByteOrder
