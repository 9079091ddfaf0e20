/-
The ecash module: notes are spent as inputs and issued as outputs.
-/

import Picomint.Consensus.Ledger

namespace Picomint.Consensus.Ecash

open Tss

variable {curve : Curve}

def processInput (mint : MintConfig curve) (ledger : Ledger curve) (input : EcashInput) :
    Outcome EcashInputError ((Nat × XOnlyPublicKey) × Ledger curve) := do
  ensure (!ledger.noteNonce.contains input.note.nonce) .spentCoin
  let ledger := { ledger with noteNonce := ledger.noteNonce.insert input.note.nonce ⟨⟩ }
  let pk ← okOr (mint.tbsAggPks.get? input.note.denomination) .invalidDenomination
  ensure (mint.verifyNote input.note pk) .invalidSignature
  return ((input.note.denomination.amount, input.note.nonce), ledger)

def processOutput (server : Server curve) (ledger : Ledger curve) (output : EcashOutput)
    (outpoint : OutPoint) : Outcome EcashOutputError (Nat × Ledger curve) := do
  ensure (!ledger.blindedNonce.contains output.nonce) .reusedNonce
  let key ← okOr (server.tbsSks.get? output.denomination) .invalidDenomination
  let signature := server.signNonce output.nonce key
  let ledger := { ledger with
    blindedNonce := ledger.blindedNonce.insert output.nonce output.denomination
    blindedSignatureShare := ledger.blindedSignatureShare.insert outpoint signature
    blindedSignatureShareRestore :=
      ledger.blindedSignatureShareRestore.insert output.nonce signature }
  return (output.denomination.amount, ledger)

/-! ### What an accepted input or output did -/

theorem processInput_ok {mint : MintConfig curve} {ledger after : Ledger curve} {input : EcashInput}
    {amount : Nat} {pk : XOnlyPublicKey}
    (processed : processInput mint ledger input = .ok ((amount, pk), after)) :
    ledger.noteNonce.contains input.note.nonce = false ∧
      (∃ key, mint.tbsAggPks.get? input.note.denomination = some key ∧
        mint.verifyNote input.note key = true) ∧
      amount = input.note.denomination.amount ∧ pk = input.note.nonce ∧
      after = { ledger with noteNonce := ledger.noteNonce.insert input.note.nonce ⟨⟩ } := by
  unfold processInput at processed
  simp only [bind_eq_ok, ensure_eq_ok, okOr_eq_ok, Bool.not_eq_true'] at processed
  obtain ⟨_, fresh, key, found, _, signed, result⟩ := processed
  cases result
  exact ⟨fresh, ⟨key, found, signed⟩, rfl, rfl, rfl⟩

theorem processOutput_ok {server : Server curve} {ledger after : Ledger curve}
    {output : EcashOutput} {outpoint : OutPoint} {amount : Nat}
    (processed : processOutput server ledger output outpoint = .ok (amount, after)) :
    ledger.blindedNonce.contains output.nonce = false ∧
      (∃ key, server.tbsSks.get? output.denomination = some key ∧
        after = { ledger with
          blindedNonce := ledger.blindedNonce.insert output.nonce output.denomination
          blindedSignatureShare :=
            ledger.blindedSignatureShare.insert outpoint (server.signNonce output.nonce key)
          blindedSignatureShareRestore := ledger.blindedSignatureShareRestore.insert output.nonce
            (server.signNonce output.nonce key) }) ∧
      amount = output.denomination.amount := by
  unfold processOutput at processed
  simp only [bind_eq_ok, ensure_eq_ok, okOr_eq_ok, Bool.not_eq_true'] at processed
  obtain ⟨_, fresh, key, found, result⟩ := processed
  cases result
  exact ⟨fresh, ⟨key, found, rfl⟩, rfl⟩

/-- A configured denomination is below 42, so its amount is exact. -/
theorem denomination_below {table : SortedMap Denomination Nat}
    (keys : table.keys = CONSENSUS_DENOMINATIONS) {denomination : Denomination} {key : Nat}
    (found : table.get? denomination = some key) : denomination < 42 := by
  have member := (table.mem_keys denomination).mpr ⟨key, found⟩
  rw [keys] at member
  exact List.mem_range.mp member

theorem amount_of_below {denomination : Denomination} (below : denomination < 42) :
    denomination.amount = 2 ^ denomination := by
  unfold Denomination.amount
  rw [Nat.mod_eq_of_lt (below.trans (by decide))]

end Picomint.Consensus.Ecash
