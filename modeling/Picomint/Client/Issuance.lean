/-
A client's derivation of its notes.

Every account issues from one counter, and a counter's keys do not depend on
the denomination its note gets.
-/

import Picomint.Core.Tx

namespace Picomint.Client

/-- The balances of a client. -/
inductive Account where
  | primary
  | secondary
  | tertiary
  | quaternary
  | quinary
deriving DecidableEq, Repr

def Account.index : Account → Nat
  | .primary => 0
  | .secondary => 1
  | .tertiary => 2
  | .quaternary => 3
  | .quinary => 4

abbrev Keypair := Nat

abbrev BlindingKey := Nat

abbrev BlindedSignature := Nat

/-- The key functions of the libraries. -/
structure NoteKeys where
  xOnlyPublicKey : Keypair → XOnlyPublicKey
  /-- `blind_nonce` of the point `Nonce::from_public_key` hashes to. -/
  blindNonce : XOnlyPublicKey → BlindingKey → BlindedNonce
  unblindSignature : BlindingKey → BlindedSignature → Nat

/-- The derivations of a seed. -/
structure EcashSecret extends NoteKeys where
  noteNonceKeypair : Account → Nat → Keypair
  noteBlindingKey : Account → Nat → BlindingKey

structure NoteIssuance where
  account : Account
  counter : Nat
  keypair : Keypair
  blindingKey : BlindingKey
deriving DecidableEq, Repr

structure NoteIssuanceRequest where
  denomination : Denomination
  issuance : NoteIssuance
deriving DecidableEq, Repr

structure SpendableNote where
  denomination : Denomination
  keypair : Keypair
  signature : Nat
deriving DecidableEq, Repr

namespace NoteIssuance

def new (secret : EcashSecret) (account : Account) (counter : Nat) : NoteIssuance :=
  { account
    counter
    keypair := secret.noteNonceKeypair account counter
    blindingKey := secret.noteBlindingKey account counter }

def nonce (keys : NoteKeys) (issuance : NoteIssuance) : XOnlyPublicKey :=
  keys.xOnlyPublicKey issuance.keypair

def blindedNonce (keys : NoteKeys) (issuance : NoteIssuance) : BlindedNonce :=
  keys.blindNonce (issuance.nonce keys) issuance.blindingKey

def request (issuance : NoteIssuance) (denomination : Denomination) : NoteIssuanceRequest :=
  { denomination
    issuance }

end NoteIssuance

namespace NoteIssuanceRequest

def new (secret : EcashSecret) (account : Account) (denomination : Denomination) (counter : Nat) :
    NoteIssuanceRequest :=
  (NoteIssuance.new secret account counter).request denomination

def nonce (keys : NoteKeys) (request : NoteIssuanceRequest) : XOnlyPublicKey :=
  request.issuance.nonce keys

def blindedNonce (keys : NoteKeys) (request : NoteIssuanceRequest) : BlindedNonce :=
  request.issuance.blindedNonce keys

def output (keys : NoteKeys) (request : NoteIssuanceRequest) : EcashOutput :=
  { denomination := request.denomination
    nonce := request.blindedNonce keys }

def finalize (keys : NoteKeys) (request : NoteIssuanceRequest) (signature : BlindedSignature) :
    SpendableNote :=
  { denomination := request.denomination
    keypair := request.issuance.keypair
    signature := keys.unblindSignature request.issuance.blindingKey signature }

end NoteIssuanceRequest

namespace SpendableNote

def amount (note : SpendableNote) : Nat := note.denomination.amount

def nonce (keys : NoteKeys) (note : SpendableNote) : XOnlyPublicKey :=
  keys.xOnlyPublicKey note.keypair

def note (keys : NoteKeys) (note : SpendableNote) : Note :=
  { denomination := note.denomination
    nonce := note.nonce keys
    signature := note.signature }

end SpendableNote

/-! ### What a seed derives -/

namespace EcashSecret

variable (secret : EcashSecret)

def nonce (account : Account) (counter : Nat) : XOnlyPublicKey :=
  (NoteIssuance.new secret account counter).nonce secret.toNoteKeys

def blindedNonce (account : Account) (counter : Nat) : BlindedNonce :=
  (NoteIssuance.new secret account counter).blindedNonce secret.toNoteKeys

structure Distinct : Prop where
  nonces : ∀ (account account' : Account) (counter counter' : Nat),
    secret.nonce account counter = secret.nonce account' counter' →
      account = account' ∧ counter = counter'
  blindedNonces : ∀ (account account' : Account) (counter counter' : Nat),
    secret.blindedNonce account counter = secret.blindedNonce account' counter' →
      account = account' ∧ counter = counter'

end EcashSecret

/-! ### A seed to evaluate with -/

def sampleSecret : EcashSecret where
  xOnlyPublicKey := id
  blindNonce := fun nonce _ => nonce
  unblindSignature := fun _ signature => signature
  noteNonceKeypair := fun account counter => 5 * counter + account.index
  noteBlindingKey := fun _ _ => 1

theorem sampleSecret_distinct : sampleSecret.Distinct := by
  have separated : ∀ (account account' : Account) (counter counter' : Nat),
      5 * counter + account.index = 5 * counter' + account'.index →
        account = account' ∧ counter = counter' := by
    intro account account' counter counter' same
    cases account <;> cases account' <;> simp only [Account.index] at same <;>
      first
        | exact ⟨rfl, by omega⟩
        | omega
  exact ⟨separated, separated⟩

end Picomint.Client
