/-
The deposit scanner of a client, and the endpoint it reads.

One cursor walks the tracked outputs of the mint for all accounts.  A deposit
to the highest address of an account opens the account's next address; the
addresses the mint does not track are skipped.
-/

import Picomint.Client.Tables
import Picomint.Consensus.WalletHistory
import Picomint.Consensus.Tracking

namespace Picomint

open Tss

/-! ### The endpoint -/

structure OutputInfo where
  index : Nat
  script : Script
  value : Nat
  spent : Bool
deriving DecidableEq, Repr

/-- The taproot outputs among the tracked ones of an index range. -/
def Consensus.Onchain.getOutputs {curve : Curve} (isP2tr : Script → Bool)
    (ledger : Consensus.Ledger curve) (startIndex endIndex : Nat) : List OutputInfo :=
  let spent := (ledger.spentOutputIndex.range startIndex endIndex).map Prod.fst
  (ledger.output.range startIndex endIndex).filterMap (fun row =>
    if isP2tr row.2.out.scriptPubkey then
      some
        { index := row.1
          script := row.2.out.scriptPubkey
          value := row.2.out.value
          spent := spent.contains row.1 }
    else none)

namespace Client

open Consensus

/-- Number of output info entries to scan per batch. -/
def SLICE_SIZE : Nat := 1000

/-! ### Tables -/

structure AddressKey where
  account : Account
  index : Nat
deriving DecidableEq, Repr

theorem AddressKey.toLex_injective :
    Function.Injective (fun key : AddressKey => toLex (key.account, key.index)) := by
  intro left right same
  cases left
  cases right
  cases toLex.injective same
  rfl

instance : LinearOrder AddressKey :=
  LinearOrder.lift' (fun key => toLex (key.account, key.index)) AddressKey.toLex_injective

structure ScannerTables where
  nextOutputIndex : Option Nat
  validAddressIndex : SortedSet AddressKey

namespace ScannerTables

def empty : ScannerTables :=
  { nextOutputIndex := none
    validAddressIndex := SortedMap.empty }

def cursor (tables : ScannerTables) : Nat := tables.nextOutputIndex.getD 0

def insertAddress (tables : ScannerTables) (key : AddressKey) : ScannerTables :=
  { tables with validAddressIndex := tables.validAddressIndex.insert key ⟨⟩ }

def highestValidIndex (tables : ScannerTables) (account : Account) : Option Nat :=
  (tables.validAddressIndex.keys.filter (fun key => key.account = account)).getLast?.map
    AddressKey.index

end ScannerTables

/-! ### Addresses -/

/-- What the scripts are to the libraries: an address is a taproot output of a
key of its own, and the filter lets some address of every account through. -/
structure Addresses where
  isP2tr : Script → Bool
  isPotentialReceive : Script → Bool
  deriveAddress : AddressKey → Script
  address_p2tr : ∀ key, isP2tr (deriveAddress key) = true
  address_injective : Function.Injective deriveAddress
  valid_exists : ∀ account startIndex, ∃ index, startIndex ≤ index ∧
    isPotentialReceive (deriveAddress { account, index }) = true

namespace Addresses

variable (addresses : Addresses)

def Valid (key : AddressKey) : Prop :=
  addresses.isPotentialReceive (addresses.deriveAddress key) = true

def nextValidIndex (account : Account) (startIndex : Nat) : Nat :=
  Nat.find (addresses.valid_exists account startIndex)

variable {addresses}

theorem nextValidIndex_valid (account : Account) (startIndex : Nat) :
    addresses.Valid { account, index := addresses.nextValidIndex account startIndex } :=
  (Nat.find_spec (addresses.valid_exists account startIndex)).2

theorem le_nextValidIndex (account : Account) (startIndex : Nat) :
    startIndex ≤ addresses.nextValidIndex account startIndex :=
  (Nat.find_spec (addresses.valid_exists account startIndex)).1

theorem nextValidIndex_le {account : Account} {startIndex index : Nat}
    (above : startIndex ≤ index) (valid : addresses.Valid { account, index }) :
    addresses.nextValidIndex account startIndex ≤ index :=
  Nat.find_min' _ ⟨above, valid⟩

end Addresses

/-! ### The scan of a slice -/

/-- What the mint and the account answer when a deposit is looked at. -/
structure DepositAnswers where
  /-- The length of the pending transaction chain, if the request succeeds. -/
  pendingTxChain : Option Nat
  receiveFee : Option (Option Nat)
  /-- Whether the account has the funds to claim it. -/
  affordable : Bool
  accepted : Bool
deriving DecidableEq, Repr

inductive ScanStop where
  | failed
  | waiting
  | panicked
deriving DecidableEq, Repr

/-- A deposit the scanner matched and passed. -/
structure Deposit where
  output : OutputInfo
  address : AddressKey
  answers : DepositAnswers
  claimed : Bool
deriving DecidableEq, Repr

structure Scan where
  tables : ScannerTables
  addressMap : SortedMap Script AddressKey
  frontier : SortedMap Account Nat
  passed : List Deposit

def claimDeposit (answers : DepositAnswers) (output : OutputInfo) : Except ScanStop Bool :=
  if output.spent then .ok false
  else
    match answers.pendingTxChain with
    | none => .error .failed
    | some pending =>
        -- the congestion will clear up within a few blocks
        if 3 ≤ pending then .error .waiting
        else
          match answers.receiveFee with
          | none => .error .failed
          | some none => .error .failed
          | some (some receiveFee) =>
              if receiveFee < output.value then
                if answers.affordable then
                  if answers.accepted then .ok true else .error .failed
                else .ok false
              else .ok false

namespace Scan

def start (addresses : Addresses) (tables : ScannerTables) : Scan :=
  { tables
    addressMap := tables.validAddressIndex.keys.foldl
      (fun map key => map.insert (addresses.deriveAddress key) key) SortedMap.empty
    frontier := tables.validAddressIndex.keys.foldl
      (fun frontier key => frontier.insert key.account
        (match frontier.get? key.account with
          | some highest => max highest key.index
          | none => key.index)) SortedMap.empty
    passed := [] }

/-- Open the account's next valid address. -/
def extend (addresses : Addresses) (scan : Scan) (key : AddressKey) : Scan :=
  { scan with
    tables := scan.tables.insertAddress key
    addressMap := scan.addressMap.insert (addresses.deriveAddress key) key
    frontier := scan.frontier.insert key.account key.index }

def advance (scan : Scan) (index : Nat) : Scan :=
  { scan with tables := { scan.tables with nextOutputIndex := some (index + 1) } }

/-- The cursor moves past a matched deposit. -/
def pass (scan : Scan) (deposit : Deposit) : Scan :=
  { scan.advance deposit.output.index with passed := scan.passed ++ [deposit] }

def extendFrontier (addresses : Addresses) (scan : Scan) (address : AddressKey)
    (highest : Nat) : Scan :=
  if address.index = highest then
    scan.extend addresses
      { account := address.account
        index := addresses.nextValidIndex address.account (highest + 1) }
  else scan

def output (addresses : Addresses) (answers : Nat → DepositAnswers) (scan : Scan)
    (output : OutputInfo) : Scan × Option ScanStop :=
  match scan.addressMap.get? output.script with
  | none => (scan.advance output.index, none)
  | some address =>
      match scan.frontier.get? address.account with
      | none => (scan, some .panicked)
      | some highest =>
          let scan := scan.extendFrontier addresses address highest
          match claimDeposit (answers output.index) output with
          | .error stop => (scan, some stop)
          | .ok claimed =>
              (scan.pass { output, address, answers := answers output.index, claimed }, none)

def outputs (addresses : Addresses) (answers : Nat → DepositAnswers) :
    Scan → List OutputInfo → Scan × Option ScanStop
  | scan, [] => (scan, none)
  | scan, first :: rest =>
      match scan.output addresses answers first with
      | (scan, none) => outputs addresses answers scan rest
      | (scan, some stop) => (scan, some stop)

end Scan

/-- One run over the slice from the cursor on: the scan it leaves, and why it
stopped before the end of the slice. -/
def checkOutputs {curve : Curve} (addresses : Addresses) (answers : Nat → DepositAnswers)
    (ledger : Ledger curve) (tables : ScannerTables) : Scan × Option ScanStop :=
  (Scan.start addresses tables).outputs addresses answers
    (Onchain.getOutputs addresses.isP2tr ledger tables.cursor (tables.cursor + SLICE_SIZE))

/-- The account's address to deposit to, once it has one. -/
def onchainReceive (tables : ScannerTables) (account : Account) : Option AddressKey :=
  (tables.highestValidIndex account).map (fun index => { account, index })

/-- The scanner's first step: an address for an account that has none. -/
def seedAddress (addresses : Addresses) (tables : ScannerTables) (account : Account) :
    ScannerTables :=
  match tables.highestValidIndex account with
  | some _ => tables
  | none => tables.insertAddress { account, index := addresses.nextValidIndex account 0 }

end Client

end Picomint
