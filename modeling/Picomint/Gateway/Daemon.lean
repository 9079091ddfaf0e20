/-
The gateway daemon: its tables, the Lightning node it drives, its requests and
its handlers of Lightning events.

What the wallet and the Lightning node answer is handed in with a request or an
event.  A handler works on one write transaction of the database; what it asks
of the node happens at once.
-/

import Picomint.Client.MaxSend

namespace Picomint.Gateway

open Client

abbrev MintId := Nat

abbrev OperationId := Hash

abbrev NodeId := Nat

structure Bolt11Invoice where
  /-- `consensus_hash` of the invoice. -/
  digest : Hash
  paymentHash : Hash
  amountMilliSatoshis : Option Nat
  payeePubKey : NodeId
deriving DecidableEq, Repr

/-- The hashes and keys of the libraries, and the options of the daemon. -/
structure GatewayContext where
  contractId : OutgoingContract → Hash
  /-- `consensus_hash` of an incoming contract, which is its preimage. -/
  contractHash : IncomingContract → Nat
  preimageHash : Nat → Hash
  gatewayPk : MintId → XOnlyPublicKey
  nodeId : NodeId
  sendFee : PaymentFee
  receiveFee : PaymentFee

namespace GatewayContext

variable (ctx : GatewayContext)

def preimage (contract : IncomingContract) : Nat := ctx.contractHash contract

def paymentHash (contract : IncomingContract) : Hash := ctx.preimageHash (ctx.preimage contract)

end GatewayContext

/-- `PaymentFee::fee`, which fits for the fees a daemon may be started with. -/
def fee (fee : PaymentFee) (msat : Nat) : Nat := saturatingMul msat fee.ppm / 1000000 + fee.base

/-! ### The tables -/

structure OutgoingContractRow where
  mint : MintId
  contract : OutgoingContract
  outpoint : OutPoint
  invoice : Bolt11Invoice
deriving DecidableEq, Repr

structure IncomingContractRow where
  mint : MintId
  contract : IncomingContract
  invoice : Bolt11Invoice
deriving DecidableEq, Repr

/-- What the client writes for the daemon: an event, and with a success or a
receive the transaction that claims or funds the contract. -/
inductive ClientRecord where
  | send (operation : OperationId) (outpoint : OutPoint) (amount fee : Nat)
  | sendSuccess (operation : OperationId) (contract : OutgoingContract) (outpoint : OutPoint)
      (preimage lightningFee : Nat)
  | sendCancel (operation : OperationId) (contract : OutgoingContract)
  | receive (operation : OperationId) (contract : IncomingContract)
deriving DecidableEq, Repr

/-- The database of the daemon, with what the client keeps in it. -/
structure GatewayDb where
  outgoingContract : SortedMap OperationId OutgoingContractRow
  paymentHash : SortedMap Hash OperationId
  incomingContract : SortedMap OperationId IncomingContractRow
  ldkEventPaymentHash : SortedMap Hash Unit
  mints : List MintId
  log : List ClientRecord

namespace GatewayDb

def empty : GatewayDb :=
  { outgoingContract := SortedMap.empty
    paymentHash := SortedMap.empty
    incomingContract := SortedMap.empty
    ldkEventPaymentHash := SortedMap.empty
    mints := []
    log := [] }

def record (db : GatewayDb) (record : ClientRecord) : GatewayDb :=
  { db with log := db.log ++ [record] }

/-- `outgoing_contract`. -/
def outgoing (db : GatewayDb) (paymentHash : Hash) : Option (OperationId × OutgoingContractRow) :=
  (db.paymentHash.get? paymentHash).bind fun operation =>
    (db.outgoingContract.get? operation).map fun row => (operation, row)

/-- `wipe_mint_rows`, with the removal of the mint from the client. -/
def removeMint (db : GatewayDb) (mint : MintId) : GatewayDb :=
  let outgoing := db.outgoingContract.rows.filter fun entry => entry.2.mint = mint
  let incoming := db.incomingContract.rows.filter fun entry => entry.2.mint = mint
  { db with
    outgoingContract := outgoing.foldl (fun table entry => table.erase entry.1) db.outgoingContract
    paymentHash :=
      outgoing.foldl (fun table entry => table.erase entry.2.contract.paymentHash) db.paymentHash
    incomingContract := incoming.foldl (fun table entry => table.erase entry.1) db.incomingContract
    mints := db.mints.filter (· ≠ mint) }

end GatewayDb

/-! ### The client -/

/-- `gateway_start_receive`.  Whether the routing account has the funds is
handed in. -/
def gatewayStartReceive (db : GatewayDb) (funds : Bool) (mint : MintId) (operation : OperationId)
    (contract : IncomingContract) : Attempt GatewayDb :=
  if mint ∈ db.mints then
    match contract.claimAmount with
    | none => .error .panicked
    | some _ => if funds then .ok (db.record (.receive operation contract)) else .error .refused
  else .error .refused

/-- `gateway_finalize_send`.  A contract may be too small to be claimed. -/
def gatewayFinalizeSend (db : GatewayDb) (claims : Bool) (mint : MintId) (operation : OperationId)
    (contract : OutgoingContract) (outpoint : OutPoint) (success : Option (Nat × Nat)) :
    Attempt GatewayDb :=
  if mint ∈ db.mints then
    match success with
    | some (preimage, lightningFee) =>
        if claims then
          .ok (db.record (.sendSuccess operation contract outpoint preimage lightningFee))
        else .ok db
    | none => .ok (db.record (.sendCancel operation contract))
  else .error .refused

/-! ### The Lightning node -/

/-- A payment that was refused is a failed one too, without an event. -/
inductive PaymentStatus where
  | pending
  | succeeded (preimage : Nat)
  | failed
  | refused
deriving DecidableEq, Repr

/-- A payment of the node's store, which an invoice of its own is as well. -/
inductive LdkPayment where
  | inbound
  | outbound (status : PaymentStatus)
deriving DecidableEq, Repr

structure Ldk where
  payments : SortedMap Hash LdkPayment

inductive LdkEvent where
  | paymentClaimable (paymentHash : Hash) (claimableAmountMsat : Nat)
  | paymentSuccessful (paymentHash : Hash) (preimage : Nat) (feePaidMsat : Option Nat)
  | paymentFailed (paymentHash : Hash)
deriving DecidableEq, Repr

def LdkEvent.paymentHash : LdkEvent → Hash
  | .paymentClaimable paymentHash _ => paymentHash
  | .paymentSuccessful paymentHash _ _ => paymentHash
  | .paymentFailed paymentHash => paymentHash

/-- The answers to an inbound HTLC. -/
inductive LdkCall where
  | claimForHash (paymentHash : Hash) (amountMsat preimage : Nat)
  | failForHash (paymentHash : Hash)
deriving DecidableEq, Repr

def LdkCall.paymentHash : LdkCall → Hash
  | .claimForHash paymentHash _ _ => paymentHash
  | .failForHash paymentHash => paymentHash

/-- How the node takes a payment on: it accepts it, or refuses it and may
record it as failed. -/
inductive LdkAnswer where
  | accepted
  | refused (recorded : Bool)
deriving DecidableEq, Repr

def Ldk.send (ldk : Ldk) (paymentHash : Hash) : LdkAnswer → Ldk
  | .accepted => { payments := ldk.payments.insert paymentHash (.outbound .pending) }
  | .refused true => { payments := ldk.payments.insert paymentHash (.outbound .refused) }
  | .refused false => ldk

/-- `receive_for_hash`, which overwrites what is stored. -/
def Ldk.receiveForHash (ldk : Ldk) (paymentHash : Hash) : Ldk :=
  { payments := ldk.payments.insert paymentHash .inbound }

/-! ### Lightning events -/

/-- `fail_for_hash`, expected to find the payment. -/
def failForHash (ldk : Ldk) (db : GatewayDb) (paymentHash : Hash) :
    Attempt (GatewayDb × List LdkCall) := do
  let _ ← demand (ldk.payments.get? paymentHash)
  return (db, [.failForHash paymentHash])

/-- What the wallet answers a handler. -/
structure Wallet where
  funds : Bool
  claims : Bool
deriving DecidableEq, Repr

def handlePaymentClaimable (ctx : GatewayContext) (ldk : Ldk) (wallet : Wallet) (db : GatewayDb)
    (paymentHash : Hash) (amountMsat : Nat) : Attempt (GatewayDb × List LdkCall) :=
  if db.ldkEventPaymentHash.contains paymentHash then .ok (db, [])
  else
    let db := { db with ldkEventPaymentHash := db.ldkEventPaymentHash.insert paymentHash () }
    match db.incomingContract.get? paymentHash with
    | none => failForHash ldk db paymentHash
    | some row =>
        if row.contract.amount ≠ amountMsat then failForHash ldk db paymentHash
        else match gatewayStartReceive db wallet.funds row.mint paymentHash row.contract with
          | .error .panicked => .error .panicked
          | .error .refused => failForHash ldk db paymentHash
          | .ok db =>
              .ok ({ db with incomingContract := db.incomingContract.erase paymentHash },
                [.claimForHash paymentHash amountMsat (ctx.preimage row.contract)])

/-- The shared part of `handle_payment_successful` and `handle_payment_failed`. -/
def settleOutgoing (wallet : Wallet) (db : GatewayDb) (paymentHash : Hash)
    (success : Option (Nat × Nat)) : Attempt (GatewayDb × List LdkCall) :=
  if db.ldkEventPaymentHash.contains paymentHash then .ok (db, [])
  else
    let db := { db with ldkEventPaymentHash := db.ldkEventPaymentHash.insert paymentHash () }
    match db.outgoing paymentHash with
    | none => .ok (db, [])
    | some (operation, row) =>
        match gatewayFinalizeSend db wallet.claims row.mint operation row.contract row.outpoint
            success with
        | .error _ => .error .panicked
        | .ok db => .ok (db, [])

def handlePaymentSuccessful (wallet : Wallet) (db : GatewayDb) (paymentHash : Hash)
    (preimage lightningFee : Nat) : Attempt (GatewayDb × List LdkCall) :=
  settleOutgoing wallet db paymentHash (some (preimage, lightningFee))

def handlePaymentFailed (wallet : Wallet) (db : GatewayDb) (paymentHash : Hash) :
    Attempt (GatewayDb × List LdkCall) :=
  settleOutgoing wallet db paymentHash none

def processLdkEvent (ctx : GatewayContext) (ldk : Ldk) (wallet : Wallet) (db : GatewayDb) :
    LdkEvent → Attempt (GatewayDb × List LdkCall)
  | .paymentClaimable paymentHash amountMsat =>
      handlePaymentClaimable ctx ldk wallet db paymentHash amountMsat
  | .paymentSuccessful paymentHash preimage feePaidMsat =>
      handlePaymentSuccessful wallet db paymentHash preimage (feePaidMsat.getD 0)
  | .paymentFailed paymentHash => handlePaymentFailed wallet db paymentHash

/-! ### Requests -/

structure SendRequest where
  mint : MintId
  outpoint : OutPoint
  contract : OutgoingContract
  invoice : Bolt11Invoice
deriving DecidableEq, Repr

structure ReceiveRequest where
  mint : MintId
  contract : IncomingContract
deriving DecidableEq, Repr

/-- Why a payment is not started. -/
inductive StartError where
  | invoiceNotCommitted
  | invoiceMissingAmount
  | invoicePaymentHashMismatch
  | contractAmountMismatch
  | contractFeeMismatch
  | alreadyAttempted
  | ldkHoldsPayment
  | ldkRefused
  | noUnfundedContract
  | directSwapAmountMismatch
  | directSwapNotFunded
deriving DecidableEq, Repr

/-- What a payment leaves in the database and the node, and whether it was
started. -/
structure Started where
  db : GatewayDb
  ldk : Ldk
  error : Option StartError

section Requests

variable (ctx : GatewayContext) (wallet : Wallet) (answer : LdkAnswer)

def startLightning (db : GatewayDb) (ldk : Ldk) (payload : SendRequest) (operation : OperationId) :
    Started :=
  if db.paymentHash.contains payload.contract.paymentHash then ⟨db, ldk, some .alreadyAttempted⟩
  else if ldk.payments.contains payload.contract.paymentHash then
    ⟨db, ldk, some .ldkHoldsPayment⟩
  else
    ⟨{ db with paymentHash := db.paymentHash.insert payload.contract.paymentHash operation },
      ldk.send payload.contract.paymentHash answer,
      if answer = .accepted then none else some .ldkRefused⟩

def startSwap (db : GatewayDb) (ldk : Ldk) (payload : SendRequest) (operation : OperationId)
    (amount : Nat) : Attempt Started :=
  let incomingOperation : OperationId := payload.contract.paymentHash
  match db.incomingContract.get? incomingOperation with
  | none => .ok ⟨db, ldk, some .noUnfundedContract⟩
  | some row =>
      if row.contract.amount ≠ amount then .ok ⟨db, ldk, some .directSwapAmountMismatch⟩
      else match gatewayStartReceive db wallet.funds row.mint incomingOperation row.contract with
        | .error .panicked => .error .panicked
        | .error .refused => .ok ⟨db, ldk, some .directSwapNotFunded⟩
        | .ok db => do
            let db ← gatewayFinalizeSend
              { db with incomingContract := db.incomingContract.erase incomingOperation }
              wallet.claims payload.mint operation payload.contract payload.outpoint
              (some (ctx.preimage row.contract, 0))
            return ⟨db, ldk, none⟩

def startPayment (db : GatewayDb) (ldk : Ldk) (payload : SendRequest) (operation : OperationId) :
    Attempt Started :=
  if payload.invoice.digest ≠ payload.contract.invoice then
    .ok ⟨db, ldk, some .invoiceNotCommitted⟩
  else match payload.invoice.amountMilliSatoshis with
    | none => .ok ⟨db, ldk, some .invoiceMissingAmount⟩
    | some amount =>
        if payload.invoice.paymentHash ≠ payload.contract.paymentHash then
          .ok ⟨db, ldk, some .invoicePaymentHashMismatch⟩
        else if payload.contract.amount ≠ amount then
          .ok ⟨db, ldk, some .contractAmountMismatch⟩
        else if payload.contract.fee ≠ fee ctx.sendFee amount then
          .ok ⟨db, ldk, some .contractFeeMismatch⟩
        else if ctx.nodeId ≠ payload.invoice.payeePubKey then
          .ok (startLightning answer db ldk payload operation)
        else startSwap ctx wallet db ldk payload operation amount

/-- `send`, up to the wait for its outcome.  A refused request writes nothing.
The contract the mint holds at the outpoint is handed in. -/
def send (db : GatewayDb) (ldk : Ldk) (payload : SendRequest) (held : Option Hash) :
    Attempt (GatewayDb × Ldk) := do
  if payload.mint ∉ db.mints ∨ payload.contract.claimPk ≠ ctx.gatewayPk payload.mint then
    .error .refused
  else if held ≠ some (ctx.contractId payload.contract) then .error .refused
  else
    let operation : OperationId := ctx.contractId payload.contract
    if db.outgoingContract.contains operation then return (db, ldk)
    else
      let db := { db with
        outgoingContract := db.outgoingContract.insert operation
          { mint := payload.mint
            contract := payload.contract
            outpoint := payload.outpoint
            invoice := payload.invoice } }
      let db := db.record
        (.send operation payload.outpoint payload.contract.amount payload.contract.fee)
      let started ← startPayment ctx wallet answer db ldk payload operation
      match started.error with
      | none => return (started.db, started.ldk)
      | some _ =>
          let db ← gatewayFinalizeSend started.db wallet.claims payload.mint operation
            payload.contract payload.outpoint none
          return (db, started.ldk)

/-- `receive`.  The node may refuse to make the invoice. -/
def receive (db : GatewayDb) (ldk : Ldk) (payload : ReceiveRequest)
    (invoice : Option Bolt11Invoice) :
    Attempt (GatewayDb × Ldk) :=
  if payload.mint ∉ db.mints then .error .refused
  else if payload.contract.fee ≠ fee ctx.receiveFee payload.contract.amount then .error .refused
  else if payload.contract.claimAmount = none then .error .refused
  else if db.paymentHash.contains (ctx.paymentHash payload.contract) then .error .refused
  else if ldk.payments.contains (ctx.paymentHash payload.contract) then .error .refused
  else match invoice with
    | none => .error .refused
    | some invoice =>
        .ok ({ db with
          incomingContract := db.incomingContract.insert (ctx.paymentHash payload.contract)
            { mint := payload.mint
              contract := payload.contract
              invoice := invoice } },
          ldk.receiveForHash (ctx.paymentHash payload.contract))

end Requests

end Picomint.Gateway
