/-
The onchain module: deposits are claimed as inputs and withdrawals requested
as outputs.

The wallet is a single utxo.  Every claim but the first and every withdrawal
spends it by a mint transaction into a fresh one, which is then signed by the
nodes; at most one mint transaction is being signed at a time.
-/

import Picomint.Consensus.Votes

namespace Picomint.Consensus.Onchain

open Tss

variable {curve : Curve} {ε : Type}

def SEND_TX_VBYTES : Nat := 154

/-- A receive: a deposit and the wallet into the change. -/
def RECEIVE_TX_VBYTES : Nat := 169

/-- In sat/kvB. -/
def ONCHAIN_FEERATE_BASE : Nat := 250

/-- In sat. -/
def ONCHAIN_DUST_LIMIT : Nat := 10000

/-! ### Tweaked keys -/

/-- `Scalar::from_be_bytes`, which fails from the curve order on. -/
def tweakScalar (curve : Curve) (tweak : Hash) : Outcome ε curve.Scalar :=
  expect (if tweak < curve.order then some (tweak : curve.Scalar) else none) .tweak

def tweakPublicKey (pk : PublicKey curve) (tweak : Hash) : Outcome ε (PublicKey curve) := do
  let scalar ← tweakScalar curve tweak
  expect (pk.addExpTweak scalar) .tweak

def scriptPubkey (mint : MintConfig curve) (tweak : Hash) : Outcome ε Script := do
  let pk ← tweakPublicKey mint.aggPk tweak
  return mint.p2trScript pk.xOnly

def computeTxid (mint : MintConfig curve) (tx : BtcTransaction curve) : Txid :=
  mint.btcTxid (tx.input.map TxIn.previousOutput) tx.output

/-! ### Fees -/

def pendingTxsUnordered (ledger : Ledger curve) : List (MintTx curve) :=
  ledger.unsignedTx.toList ++ ledger.unconfirmedTx.values

def consensusFee (mint : MintConfig curve) (ledger : Ledger curve) (txVbytes : Nat) :
    Outcome ε (Option Nat) := do
  let pending := pendingTxsUnordered ledger
  assert (pending.length ≤ 32) .pendingTxs
  let rate ← consensusFeerate mint ledger
  match rate with
  | none => return none
  | some rate =>
      let feerate := max rate (ONCHAIN_FEERATE_BASE * 2 ^ pending.length)
      let txFee := saturatingMul txVbytes feerate / 1000
      let stackVbytes ← expect
        ((pending.map MintTx.vbytes).foldlM checkedAdd txVbytes) .stackVbytes
      let stackFee := saturatingMul stackVbytes feerate / 1000
      -- what the pending transactions already pay is deducted
      let stackFee := (pending.map MintTx.fee).foldl (fun rest fee => rest - fee) stackFee
      return some (max txFee stackFee)

def sendFee (mint : MintConfig curve) (ledger : Ledger curve) : Outcome ε (Option Nat) :=
  consensusFee mint ledger SEND_TX_VBYTES

def receiveFee (mint : MintConfig curve) (ledger : Ledger curve) : Outcome ε (Option Nat) :=
  consensusFee mint ledger RECEIVE_TX_VBYTES

/-! ### Inputs and outputs -/

def unsignedInput (curve : Curve) (outpoint : BtcOutPoint) : TxIn curve :=
  { previousOutput := outpoint
    witness := none }

def totalTxs (ledger : Ledger curve) : Nat := nextIndex ledger.txInfo

def changeUtxo (mint : MintConfig curve) (wallet : MintUtxo) (tx : BtcTransaction curve)
    (changeValue : Nat) : MintUtxo :=
  { value := changeValue
    outpoint := { txid := computeTxid mint tx, vout := 0 }
    tweak := mint.utxoHash wallet }

/-- The sweep of a deposit into the wallet. -/
def receiveTx (mint : MintConfig curve) (wallet : MintUtxo) (tracked : TrackedOutput)
    (input : OnchainInput) (changeValue : Nat) (script : Script) : MintTx curve :=
  { tx :=
      { input := [unsignedInput curve wallet.outpoint, unsignedInput curve tracked.outpoint]
        output := [{ value := changeValue, scriptPubkey := script }] }
    spentTxOuts :=
      [{ value := wallet.value, tweak := wallet.tweak },
        { value := tracked.out.value, tweak := mint.tweakHash input.tweak }]
    vbytes := RECEIVE_TX_VBYTES
    fee := input.fee }

/-- The payment of a withdrawal out of the wallet. -/
def sendTx (mint : MintConfig curve) (wallet : MintUtxo) (output : OnchainOutput)
    (changeValue : Nat) (script : Script) : MintTx curve :=
  { tx :=
      { input := [unsignedInput curve wallet.outpoint]
        output :=
          [{ value := changeValue, scriptPubkey := script },
            { value := output.value, scriptPubkey := mint.standardScript output.destination }] }
    spentTxOuts := [{ value := wallet.value, tweak := wallet.tweak }]
    vbytes := SEND_TX_VBYTES
    fee := output.fee }

def mintTxInfo (mint : MintConfig curve) (index : Nat) (wallet : MintUtxo) (mintTx : MintTx curve)
    (changeValue created : Nat) : TxInfo :=
  { index
    txid := computeTxid mint mintTx.tx
    input := wallet.value
    output := changeValue
    fee := mintTx.fee
    vbytes := mintTx.vbytes
    created }

/-- The wallet moves on to the change of its new transaction, which is
recorded under the next index. -/
def advanceWallet (mint : MintConfig curve) (ledger : Ledger curve) (wallet : MintUtxo)
    (mintTx : MintTx curve) (changeValue : Nat) : Outcome ε (Ledger curve) := do
  let index := totalTxs ledger
  let created ← consensusBlockHeight mint ledger
  return { ledger with
    mintUtxo := some (changeUtxo mint wallet mintTx.tx changeValue)
    txInfo := ledger.txInfo.insert index
      (mintTxInfo mint index wallet mintTx changeValue created) }

/-- The one transaction being signed, unless there is one already. -/
def insertUnsigned (ledger : Ledger curve) (unsigned : MintTx curve) (pending : ε) :
    Outcome ε (Ledger curve) := do
  ensure ledger.unsignedTx.isNone pending
  return { ledger with unsignedTx := some unsigned }

/-- Sweep a deposit into the existing wallet. -/
def receive (mint : MintConfig curve) (ledger : Ledger curve) (wallet : MintUtxo)
    (tracked : TrackedOutput) (input : OnchainInput) (outputValue : Nat) :
    Outcome OnchainInputError (Ledger curve) := do
  let changeValue ← okOr (checkedAdd wallet.value outputValue) .arithmeticOverflow
  let script ← scriptPubkey mint (mint.utxoHash wallet)
  let mintTx := receiveTx mint wallet tracked input changeValue script
  let ledger ← advanceWallet mint ledger wallet mintTx changeValue
  insertUnsigned ledger mintTx .pendingTransaction

/-- The first deposit becomes the wallet; a later one is swept into it. -/
def moveWallet (mint : MintConfig curve) (ledger : Ledger curve) (tracked : TrackedOutput)
    (input : OnchainInput) (outputValue : Nat) : Outcome OnchainInputError (Ledger curve) :=
  match ledger.mintUtxo with
  | some wallet => receive mint ledger wallet tracked input outputValue
  | none => .ok { ledger with
      mintUtxo := some
        { value := tracked.out.value
          outpoint := tracked.outpoint
          tweak := mint.tweakHash input.tweak } }

def processInput (mint : MintConfig curve) (ledger : Ledger curve) (input : OnchainInput) :
    Outcome OnchainInputError ((Nat × XOnlyPublicKey) × Ledger curve) := do
  ensure (!ledger.spentOutputIndex.contains input.outputIndex) .outputAlreadySpent
  let ledger := { ledger with
    spentOutputIndex := ledger.spentOutputIndex.insert input.outputIndex ⟨⟩ }
  let tracked ← okOr (ledger.output.get? input.outputIndex) .unknownOutputIndex
  let tweakedScript ← scriptPubkey mint (mint.tweakHash input.tweak)
  ensure (tracked.out.scriptPubkey = tweakedScript) .wrongTweak
  let consensusReceiveFee ← okOr (← receiveFee mint ledger) .noConsensusFeerateAvailable
  ensure (consensusReceiveFee ≤ input.fee) .insufficientTotalFee
  let outputValue ← okOr (checkedSub tracked.out.value input.fee) .arithmeticOverflow
  let ledger ← moveWallet mint ledger tracked input outputValue
  let amount ← okOr (checkedMul outputValue 1000) .arithmeticOverflow
  return ((amount, input.tweak), ledger)

def processOutput (mint : MintConfig curve) (ledger : Ledger curve) (output : OnchainOutput)
    (outpoint : OutPoint) : Outcome OnchainOutputError (Nat × Ledger curve) := do
  ensure (ONCHAIN_DUST_LIMIT ≤ output.value) .underDustLimit
  let wallet ← okOr ledger.mintUtxo .noMintUtxo
  let ledger := { ledger with mintUtxo := none }
  let consensusSendFee ← okOr (← sendFee mint ledger) .noConsensusFeerateAvailable
  ensure (consensusSendFee ≤ output.fee) .insufficientTotalFee
  let outputValue ← okOr (checkedAdd output.value output.fee) .arithmeticOverflow
  let changeValue ← okOr (checkedSub wallet.value outputValue) .arithmeticOverflow
  ensure (ONCHAIN_DUST_LIMIT ≤ changeValue) .changeUnderDustLimit
  let script ← scriptPubkey mint (mint.utxoHash wallet)
  let mintTx := sendTx mint wallet output changeValue script
  let index := totalTxs ledger
  let ledger ← advanceWallet mint ledger wallet mintTx changeValue
  let ledger := { ledger with txInfoIndex := ledger.txInfoIndex.insert outpoint index }
  let ledger ← insertUnsigned ledger mintTx .pendingTransaction
  let amount ← okOr (checkedMul outputValue 1000) .arithmeticOverflow
  return (amount, ledger)

/-! ### What an accepted input or output did -/

theorem insertUnsigned_ok {ledger after : Ledger curve} {unsigned : MintTx curve} {pending : ε}
    (inserted : insertUnsigned ledger unsigned pending = .ok after) :
    ledger.unsignedTx = none ∧ after = { ledger with unsignedTx := some unsigned } := by
  unfold insertUnsigned at inserted
  simp only [bind_eq_ok, ensure_eq_ok, Option.isNone_iff_eq_none] at inserted
  obtain ⟨_, absent, result⟩ := inserted
  cases result
  exact ⟨absent, rfl⟩

theorem advanceWallet_ok {mint : MintConfig curve} {ledger after : Ledger curve}
    {wallet : MintUtxo} {mintTx : MintTx curve} {changeValue : Nat}
    (advanced : (advanceWallet mint ledger wallet mintTx changeValue : Outcome ε _) =
      .ok after) :
    ∃ created, after = { ledger with
      mintUtxo := some (changeUtxo mint wallet mintTx.tx changeValue)
      txInfo := ledger.txInfo.insert (totalTxs ledger)
        (mintTxInfo mint (totalTxs ledger) wallet mintTx changeValue created) } := by
  unfold advanceWallet at advanced
  simp only [bind_eq_ok] at advanced
  obtain ⟨created, _, result⟩ := advanced
  cases result
  exact ⟨created, rfl⟩

structure Built (mint : MintConfig curve) (ledger : Ledger curve) (wallet : MintUtxo)
    (mintTx : MintTx curve) (changeValue : Nat) (after : Ledger curve) : Prop where
  idle : ledger.unsignedTx = none
  held : ledger.mintUtxo = some wallet
  unsigned : after.unsignedTx = some mintTx
  advanced : after.mintUtxo = some (changeUtxo mint wallet mintTx.tx changeValue)
  recorded : ∃ created, after.txInfo = ledger.txInfo.insert (totalTxs ledger)
    (mintTxInfo mint (totalTxs ledger) wallet mintTx changeValue created)

theorem receive_ok {mint : MintConfig curve} {ledger after : Ledger curve} {wallet : MintUtxo}
    {tracked : TrackedOutput} {input : OnchainInput} {outputValue : Nat}
    (received : receive mint ledger wallet tracked input outputValue = .ok after) :
    ∃ script created, wallet.value + outputValue < U64_BOUND ∧ ledger.unsignedTx = none ∧
      after = { ledger with
        mintUtxo := some (changeUtxo mint wallet
          (receiveTx mint wallet tracked input (wallet.value + outputValue) script).tx
          (wallet.value + outputValue))
        txInfo := ledger.txInfo.insert (totalTxs ledger) (mintTxInfo mint (totalTxs ledger) wallet
          (receiveTx mint wallet tracked input (wallet.value + outputValue) script)
          (wallet.value + outputValue) created)
        unsignedTx :=
          some (receiveTx mint wallet tracked input (wallet.value + outputValue) script) } := by
  unfold receive at received
  simp only [bind_eq_ok, okOr_eq_ok, checkedAdd_eq_some] at received
  obtain ⟨change, ⟨sum, below⟩, script, _, advanced, advance, inserted⟩ := received
  obtain ⟨created, same⟩ := advanceWallet_ok advance
  obtain ⟨idle, result⟩ := insertUnsigned_ok inserted
  subst sum same result
  exact ⟨script, created, below, idle, rfl⟩

structure InputChecked (mint : MintConfig curve) (ledger : Ledger curve) (input : OnchainInput)
    (tracked : TrackedOutput) (outputValue : Nat) : Prop where
  unspent : ledger.spentOutputIndex.contains input.outputIndex = false
  known : ledger.output.get? input.outputIndex = some tracked
  tweak : (scriptPubkey mint (mint.tweakHash input.tweak) : Outcome OnchainInputError Script) =
    .ok tracked.out.scriptPubkey
  fee : ∃ fee, (receiveFee mint ledger : Outcome OnchainInputError _) = .ok (some fee) ∧
    fee ≤ input.fee
  value : tracked.out.value = outputValue + input.fee
  below : outputValue * 1000 < U64_BOUND

theorem processInput_ok {mint : MintConfig curve} {ledger after : Ledger curve}
    {input : OnchainInput} {amount : Nat} {pk : XOnlyPublicKey}
    (processed : processInput mint ledger input = .ok ((amount, pk), after)) :
    ∃ tracked outputValue, InputChecked mint ledger input tracked outputValue ∧
      amount = outputValue * 1000 ∧ pk = input.tweak ∧
      ((ledger.mintUtxo = none ∧ after = { ledger with
          spentOutputIndex := ledger.spentOutputIndex.insert input.outputIndex ⟨⟩
          mintUtxo := some
            { value := tracked.out.value
              outpoint := tracked.outpoint
              tweak := mint.tweakHash input.tweak } }) ∨
        ∃ wallet script created, wallet.value + outputValue < U64_BOUND ∧
          Built mint ledger wallet
            (receiveTx mint wallet tracked input (wallet.value + outputValue) script)
            (wallet.value + outputValue) after ∧
          after = { ledger with
            spentOutputIndex := ledger.spentOutputIndex.insert input.outputIndex ⟨⟩
            mintUtxo := some (changeUtxo mint wallet
              (receiveTx mint wallet tracked input (wallet.value + outputValue) script).tx
              (wallet.value + outputValue))
            txInfo := ledger.txInfo.insert (totalTxs ledger)
              (mintTxInfo mint (totalTxs ledger) wallet
                (receiveTx mint wallet tracked input (wallet.value + outputValue) script)
                (wallet.value + outputValue) created)
            unsignedTx := some
              (receiveTx mint wallet tracked input (wallet.value + outputValue) script) }) := by
  unfold processInput at processed
  simp only [bind_eq_ok, ensure_eq_ok, okOr_eq_ok, Bool.not_eq_true', decide_eq_true_eq,
    checkedSub_eq_some, checkedMul_eq_some] at processed
  obtain ⟨_, unspent, tracked, known, script, tweaked, _, sameScript, rate, fees, fee, agreed, _,
    paid, outputValue, value, changed, moved, amount, ⟨product, below⟩, result⟩ := processed
  cases result
  refine ⟨tracked, outputValue, ⟨unspent, known, sameScript ▸ tweaked, ⟨fee, agreed ▸ fees, paid⟩,
    value, product ▸ below⟩, product, rfl, ?_⟩
  unfold moveWallet at moved
  cases held : ledger.mintUtxo with
  | none =>
      simp only [held] at moved
      cases moved
      exact Or.inl ⟨rfl, rfl⟩
  | some wallet =>
      simp only [held] at moved
      obtain ⟨script, created, fits, idle, final⟩ := receive_ok moved
      subst final
      exact Or.inr ⟨wallet, script, created, fits, ⟨idle, held, rfl, rfl, ⟨created, rfl⟩⟩, rfl⟩

structure OutputChecked (mint : MintConfig curve) (ledger : Ledger curve) (output : OnchainOutput)
    (wallet : MintUtxo) (changeValue : Nat) : Prop where
  dust : ONCHAIN_DUST_LIMIT ≤ output.value
  held : ledger.mintUtxo = some wallet
  fee : ∃ fee, (sendFee mint ledger : Outcome OnchainOutputError _) = .ok (some fee) ∧
    fee ≤ output.fee
  value : wallet.value = changeValue + (output.value + output.fee)
  change : ONCHAIN_DUST_LIMIT ≤ changeValue
  below : (output.value + output.fee) * 1000 < U64_BOUND

theorem processOutput_ok {mint : MintConfig curve} {ledger after : Ledger curve}
    {output : OnchainOutput} {outpoint : OutPoint} {amount : Nat}
    (processed : processOutput mint ledger output outpoint = .ok (amount, after)) :
    ∃ wallet changeValue script created,
      OutputChecked mint ledger output wallet changeValue ∧
      amount = (output.value + output.fee) * 1000 ∧
      Built mint ledger wallet (sendTx mint wallet output changeValue script) changeValue
        after ∧
      after = { ledger with
        mintUtxo := some (changeUtxo mint wallet
          (sendTx mint wallet output changeValue script).tx changeValue)
        txInfo := ledger.txInfo.insert (totalTxs ledger) (mintTxInfo mint (totalTxs ledger) wallet
          (sendTx mint wallet output changeValue script) changeValue created)
        txInfoIndex := ledger.txInfoIndex.insert outpoint (totalTxs ledger)
        unsignedTx := some (sendTx mint wallet output changeValue script) } := by
  unfold processOutput at processed
  simp only [bind_eq_ok, ensure_eq_ok, okOr_eq_ok, decide_eq_true_eq, checkedAdd_eq_some,
    checkedSub_eq_some, checkedMul_eq_some] at processed
  obtain ⟨_, dust, wallet, held, rate, fees, fee, agreed, _, paid, outputValue, ⟨sum, _⟩,
    changeValue, value, _, change, script, _, advanced, advance, inserted, insert, amount,
    ⟨product, below⟩, result⟩ := processed
  cases result
  obtain ⟨created, same⟩ := advanceWallet_ok advance
  obtain ⟨idle, final⟩ := insertUnsigned_ok insert
  subst sum same final
  exact ⟨wallet, changeValue, script, created,
    ⟨dust, held, ⟨fee, agreed ▸ fees, paid⟩, value, change, product ▸ below⟩, product,
    ⟨idle, held, rfl, rfl, ⟨created, rfl⟩⟩, rfl⟩

end Picomint.Consensus.Onchain
