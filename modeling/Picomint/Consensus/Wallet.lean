/-
The steps of the mint's wallet.

A processed input or output leaves the wallet alone, adopts the first deposit,
or moves the wallet on to the change of one new mint transaction.  The other
items only confirm and sign what is there.
-/

import Picomint.Consensus.SigningLog

namespace Picomint.Consensus

open Tss

variable {curve : Curve} {server : Server curve} {mint : MintConfig curve}
  {ledger after : Ledger curve} {ε : Type}

/-! ### Scripts -/

def HasScript (mint : MintConfig curve) (tweak : Hash) (script : Script) : Prop :=
  ∃ pk : PublicKey curve, tweak < curve.order ∧
    mint.aggPk.addExpTweak (tweak : curve.Scalar) = some pk ∧ script = mint.p2trScript pk.xOnly

theorem scriptPubkey_eq_ok {tweak : Hash} {script : Script} :
    (Onchain.scriptPubkey mint tweak : Outcome ε _) = .ok script ↔ HasScript mint tweak script := by
  unfold Onchain.scriptPubkey Onchain.tweakPublicKey Onchain.tweakScalar HasScript
  simp only [bind_eq_ok, expect_eq_ok]
  constructor
  · rintro ⟨pk, ⟨scalar, found, tweaked⟩, result⟩
    cases result
    split at found
    · rename_i below
      cases found
      exact ⟨pk, below, tweaked, rfl⟩
    · cases found
  · rintro ⟨pk, below, tweaked, same⟩
    refine ⟨pk, ⟨_, by rw [if_pos below], tweaked⟩, ?_⟩
    rw [same]
    rfl

theorem HasScript.unique {tweak : Hash} {first second : Script}
    (left : HasScript mint tweak first) (right : HasScript mint tweak second) : first = second := by
  obtain ⟨pk, _, tweaked, same⟩ := left
  obtain ⟨pk', _, tweaked', same'⟩ := right
  cases tweaked.symm.trans tweaked'
  rw [same, same']

/-! ### Steps -/

/-- A deposit claimed by an input. -/
structure Deposit where
  index : Nat
  key : XOnlyPublicKey
  tracked : TrackedOutput

/-- The claim of an unspent tracked output whose script is that of the key. -/
structure Deposit.Valid (mint : MintConfig curve) (ledger : Ledger curve)
    (deposit : Deposit) : Prop where
  unspent : ledger.spentOutputIndex.contains deposit.index = false
  known : ledger.output.get? deposit.index = some deposit.tracked
  script : HasScript mint (mint.tweakHash deposit.key) deposit.tracked.out.scriptPubkey

def MintTx.inputs (mintTx : MintTx curve) : List BtcOutPoint :=
  mintTx.tx.input.map TxIn.previousOutput

/-- The mint transaction spends the wallet and at most one deposit into the
change and possibly a payment. -/
structure Extends (mint : MintConfig curve) (ledger after : Ledger curve) (wallet : MintUtxo)
    (deposit : Option Deposit) (mintTx : MintTx curve) (changeValue : Nat) : Prop where
  valid : ∀ claimed, deposit = some claimed → claimed.Valid mint ledger
  idle : ledger.unsignedTx = none
  held : ledger.mintUtxo = some wallet
  inputs : mintTx.inputs =
    wallet.outpoint :: deposit.toList.map (fun claimed => claimed.tracked.outpoint)
  change : ∃ script payments, HasScript mint (mint.utxoHash wallet) script ∧
    mintTx.tx.output = { value := changeValue, scriptPubkey := script } :: payments
  spent : mintTx.spentTxOuts = { value := wallet.value, tweak := wallet.tweak } ::
    deposit.toList.map (fun claimed =>
      { value := claimed.tracked.out.value, tweak := mint.tweakHash claimed.key })
  balanced : (mintTx.spentTxOuts.map SpentTxOut.value).sum =
    (mintTx.tx.output.map TxOut.value).sum + mintTx.fee
  advanced : after.mintUtxo = some (Onchain.changeUtxo mint wallet mintTx.tx changeValue)
  recorded : ∃ created, after.txInfo = ledger.txInfo.insert (nextIndex ledger.txInfo)
    (Onchain.mintTxInfo mint (nextIndex ledger.txInfo) wallet mintTx changeValue created)
  unsigned : after.unsignedTx = some mintTx
  marked : after.spentOutputIndex = match deposit with
    | some claimed => ledger.spentOutputIndex.insert claimed.index ⟨⟩
    | none => ledger.spentOutputIndex

/-- What an input or output does to the wallet; the tracked outputs and the
unconfirmed transactions stay. -/
inductive WalletStep (mint : MintConfig curve) (ledger after : Ledger curve) : Prop where
  | kept (wallet : after.mintUtxo = ledger.mintUtxo) (infos : after.txInfo = ledger.txInfo)
      (unsigned : after.unsignedTx = ledger.unsignedTx)
      (spent : after.spentOutputIndex = ledger.spentOutputIndex)
  | adopted (deposit : Deposit) (valid : deposit.Valid mint ledger)
      (absent : ledger.mintUtxo = none)
      (wallet : after.mintUtxo = some
        { value := deposit.tracked.out.value
          outpoint := deposit.tracked.outpoint
          tweak := mint.tweakHash deposit.key })
      (infos : after.txInfo = ledger.txInfo) (unsigned : after.unsignedTx = ledger.unsignedTx)
      (spent : after.spentOutputIndex = ledger.spentOutputIndex.insert deposit.index ⟨⟩)
  | extended (wallet : MintUtxo) (deposit : Option Deposit) (mintTx : MintTx curve)
      (changeValue : Nat) (extends' : Extends mint ledger after wallet deposit mintTx changeValue)

/-- The tables that only blocks and signatures change. -/
structure SameTracking (ledger after : Ledger curve) : Prop where
  output : after.output = ledger.output
  unconfirmedTx : after.unconfirmedTx = ledger.unconfirmedTx

namespace Onchain

theorem receive_change {wallet : MintUtxo} {tracked : TrackedOutput} {input : OnchainInput}
    {outputValue : Nat}
    (received : receive mint ledger wallet tracked input outputValue = .ok after) :
    ∃ script, HasScript mint (mint.utxoHash wallet) script ∧
      after.unsignedTx = some
        (receiveTx mint wallet tracked input (wallet.value + outputValue) script) := by
  unfold receive at received
  simp only [bind_eq_ok, okOr_eq_ok, checkedAdd_eq_some] at received
  obtain ⟨change, ⟨sum, _⟩, script, computed, advanced, _, inserted⟩ := received
  obtain ⟨_, result⟩ := insertUnsigned_ok inserted
  subst sum result
  exact ⟨script, scriptPubkey_eq_ok.mp computed, rfl⟩

theorem processInput_change {input : OnchainInput} {result : Nat × XOnlyPublicKey}
    {wallet : MintUtxo} (held : ledger.mintUtxo = some wallet)
    (processed : processInput mint ledger input = .ok (result, after)) :
    ∃ tracked outputValue script, HasScript mint (mint.utxoHash wallet) script ∧
      after.unsignedTx = some
        (receiveTx mint wallet tracked input (wallet.value + outputValue) script) := by
  unfold processInput at processed
  simp only [bind_eq_ok] at processed
  obtain ⟨_, _, tracked, _, _, _, _, _, _, _, _, _, _, _, outputValue, _, changed, moved, _, _,
    final⟩ := processed
  cases final
  unfold moveWallet at moved
  simp only [held] at moved
  obtain ⟨script, hasScript, unsigned⟩ := receive_change moved
  exact ⟨tracked, outputValue, script, hasScript, unsigned⟩

theorem processOutput_change {output : OnchainOutput} {outpoint : OutPoint} {amount : Nat}
    (processed : processOutput mint ledger output outpoint = .ok (amount, after)) :
    ∃ wallet changeValue script, ledger.mintUtxo = some wallet ∧
      HasScript mint (mint.utxoHash wallet) script ∧
      after.unsignedTx = some (sendTx mint wallet output changeValue script) := by
  unfold processOutput at processed
  simp only [bind_eq_ok, okOr_eq_ok] at processed
  obtain ⟨_, _, wallet, held, _, _, _, _, _, _, _, _, changeValue, _, _, _, script, computed, _, _,
    _, inserted, _, _, final⟩ := processed
  cases final
  obtain ⟨_, same⟩ := insertUnsigned_ok inserted
  subst same
  exact ⟨wallet, changeValue, script, held, scriptPubkey_eq_ok.mp computed, rfl⟩

theorem processInput_step {input : OnchainInput} {result : Nat × XOnlyPublicKey}
    (processed : processInput mint ledger input = .ok (result, after)) :
    WalletStep mint ledger after ∧ SameTracking ledger after := by
  obtain ⟨amount, pk⟩ := result
  obtain ⟨tracked, outputValue, checked, _, _,
    ⟨absent, final⟩ | ⟨wallet, script, created, _, built, final⟩⟩ := processInput_ok processed
  · have valid : Deposit.Valid mint ledger ⟨input.outputIndex, input.tweak, tracked⟩ :=
      ⟨checked.unspent, checked.known, scriptPubkey_eq_ok.mp checked.tweak⟩
    subst final
    exact ⟨.adopted _ valid absent rfl rfl rfl rfl, rfl, rfl⟩
  · have valid : Deposit.Valid mint ledger ⟨input.outputIndex, input.tweak, tracked⟩ :=
      ⟨checked.unspent, checked.known, scriptPubkey_eq_ok.mp checked.tweak⟩
    obtain ⟨tracked', outputValue', script', hasScript, unsigned⟩ :=
      processInput_change built.held processed
    have sameTx := Option.some.inj (built.unsigned.symm.trans unsigned)
    have sameScript : script = script' := by
      have outputs := congrArg (fun mintTx => mintTx.tx.output) sameTx
      simp only [receiveTx, List.cons.injEq, TxOut.mk.injEq] at outputs
      exact outputs.1.2
    have balanced := checked.value
    subst sameScript final
    refine ⟨.extended wallet (some ⟨input.outputIndex, input.tweak, tracked⟩) _ _
      ⟨?_, built.idle, built.held, rfl, ⟨script, [], hasScript, rfl⟩, rfl, ?_, rfl, ⟨created, rfl⟩,
        rfl, rfl⟩, rfl, rfl⟩
    · intro claimed same
      cases same
      exact valid
    · simp only [receiveTx, List.map_cons, List.map_nil, List.sum_cons, List.sum_nil]
      omega

theorem processOutput_step {output : OnchainOutput} {outpoint : OutPoint} {amount : Nat}
    (processed : processOutput mint ledger output outpoint = .ok (amount, after)) :
    WalletStep mint ledger after ∧ SameTracking ledger after := by
  obtain ⟨wallet, changeValue, script, created, checked, _, built, final⟩ :=
    processOutput_ok processed
  obtain ⟨wallet', changeValue', script', held, hasScript, unsigned⟩ :=
    processOutput_change processed
  cases built.held.symm.trans held
  have sameTx := Option.some.inj (built.unsigned.symm.trans unsigned)
  have sameScript : script = script' := by
    have outputs := congrArg (fun mintTx => mintTx.tx.output) sameTx
    simp only [sendTx, List.cons.injEq, TxOut.mk.injEq] at outputs
    exact outputs.1.2
  have balanced := checked.value
  subst sameScript final
  refine ⟨.extended wallet none _ _
    ⟨?_, built.idle, built.held, rfl, ⟨script, _, hasScript, rfl⟩, rfl, ?_, rfl, ⟨created, rfl⟩,
      rfl, rfl⟩, rfl, rfl⟩
  · intro claimed same
    cases same
  · simp only [sendTx, List.map_cons, List.map_nil, List.sum_cons, List.sum_nil]
    omega

end Onchain

theorem processInput_walletStep {input : Input} {result : Nat × XOnlyPublicKey}
    (processed : processInput mint ledger input = .ok (result, after)) :
    WalletStep mint ledger after ∧ SameTracking ledger after := by
  rcases processInput_onchain processed with same | ⟨onchain, _, step⟩
  · exact ⟨.kept same.mintUtxo same.txInfo same.unsignedTx same.spentOutputIndex, same.output,
      same.unconfirmedTx⟩
  · exact Onchain.processInput_step step

theorem processOutput_walletStep {output : Output} {outpoint : OutPoint} {amount : Nat}
    (processed : processOutput server ledger outpoint output = .ok (amount, after)) :
    WalletStep server.toMintConfig ledger after ∧ SameTracking ledger after := by
  rcases processOutput_onchain processed with same | ⟨onchain, _, step⟩
  · exact ⟨.kept same.mintUtxo same.txInfo same.unsignedTx same.spentOutputIndex, same.output,
      same.unconfirmedTx⟩
  · exact Onchain.processOutput_step step

end Picomint.Consensus
