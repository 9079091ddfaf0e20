/-
The stack of mint transactions that are not confirmed yet.

The feerate doubles with every pending transaction, and a new one pays for the
whole stack.  All fees come out of deposits, so the deposits bound the stack,
at about a four-hundredth of all bitcoin.
-/

import Picomint.Consensus.WalletHistory
import Picomint.Consensus.FeerateVotes
import Picomint.Consensus.Panics

namespace Picomint.Consensus

open Tss Onchain

variable {curve : Curve} {server : Server curve} {mint : MintConfig curve}
  {ledger after : Ledger curve}

/-! ### The stack -/

def pendingVbytes (ledger : Ledger curve) : Nat :=
  ((pendingTxsUnordered ledger).map MintTx.vbytes).sum

def pendingFees (ledger : Ledger curve) : Nat :=
  ((pendingTxsUnordered ledger).map MintTx.fee).sum

/-- The feerate the next transaction pays for the whole stack. -/
def stackFeerate (ledger : Ledger curve) (rate : Nat) : Nat :=
  max rate (ONCHAIN_FEERATE_BASE * 2 ^ (pendingTxsUnordered ledger).length)

def PaysForStack (mint : MintConfig curve) (ledger : Ledger curve) (mintTx : MintTx curve) :
    Prop :=
  ∃ rate, (consensusFeerate mint ledger : Outcome ItemError (Option Nat)) = .ok (some rate) ∧
    mintTx.vbytes * stackFeerate ledger rate / 1000 ≤ mintTx.fee ∧
    (pendingVbytes ledger + mintTx.vbytes) * stackFeerate ledger rate / 1000 ≤
      pendingFees ledger + mintTx.fee

def deposited (ledger : Ledger curve) : Nat :=
  ledger.output.total (fun _ tracked => tracked.out.value)

/-- What the outputs that were not claimed are worth. -/
def unclaimed (ledger : Ledger curve) : Nat :=
  ledger.output.total (fun index tracked =>
    if ledger.spentOutputIndex.contains index then 0 else tracked.out.value)

def walletSats (ledger : Ledger curve) : Nat := (ledger.mintUtxo.map MintUtxo.value).getD 0

/-! ### The fee -/

theorem foldl_sub_eq (fees : List Nat) (start : Nat) :
    fees.foldl (fun rest fee => rest - fee) start = start - fees.sum := by
  induction fees generalizing start with
  | nil => rfl
  | cons fee rest inductionHypothesis =>
      rw [List.foldl_cons, inductionHypothesis, List.sum_cons, Nat.sub_sub]

theorem checkedSum_eq {sizes : List Nat} {start total : Nat}
    (summed : sizes.foldlM checkedAdd start = some total) : total = start + sizes.sum := by
  induction sizes generalizing start with
  | nil =>
      cases summed
      rfl
  | cons size rest inductionHypothesis =>
      rw [List.foldlM_cons, Option.bind_eq_bind, Option.bind_eq_some_iff] at summed
      obtain ⟨next, added, following⟩ := summed
      obtain ⟨sum, _⟩ := checkedAdd_eq_some.mp added
      rw [inductionHypothesis following, List.sum_cons]
      omega

theorem checkedSum_succeeds {sizes : List Nat} {start : Nat}
    (fits : start + sizes.sum < U64_BOUND) :
    sizes.foldlM checkedAdd start = some (start + sizes.sum) := by
  induction sizes generalizing start with
  | nil => rfl
  | cons size rest inductionHypothesis =>
      rw [List.sum_cons] at fits
      have added : checkedAdd start size = some (start + size) :=
        checkedAdd_eq_some.mpr ⟨rfl, by omega⟩
      rw [List.foldlM_cons, Option.bind_eq_bind, added, Option.bind_some,
        inductionHypothesis (by omega), List.sum_cons, Nat.add_assoc]

theorem consensusFeerate_member {ε : Type} {rate : Nat}
    (found : (consensusFeerate mint ledger : Outcome ε (Option Nat)) = .ok (some rate)) :
    rate ∈ votedRates ledger ∧
      (consensusFeerate mint ledger : Outcome ItemError (Option Nat)) = .ok (some rate) := by
  have counted := consensusFeerate_eq_ok.mp found
  refine ⟨?_, consensusFeerate_eq_ok.mpr counted⟩
  exact (List.perm_insertionSort (· ≤ ·) _).mem_iff.mp (List.mem_of_getElem? counted.2)

theorem consensusFee_ok {ε : Type} {vbytes fee : Nat}
    (charged : (consensusFee mint ledger vbytes : Outcome ε (Option Nat)) = .ok (some fee)) :
    (pendingTxsUnordered ledger).length ≤ 32 ∧
      ∃ rate, (consensusFeerate mint ledger : Outcome ε (Option Nat)) = .ok (some rate) ∧
        saturatingMul vbytes (stackFeerate ledger rate) / 1000 ≤ fee ∧
        saturatingMul (vbytes + pendingVbytes ledger) (stackFeerate ledger rate) / 1000 ≤
          pendingFees ledger + fee := by
  unfold consensusFee at charged
  simp only [bind_eq_ok, assert_eq_ok, decide_eq_true_eq] at charged
  obtain ⟨_, few, rate, voted, result⟩ := charged
  cases rate with
  | none => cases result
  | some rate =>
      simp only [bind_eq_ok, expect_eq_ok] at result
      obtain ⟨stack, summed, result⟩ := result
      have total := checkedSum_eq summed
      refine ⟨few, rate, voted, ?_⟩
      have charge := Option.some.inj (Except.ok.inj result)
      rw [foldl_sub_eq, total] at charge
      unfold stackFeerate pendingFees pendingVbytes
      omega

/-- The votes are 32-bit numbers. -/
def SmallRates (ledger : Ledger curve) : Prop := ∀ rate ∈ votedRates ledger, rate < 2 ^ 32

def KnownSizes (ledger : Ledger curve) : Prop :=
  ∀ mintTx ∈ pendingTxsUnordered ledger,
    mintTx.vbytes = SEND_TX_VBYTES ∨ mintTx.vbytes = RECEIVE_TX_VBYTES

theorem KnownSizes.bounds (known : KnownSizes ledger) :
    SEND_TX_VBYTES * (pendingTxsUnordered ledger).length ≤ pendingVbytes ledger ∧
      pendingVbytes ledger ≤ RECEIVE_TX_VBYTES * (pendingTxsUnordered ledger).length := by
  have each : ∀ size ∈ (pendingTxsUnordered ledger).map MintTx.vbytes,
      SEND_TX_VBYTES ≤ size ∧ size ≤ RECEIVE_TX_VBYTES := by
    intro size member
    obtain ⟨mintTx, pending, rfl⟩ := List.mem_map.mp member
    rcases known mintTx pending with isSend | isReceive
    · rw [isSend]
      decide
    · rw [isReceive]
      decide
  have least := List.card_nsmul_le_sum _ SEND_TX_VBYTES (fun size member => (each size member).1)
  have most := List.sum_le_card_nsmul _ RECEIVE_TX_VBYTES (fun size member => (each size member).2)
  rw [List.length_map, smul_eq_mul, Nat.mul_comm] at least most
  exact ⟨least, most⟩

theorem saturatingMul_stack {rate vbytes : Nat} (small : rate < 2 ^ 32)
    (few : (pendingTxsUnordered ledger).length ≤ 32) (size : vbytes ≤ RECEIVE_TX_VBYTES * 33) :
    saturatingMul vbytes (stackFeerate ledger rate) = vbytes * stackFeerate ledger rate := by
  have power : 2 ^ (pendingTxsUnordered ledger).length ≤ 2 ^ 32 :=
    Nat.pow_le_pow_right (by decide) few
  have feerate : stackFeerate ledger rate ≤ ONCHAIN_FEERATE_BASE * 2 ^ 32 := by
    unfold stackFeerate
    exact max_le (small.le.trans (by decide)) (Nat.mul_le_mul_left _ power)
  have product := Nat.mul_le_mul size feerate
  have below : RECEIVE_TX_VBYTES * 33 * (ONCHAIN_FEERATE_BASE * 2 ^ 32) ≤ U64_BOUND - 1 := by
    decide
  unfold saturatingMul
  exact min_eq_left (product.trans below)

theorem paysForStack_of_fee {ε : Type} {mintTx : MintTx curve} {fee : Nat}
    (small : SmallRates ledger) (known : KnownSizes ledger)
    (size : mintTx.vbytes ≤ RECEIVE_TX_VBYTES)
    (charged : (consensusFee mint ledger mintTx.vbytes : Outcome ε (Option Nat)) =
      .ok (some fee)) (paid : fee ≤ mintTx.fee) :
    (pendingTxsUnordered ledger).length ≤ 32 ∧ PaysForStack mint ledger mintTx := by
  obtain ⟨few, rate, voted, own, whole⟩ := consensusFee_ok charged
  obtain ⟨member, voted⟩ := consensusFeerate_member voted
  have most := known.bounds.2
  have total : mintTx.vbytes + pendingVbytes ledger ≤ RECEIVE_TX_VBYTES * 33 := by
    unfold RECEIVE_TX_VBYTES at most size ⊢
    omega
  rw [saturatingMul_stack (small rate member) few (by omega)] at own
  rw [saturatingMul_stack (small rate member) few total, Nat.add_comm mintTx.vbytes] at whole
  exact ⟨few, rate, voted, own.trans paid, whole.trans (Nat.add_le_add_left paid _)⟩

/-- The sum of the sizes is never out of range. -/
theorem consensusFee_stackVbytes {ε : Type} {vbytes : Nat} (known : KnownSizes ledger)
    (size : vbytes ≤ RECEIVE_TX_VBYTES) :
    Avoids .stackVbytes (consensusFee mint ledger vbytes : Outcome ε (Option Nat)) := by
  apply bind_avoids (assert_avoids _ (by decide))
  intro _ counted
  have few : (pendingTxsUnordered ledger).length ≤ 32 :=
    of_decide_eq_true (assert_eq_ok.mp counted)
  have most := known.bounds.2
  have fits : vbytes + ((pendingTxsUnordered ledger).map MintTx.vbytes).sum < U64_BOUND := by
    unfold pendingVbytes RECEIVE_TX_VBYTES at *
    unfold U64_BOUND
    omega
  apply bind_avoids (consensusFeerate_avoids (by decide))
  intro rate _
  cases rate with
  | none => exact pure_avoids _
  | some rate =>
      simp only [checkedSum_succeeds fits]
      exact fun same => by cases same

theorem consensusFee_pendingTxs {ε : Type} {vbytes : Nat}
    (few : (pendingTxsUnordered ledger).length ≤ 32) :
    Avoids .pendingTxs (consensusFee mint ledger vbytes : Outcome ε (Option Nat)) := by
  have counted : (assert (decide ((pendingTxsUnordered ledger).length ≤ 32)) Panic.pendingTxs :
      Outcome ε Unit) = .ok () := by
    rw [decide_eq_true few]
    rfl
  apply bind_avoids
  · rw [counted]
    exact pure_avoids _
  · intro _ _
    apply bind_avoids (consensusFeerate_avoids (by decide))
    intro rate _
    cases rate with
    | none => exact pure_avoids _
    | some rate =>
        apply bind_avoids (expect_avoids _ (by decide))
        exact fun _ _ => pure_avoids _

/-! ### What the stack is paid from -/

/-- The fees of the stack, the wallet and the outputs to claim come out of the
deposits. -/
def Covered (ledger : Ledger curve) : Prop :=
  pendingFees ledger + walletSats ledger + unclaimed ledger ≤ deposited ledger

theorem total_congr {β : Type} {table : SortedMap Nat β} {weight other : Nat → β → Nat}
    (same : ∀ key value, table.get? key = some value → weight key value = other key value) :
    table.total weight = table.total other := by
  unfold SortedMap.total
  congr 1
  apply List.map_congr_left
  intro row member
  exact same row.1 row.2 ((table.mem_rows row.1 row.2).mp member)

theorem unclaimed_claim {index : Nat} {tracked : TrackedOutput}
    (known : ledger.output.get? index = some tracked)
    (unspent : ledger.spentOutputIndex.contains index = false)
    (output : after.output = ledger.output)
    (spent : after.spentOutputIndex = ledger.spentOutputIndex.insert index ⟨⟩) :
    unclaimed after + tracked.out.value = unclaimed ledger := by
  have before := ledger.output.total_erase_of_some (fun index tracked =>
    if ledger.spentOutputIndex.contains index then 0 else tracked.out.value) known
  have now := ledger.output.total_erase_of_some (fun index tracked =>
    if after.spentOutputIndex.contains index then 0 else tracked.out.value) known
  have others : (ledger.output.erase index).total (fun index tracked =>
      if after.spentOutputIndex.contains index then 0 else tracked.out.value) =
        (ledger.output.erase index).total (fun index tracked =>
          if ledger.spentOutputIndex.contains index then 0 else tracked.out.value) := by
    apply total_congr
    intro key value found
    rw [SortedMap.get?_erase] at found
    by_cases same : index = key
    · rw [if_pos same] at found
      cases found
    · have kept : after.spentOutputIndex.contains key = true ↔
          ledger.spentOutputIndex.contains key = true := by
        rw [spent, SortedMap.contains_insert]
        exact or_iff_right same
      simp only [kept]
  have claimed : after.spentOutputIndex.contains index = true := by
    rw [spent, SortedMap.contains_insert]
    exact Or.inl rfl
  rw [if_neg (by rw [unspent]; exact Bool.false_ne_true)] at before
  rw [if_pos claimed, Nat.add_zero, others] at now
  unfold unclaimed
  rw [output]
  omega

theorem Covered.claim {index : Nat} {tracked : TrackedOutput} (covered : Covered ledger)
    (known : ledger.output.get? index = some tracked)
    (unspent : ledger.spentOutputIndex.contains index = false)
    (output : after.output = ledger.output)
    (spent : after.spentOutputIndex = ledger.spentOutputIndex.insert index ⟨⟩)
    (moved : pendingFees after + walletSats after ≤
      pendingFees ledger + walletSats ledger + tracked.out.value) : Covered after := by
  have claimed := unclaimed_claim known unspent output spent
  have same : deposited after = deposited ledger := by
    unfold deposited
    rw [output]
  unfold Covered at *
  omega

theorem Covered.keep (covered : Covered ledger) (output : after.output = ledger.output)
    (spent : after.spentOutputIndex = ledger.spentOutputIndex)
    (moved : pendingFees after + walletSats after ≤ pendingFees ledger + walletSats ledger) :
    Covered after := by
  have kept : unclaimed after = unclaimed ledger := by
    unfold unclaimed
    rw [output, spent]
  have same : deposited after = deposited ledger := by
    unfold deposited
    rw [output]
  unfold Covered at *
  omega

theorem Covered.track {state : Ledger curve × Nat} (covered : Covered state.1)
    (next : state.2 = nextIndex state.1.output) (txid : Txid) (entry : Nat × TxOut) :
    Covered (trackOutput txid state entry).1 := by
  have absent : state.1.output.get? state.2 = none := by
    rw [next]
    exact get?_nextIndex state.1.output
  have unclaimedGrown := state.1.output.total_insert_of_none (fun index tracked =>
    if state.1.spentOutputIndex.contains index then 0 else tracked.out.value)
    { outpoint := { txid, vout := entry.1 }, out := entry.2 } absent
  have depositedGrown := state.1.output.total_insert_of_none (fun _ tracked => tracked.out.value)
    { outpoint := { txid, vout := entry.1 }, out := entry.2 } absent
  have fees : pendingFees (trackOutput txid state entry).1 = pendingFees state.1 := rfl
  have wallet : walletSats (trackOutput txid state entry).1 = walletSats state.1 := rfl
  have least : (if state.1.spentOutputIndex.contains state.2 then 0 else entry.2.value) ≤
      entry.2.value := by
    split
    · exact Nat.zero_le _
    · exact le_refl _
  have unclaimedNow : unclaimed (trackOutput txid state entry).1 = unclaimed state.1 +
      if state.1.spentOutputIndex.contains state.2 then 0 else entry.2.value := unclaimedGrown
  have depositedNow : deposited (trackOutput txid state entry).1 =
      deposited state.1 + entry.2.value := depositedGrown
  unfold Covered at *
  omega

/-! ### One input or output -/

/-- The pending transactions and the votes are the same. -/
structure SameStack (ledger after : Ledger curve) : Prop where
  unsignedTx : after.unsignedTx = ledger.unsignedTx
  unconfirmedTx : after.unconfirmedTx = ledger.unconfirmedTx
  feeRateVote : after.feeRateVote = ledger.feeRateVote

theorem SameStack.pending (same : SameStack ledger after) :
    pendingTxsUnordered after = pendingTxsUnordered ledger := by
  unfold pendingTxsUnordered
  rw [same.unsignedTx, same.unconfirmedTx]

theorem SameStack.fees (same : SameStack ledger after) : pendingFees after = pendingFees ledger := by
  unfold pendingFees
  rw [same.pending]

theorem SameStack.known (same : SameStack ledger after) (known : KnownSizes ledger) :
    KnownSizes after := by
  unfold KnownSizes
  rw [same.pending]
  exact known

theorem SameStack.small (same : SameStack ledger after) (small : SmallRates ledger) :
    SmallRates after := by
  unfold SmallRates votedRates
  rw [same.feeRateVote]
  exact small

theorem SameStack.pays (same : SameStack ledger after) {mintTx : MintTx curve}
    (pays : PaysForStack mint after mintTx) : PaysForStack mint ledger mintTx := by
  obtain ⟨rate, voted, own, whole⟩ := pays
  unfold stackFeerate pendingVbytes pendingFees at *
  rw [same.pending] at own whole
  refine ⟨rate, ?_, own, whole⟩
  unfold consensusFeerate at voted ⊢
  rw [same.feeRateVote] at voted
  exact voted

theorem fees_built {mintTx : MintTx curve} (idle : ledger.unsignedTx = none)
    (unsigned : after.unsignedTx = some mintTx)
    (unconfirmed : after.unconfirmedTx = ledger.unconfirmedTx) :
    pendingTxsUnordered after = mintTx :: pendingTxsUnordered ledger ∧
      pendingFees after = mintTx.fee + pendingFees ledger := by
  have pending : pendingTxsUnordered after = mintTx :: pendingTxsUnordered ledger := by
    unfold pendingTxsUnordered
    rw [idle, unsigned, unconfirmed]
    rfl
  refine ⟨pending, ?_⟩
  unfold pendingFees
  rw [pending, List.map_cons, List.sum_cons]

/-- A new mint transaction on the stack. -/
structure Pushed (mint : MintConfig curve) (ledger after : Ledger curve) (mintTx : MintTx curve) :
    Prop where
  idle : ledger.unsignedTx = none
  unsigned : after.unsignedTx = some mintTx
  size : mintTx.vbytes = SEND_TX_VBYTES ∨ mintTx.vbytes = RECEIVE_TX_VBYTES
  few : (pendingTxsUnordered ledger).length ≤ 32
  pays : PaysForStack mint ledger mintTx

/-- The least total fee of 33 pending transactions, in sat. -/
def STACK_FEES : Nat := SEND_TX_VBYTES * 33 * (ONCHAIN_FEERATE_BASE * 2 ^ 32) / 1000

theorem Pushed.bounded {mintTx : MintTx curve} (pushed : Pushed mint ledger after mintTx)
    (unconfirmed : after.unconfirmedTx = ledger.unconfirmedTx) (known : KnownSizes after)
    (covered : Covered after) (bound : deposited after < STACK_FEES) :
    (pendingTxsUnordered after).length ≤ 32 := by
  obtain ⟨pending, fees⟩ := fees_built pushed.idle pushed.unsigned unconfirmed
  have longer : (pendingTxsUnordered after).length = (pendingTxsUnordered ledger).length + 1 := by
    rw [pending]
    rfl
  by_contra exceeded
  have before := pushed.few
  have full : (pendingTxsUnordered ledger).length = 32 := by omega
  obtain ⟨rate, _, _, whole⟩ := pushed.pays
  have feerate : ONCHAIN_FEERATE_BASE * 2 ^ 32 ≤ stackFeerate ledger rate := by
    unfold stackFeerate
    rw [full]
    exact le_max_right _ _
  have sizes := known.bounds.1
  have total : pendingVbytes after = pendingVbytes ledger + mintTx.vbytes := by
    unfold pendingVbytes
    rw [pending, List.map_cons, List.sum_cons, Nat.add_comm]
  rw [longer, full, total] at sizes
  unfold Covered at covered
  have paid : STACK_FEES ≤ deposited after :=
    calc STACK_FEES
      _ ≤ (pendingVbytes ledger + mintTx.vbytes) * stackFeerate ledger rate / 1000 :=
          Nat.div_le_div_right (Nat.mul_le_mul sizes feerate)
      _ ≤ pendingFees ledger + mintTx.fee := whole
      _ = pendingFees after := by rw [fees, Nat.add_comm]
      _ ≤ deposited after := by omega
  omega

/-- What the inputs and outputs of a transaction do to the stack: at most one
of them builds a mint transaction. -/
structure TxStack (mint : MintConfig curve) (ledger after : Ledger curve) : Prop where
  beyond : BeyondTx ledger after
  covered : Covered after
  stack : after.unsignedTx = ledger.unsignedTx ∨ ∃ mintTx, Pushed mint ledger after mintTx

theorem TxStack.idle {middle : Ledger curve} (stack : TxStack mint ledger middle)
    (idle : middle.unsignedTx = none) : SameStack ledger middle := by
  rcases stack.stack with same | ⟨mintTx, pushed⟩
  · exact ⟨same, stack.beyond.unconfirmedTx, stack.beyond.feeRateVote⟩
  · cases idle.symm.trans pushed.unsigned

theorem TxStack.keep {middle : Ledger curve} (stack : TxStack mint ledger middle)
    (beyond : BeyondTx middle after) (covered : Covered after)
    (unsigned : after.unsignedTx = middle.unsignedTx) : TxStack mint ledger after where
  beyond := stack.beyond.trans beyond
  covered := covered
  stack := by
    rcases stack.stack with same | ⟨mintTx, pushed⟩
    · exact Or.inl (unsigned.trans same)
    · exact Or.inr ⟨mintTx,
        { pushed with unsigned := unsigned.trans pushed.unsigned }⟩

theorem TxStack.known (stack : TxStack mint ledger after) (known : KnownSizes ledger) :
    KnownSizes after := by
  rcases stack.stack with same | ⟨mintTx, pushed⟩
  · have kept : SameStack ledger after :=
      ⟨same, stack.beyond.unconfirmedTx, stack.beyond.feeRateVote⟩
    exact kept.known known
  · intro other member
    rw [(fees_built pushed.idle pushed.unsigned stack.beyond.unconfirmedTx).1] at member
    rcases List.mem_cons.mp member with isNew | before
    · exact isNew ▸ pushed.size
    · exact known other before

theorem Pushed.few_of_room {mintTx : MintTx curve} (pushed : Pushed mint ledger after mintTx)
    (beyond : BeyondTx ledger after) (known : KnownSizes after) (covered : Covered after)
    (room : (pendingTxsUnordered ledger).length < 32 ∨ deposited ledger < STACK_FEES) :
    (pendingTxsUnordered after).length ≤ 32 := by
  rcases room with below | bound
  · rw [(fees_built pushed.idle pushed.unsigned beyond.unconfirmedTx).1, List.length_cons]
    exact below
  · have now : deposited after < STACK_FEES := by
      unfold deposited at bound ⊢
      rwa [beyond.output]
    exact pushed.bounded beyond.unconfirmedTx known covered now

theorem TxStack.few (stack : TxStack mint ledger after) (known : KnownSizes ledger)
    (few : (pendingTxsUnordered ledger).length ≤ 32)
    (room : (pendingTxsUnordered ledger).length < 32 ∨ deposited ledger < STACK_FEES) :
    (pendingTxsUnordered after).length ≤ 32 := by
  rcases stack.stack with same | ⟨mintTx, pushed⟩
  · have kept : SameStack ledger after :=
      ⟨same, stack.beyond.unconfirmedTx, stack.beyond.feeRateVote⟩
    rw [kept.pending]
    exact few
  · exact pushed.few_of_room stack.beyond (stack.known known) stack.covered room

/-- A charged fee and an idle signing let a mint transaction onto the stack. -/
theorem TxStack.push {middle : Ledger curve} {mintTx : MintTx curve} {ε : Type} {fee : Nat}
    (stack : TxStack mint ledger middle) (small : SmallRates ledger) (known : KnownSizes ledger)
    (beyond : BeyondTx middle after) (covered : Covered after)
    (idle : middle.unsignedTx = none) (unsigned : after.unsignedTx = some mintTx)
    (size : mintTx.vbytes = SEND_TX_VBYTES ∨ mintTx.vbytes = RECEIVE_TX_VBYTES)
    (charged : (consensusFee mint middle mintTx.vbytes : Outcome ε (Option Nat)) =
      .ok (some fee)) (paid : fee ≤ mintTx.fee) : TxStack mint ledger after := by
  have same := stack.idle idle
  have atMost : mintTx.vbytes ≤ RECEIVE_TX_VBYTES := by
    rcases size with isSend | isReceive
    · rw [isSend]
      decide
    · exact isReceive.le
  obtain ⟨few, pays⟩ := paysForStack_of_fee (same.small small) (same.known known) atMost charged paid
  rw [same.pending] at few
  exact
    { beyond := stack.beyond.trans beyond
      covered
      stack := Or.inr ⟨mintTx,
        { idle := same.unsignedTx.symm.trans idle
          unsigned
          size
          few
          pays := same.pays pays }⟩ }

theorem processInput_stack {middle : Ledger curve} {input : Input} {result : Nat × XOnlyPublicKey}
    (small : SmallRates ledger) (known : KnownSizes ledger)
    (processed : processInput mint middle input = .ok (result, after))
    (stack : TxStack mint ledger middle) : TxStack mint ledger after := by
  have beyond := processInput_beyond processed
  obtain ⟨amount, pk⟩ := result
  rcases processInput_onchain processed with same | ⟨onchain, _, claim⟩
  · refine stack.keep beyond ?_ same.unsignedTx
    have fees : pendingFees after = pendingFees middle :=
      SameStack.fees ⟨same.unsignedTx, same.unconfirmedTx, same.feeRateVote⟩
    refine stack.covered.keep same.output same.spentOutputIndex ?_
    unfold walletSats
    rw [fees, same.mintUtxo]
  · obtain ⟨tracked, outputValue, checked, _, _, ⟨empty, final⟩ |
      ⟨wallet, script, created, _, built, final⟩⟩ := Onchain.processInput_ok claim
    · refine stack.keep beyond ?_ (by rw [final])
      refine stack.covered.claim checked.known checked.unspent (by rw [final]) (by rw [final]) ?_
      have fees : pendingFees after = pendingFees middle := by
        rw [final]
        rfl
      unfold walletSats
      rw [fees, final, empty]
      simp
    · obtain ⟨fee, charged, paid⟩ := checked.fee
      refine stack.push small known beyond ?_ built.idle built.unsigned (Or.inr rfl) charged paid
      refine stack.covered.claim checked.known checked.unspent (by rw [final]) (by rw [final]) ?_
      have fees : pendingFees after = onchain.fee + pendingFees middle :=
        (fees_built built.idle built.unsigned beyond.unconfirmedTx).2
      have before : walletSats middle = wallet.value := by
        unfold walletSats
        rw [built.held]
        rfl
      have now : walletSats after = wallet.value + outputValue := by
        unfold walletSats
        rw [built.advanced]
        rfl
      have value := checked.value
      omega

theorem processOutput_stack {middle : Ledger curve} {output : Output} {outpoint : OutPoint}
    {amount : Nat} (small : SmallRates ledger) (known : KnownSizes ledger)
    (processed : processOutput server middle outpoint output = .ok (amount, after))
    (stack : TxStack server.toMintConfig ledger middle) :
    TxStack server.toMintConfig ledger after := by
  have beyond := processOutput_beyond processed
  rcases processOutput_onchain processed with same | ⟨onchain, _, send⟩
  · refine stack.keep beyond ?_ same.unsignedTx
    have fees : pendingFees after = pendingFees middle :=
      SameStack.fees ⟨same.unsignedTx, same.unconfirmedTx, same.feeRateVote⟩
    refine stack.covered.keep same.output same.spentOutputIndex ?_
    unfold walletSats
    rw [fees, same.mintUtxo]
  · obtain ⟨wallet, changeValue, script, created, checked, _, built, final⟩ :=
      Onchain.processOutput_ok send
    obtain ⟨fee, charged, paid⟩ := checked.fee
    refine stack.push small known beyond ?_ built.idle built.unsigned (Or.inl rfl) charged paid
    refine stack.covered.keep (by rw [final]) (by rw [final]) ?_
    have fees : pendingFees after = onchain.fee + pendingFees middle :=
      (fees_built built.idle built.unsigned beyond.unconfirmedTx).2
    have before : walletSats middle = wallet.value := by
      unfold walletSats
      rw [built.held]
      rfl
    have now : walletSats after = changeValue := by
      unfold walletSats
      rw [built.advanced]
      rfl
    have value := checked.value
    omega

theorem processTxItem_stack {tx : Transaction} (small : SmallRates ledger)
    (known : KnownSizes ledger) (covered : Covered ledger)
    (processed : processTxItem server ledger tx = .ok after) :
    TxStack server.toMintConfig ledger after := by
  obtain ⟨_, judged, judgedOk, result⟩ := processTxItem_ok processed
  have kept : TxStack server.toMintConfig ledger judged := by
    apply processTx_preserves (motive := TxStack server.toMintConfig ledger) judgedOk
    · exact fun _ _ _ _ step stack => processInput_stack small known step stack
    · exact fun _ _ _ _ _ step stack => processOutput_stack small known step stack
    · exact ⟨BeyondTx.refl ledger, covered, Or.inl rfl⟩
  subst result
  exact kept.keep (by constructor <;> rfl) kept.covered rfl

def OnChain (item : ConsensusItem curve) : Prop :=
  ∃ tx, item = .tx tx ∧
    ((∃ claim, Input.onchain claim ∈ tx.inputs) ∨ ∃ send, Output.onchain send ∈ tx.outputs)

theorem processTxItem_offChain {tx : Transaction}
    (offChain : ¬OnChain (.tx tx : ConsensusItem curve))
    (processed : processTxItem server ledger tx = .ok after) :
    after.unsignedTx = ledger.unsignedTx := by
  obtain ⟨_, judged, judgedOk, result⟩ := processTxItem_ok processed
  subst result
  apply processTx_preserves_of (motive := fun after => after.unsignedTx = ledger.unsignedTx)
    judgedOk
  · intro ledger after input member result step same
    rcases processInput_onchain step with kept | ⟨claim, isClaim, _⟩
    · exact kept.unsignedTx.trans same
    · exact absurd ⟨tx, rfl, Or.inl ⟨claim, isClaim ▸ member⟩⟩ offChain
  · intro ledger after outpoint output member amount step same
    rcases processOutput_onchain step with kept | ⟨send, isSend, _⟩
    · exact kept.unsignedTx.trans same
    · exact absurd ⟨tx, rfl, Or.inr ⟨send, isSend ▸ member⟩⟩ offChain
  · rfl

/-- A transaction panics in the fee only if the fee does on the stack of one
of its inputs and outputs. -/
theorem processTxItem_avoids_fee {panic : Panic} {tx : Transaction} (small : SmallRates ledger)
    (known : KnownSizes ledger) (covered : Covered ledger)
    (fee : panic = .stackVbytes ∨ panic = .pendingTxs)
    (charged : OnChain (.tx tx : ConsensusItem curve) →
      ∀ (ε : Type) (middle : Ledger curve), TxStack server.toMintConfig ledger middle →
        ∀ vbytes ≤ RECEIVE_TX_VBYTES,
          Avoids panic (consensusFee server.toMintConfig middle vbytes : Outcome ε (Option Nat))) :
    Avoids panic (processTxItem server ledger tx) := by
  have beyond : Panic.tweak ≠ panic ∧ Panic.heightVotes ≠ panic ∧ Panic.contractIndex ≠ panic := by
    rcases fee with rfl | rfl
    · decide
    · decide
  obtain ⟨tweaked, heights, index⟩ := beyond
  refine processTxItem_avoids_of (TxStack server.toMintConfig ledger)
    (TxStack server.toMintConfig ledger) ⟨BeyondTx.refl ledger, covered, Or.inl rfl⟩
    ?_ ?_ (fun _ stack => stack) ?_ ?_
  · intro middle input member stack
    refine processInput_avoids tweaked heights ?_ (fun _ _ _ => expect_avoids _ index)
    intro claim isClaim
    exact charged ⟨tx, rfl, Or.inl ⟨claim, isClaim ▸ member⟩⟩ _ middle stack _ (le_refl _)
  · exact fun _ _ _ _ _ stack processed => processInput_stack small known processed stack
  · intro middle outpoint output member stack
    refine processOutput_avoids tweaked heights ?_ outpoint
    intro send isSend
    exact charged ⟨tx, rfl, Or.inr ⟨send, isSend ▸ member⟩⟩ _ middle stack _ (by decide)
  · exact fun _ _ _ _ _ _ stack processed => processOutput_stack small known processed stack

/-! ### One item -/

def sizeAndFee (mintTx : MintTx curve) : Nat × Nat := (mintTx.vbytes, mintTx.fee)

/-- No transaction is pending that was not, up to its witnesses. -/
structure Shrinks (ledger after : Ledger curve) : Prop where
  part : ((pendingTxsUnordered after).map sizeAndFee).Subperm
    ((pendingTxsUnordered ledger).map sizeAndFee)
  unsigned : after.unsignedTx = ledger.unsignedTx ∨ after.unsignedTx = none

theorem Shrinks.of_same (unsigned : after.unsignedTx = ledger.unsignedTx)
    (unconfirmed : after.unconfirmedTx = ledger.unconfirmedTx) : Shrinks ledger after where
  part := by
    unfold pendingTxsUnordered
    rw [unsigned, unconfirmed]
  unsigned := Or.inl unsigned

theorem Shrinks.of_sublist (unsigned : after.unsignedTx = ledger.unsignedTx)
    (confirmed : after.unconfirmedTx.rows.Sublist ledger.unconfirmedTx.rows) :
    Shrinks ledger after where
  part := by
    unfold pendingTxsUnordered SortedMap.values
    rw [unsigned, List.map_append, List.map_append]
    exact (((confirmed.map Prod.snd).map sizeAndFee).append_left _).subperm
  unsigned := Or.inl unsigned

theorem Shrinks.length (shrinks : Shrinks ledger after) :
    (pendingTxsUnordered after).length ≤ (pendingTxsUnordered ledger).length := by
  have shorter := shrinks.part.length_le
  rwa [List.length_map, List.length_map] at shorter

theorem Shrinks.fees (shrinks : Shrinks ledger after) : pendingFees after ≤ pendingFees ledger := by
  have sizes : ∀ ledger : Ledger curve, pendingFees ledger =
      (((pendingTxsUnordered ledger).map sizeAndFee).map Prod.snd).sum := by
    intro ledger
    rw [List.map_map]
    rfl
  obtain ⟨list, same, sublist⟩ := shrinks.part
  rw [sizes, sizes, ← (same.map Prod.snd).sum_eq]
  exact (sublist.map Prod.snd).sum_le_sum (fun _ _ => Nat.zero_le _)

theorem Shrinks.known (shrinks : Shrinks ledger after) (known : KnownSizes ledger) :
    KnownSizes after := by
  intro mintTx pending
  have member := shrinks.part.subset (List.mem_map_of_mem pending)
  obtain ⟨other, before, same⟩ := List.mem_map.mp member
  have size : other.vbytes = mintTx.vbytes := congrArg Prod.fst same
  rw [← size]
  exact known other before

/-- The sizes are known, the fees come out of deposits and the votes are small. -/
structure StackSound (ledger : Ledger curve) : Prop where
  known : KnownSizes ledger
  covered : Covered ledger
  small : SmallRates ledger

theorem StackSound.empty : StackSound (Ledger.empty : Ledger curve) where
  known := fun _ impossible => absurd impossible List.not_mem_nil
  covered := le_refl 0
  small := fun _ impossible => absurd impossible List.not_mem_nil

/-- What an accepted item does to the stack and the deposits. -/
structure StackStep (mint : MintConfig curve) (ledger : Ledger curve) (item : ConsensusItem curve)
    (after : Ledger curve) : Prop where
  sound : StackSound after
  stack : Shrinks ledger after ∨ ∃ mintTx, OnChain item ∧ Pushed mint ledger after mintTx ∧
    BeyondTx ledger after

theorem StackStep.of_same {item : ConsensusItem curve} (sound : StackSound ledger)
    (same : SameStack ledger after)
    (output : after.output = ledger.output)
    (spent : after.spentOutputIndex = ledger.spentOutputIndex)
    (wallet : after.mintUtxo = ledger.mintUtxo) : StackStep mint ledger item after where
  sound :=
    { known := same.known sound.known
      covered := by
        refine sound.covered.keep output spent ?_
        unfold walletSats
        rw [same.fees, wallet]
      small := same.small sound.small }
  stack := Or.inl (.of_same same.unsignedTx same.unconfirmedTx)

theorem trackOutputs_stack (txid : Txid) (entries : List (Nat × TxOut))
    (state : Ledger curve × Nat) (next : state.2 = nextIndex state.1.output)
    (covered : Covered state.1) :
    Covered (entries.foldl (trackOutput txid) state).1 ∧
      SameStack state.1 (entries.foldl (trackOutput txid) state).1 := by
  induction entries generalizing state with
  | nil => exact ⟨covered, rfl, rfl, rfl⟩
  | cons entry rest inductionHypothesis =>
      have first := covered.track next txid entry
      have step : (trackOutput txid state entry).2 =
          nextIndex (trackOutput txid state entry).1.output := by
        unfold trackOutput
        simp only
        rw [next, nextIndex_insert]
      obtain ⟨last, same⟩ := inductionHypothesis (trackOutput txid state entry) step first
      exact ⟨last, same.unsignedTx, same.unconfirmedTx, same.feeRateVote⟩

theorem trackTxs_stack (txs : List BlockTx) (state : Ledger curve × Nat)
    (next : state.2 = nextIndex state.1.output) (covered : Covered state.1) :
    Covered (txs.foldl trackTx state).1 ∧
      (txs.foldl trackTx state).1.unsignedTx = state.1.unsignedTx ∧
      (txs.foldl trackTx state).1.feeRateVote = state.1.feeRateVote ∧
      (txs.foldl trackTx state).1.unconfirmedTx.rows.Sublist state.1.unconfirmedTx.rows := by
  induction txs generalizing state with
  | nil => exact ⟨covered, rfl, rfl, List.Sublist.refl _⟩
  | cons tx rest inductionHypothesis =>
      have erased : ((state.1.unconfirmedTx.erase tx.txid).rows).Sublist
          state.1.unconfirmedTx.rows := List.filter_sublist
      have confirmed : Covered { state.1 with
          unconfirmedTx := state.1.unconfirmedTx.erase tx.txid } := by
        have shrinks : Shrinks state.1 { state.1 with
            unconfirmedTx := state.1.unconfirmedTx.erase tx.txid } := .of_sublist rfl erased
        exact covered.keep rfl rfl (Nat.add_le_add_right shrinks.fees _)
      obtain ⟨first, same⟩ := trackOutputs_stack tx.txid tx.outputs
        ({ state.1 with unconfirmedTx := state.1.unconfirmedTx.erase tx.txid }, state.2) next
        confirmed
      obtain ⟨_, _, index, _⟩ := trackTx_values tx state next
      obtain ⟨last, unsigned, votes, sublist⟩ :=
        inductionHypothesis (trackTx state tx) index first
      refine ⟨last, unsigned.trans same.unsignedTx, votes.trans same.feeRateVote,
        sublist.trans ?_⟩
      rw [show (trackTx state tx).1.unconfirmedTx = _ from same.unconfirmedTx]
      exact erased

theorem processBlock_stack {node : NodeId} {vote : BlockVote} {item : ConsensusItem curve}
    (sound : StackSound ledger)
    (processed : Onchain.processBlock mint ledger node vote = .ok after) :
    StackStep mint ledger item after := by
  obtain ⟨_, _, result | result⟩ := Onchain.processBlock_ok processed
  · subst result
    exact .of_same sound ⟨rfl, rfl, rfl⟩ rfl rfl rfl
  · obtain ⟨covered, unsigned, votes, sublist⟩ := trackTxs_stack vote.txs
      ({ ledger with blockVote := ledger.blockVote.insert node vote }, nextIndex ledger.output)
      rfl sound.covered
    have shrinks : Shrinks ledger after := by
      subst result
      exact .of_sublist unsigned sublist
    refine
      { sound :=
          { known := shrinks.known sound.known
            covered := ?_
            small := ?_ }
        stack := Or.inl shrinks }
    · subst result
      exact covered
    · subst result
      unfold SmallRates votedRates
      rw [votes]
      exact sound.small

theorem finalizeTx_sizeAndFee {mintTx signed : MintTx curve} {msgs : List Hash}
    {chunk : List (NonceEntry curve)} {responses : List (List (SignatureShare curve))}
    (finalized : (finalizeTx mint mintTx msgs chunk responses : Outcome SigningError _) =
      .ok signed) : sizeAndFee signed = sizeAndFee mintTx := by
  unfold finalizeTx at finalized
  simp only [bind_eq_ok] at finalized
  obtain ⟨_, _, signatures, _, result⟩ := finalized
  cases result
  rfl

theorem processSignatureShares_stack {node : NodeId} {txid : Txid}
    {shares : List (SignatureShare curve)} {freshNonces : List (PublicNonce curve)}
    {item : ConsensusItem curve} (sound : StackSound ledger)
    (processed : Onchain.processSignatureShares mint ledger node txid shares freshNonces =
      .ok after) : StackStep mint ledger item after := by
  obtain ⟨unsigned, _, _, checked, ⟨_, result⟩ | ⟨_, signed, finalized, result⟩⟩ :=
    Onchain.processSignatureShares_ok processed
  · subst result
    exact .of_same sound ⟨rfl, rfl, rfl⟩ rfl rfl rfl
  · have sameSize := finalizeTx_sizeAndFee finalized
    have shrinks : Shrinks ledger after := by
      subst result
      constructor
      · unfold pendingTxsUnordered
        rw [checked.present]
        have rows := (ledger.unconfirmedTx.rows_insert_perm txid signed).map Prod.snd
        have kept : ((ledger.unconfirmedTx.erase txid).rows.map Prod.snd).Sublist
            ledger.unconfirmedTx.values := List.filter_sublist.map Prod.snd
        have inserted := (rows.map sizeAndFee).subperm
        rw [List.map_cons, List.map_cons, sameSize] at inserted
        exact inserted.trans ((kept.map sizeAndFee).cons_cons _).subperm
      · exact Or.inr rfl
    refine
      { sound :=
          { known := shrinks.known sound.known
            covered := ?_
            small := ?_ }
        stack := Or.inl shrinks }
    · refine sound.covered.keep ?_ ?_ ?_
      · rw [result]
        rfl
      · rw [result]
        rfl
      · have wallet : walletSats after = walletSats ledger := by
          rw [result]
          rfl
        rw [wallet]
        exact Nat.add_le_add_right shrinks.fees _
    · subst result
      exact sound.small

theorem mem_votedRates {rate : Nat} :
    rate ∈ votedRates ledger ↔ ∃ node, ledger.feeRateVote.get? node = some (some rate) := by
  unfold votedRates
  rw [List.mem_filterMap]
  constructor
  · rintro ⟨row, member, voted⟩
    refine ⟨row.1, (ledger.feeRateVote.mem_rows row.1 (some rate)).mp ?_⟩
    rw [← voted]
    exact member
  · rintro ⟨node, found⟩
    exact ⟨(node, some rate), (ledger.feeRateVote.mem_rows node (some rate)).mpr found, rfl⟩

theorem processFeerate_stack {node : NodeId} {feerate : Option Nat} {item : ConsensusItem curve}
    (sound : StackSound ledger)
    (typed : ∀ rate, feerate = some rate → rate < 2 ^ 32)
    (processed : Onchain.processFeerate ledger node feerate = .ok after) :
    StackStep mint ledger item after := by
  have result := Onchain.processFeerate_ok processed
  have small : SmallRates after := by
    intro rate member
    obtain ⟨other, found⟩ := mem_votedRates.mp member
    rw [result, SortedMap.get?_insert] at found
    split at found
    · exact typed rate (Option.some.inj found)
    · exact sound.small rate (mem_votedRates.mpr ⟨other, found⟩)
  subst result
  exact
    { sound :=
        { known := sound.known
          covered := sound.covered
          small }
      stack := Or.inl (.of_same rfl rfl) }

theorem processConsensusItem_stack {node : NodeId} {item : ConsensusItem curve}
    (sound : StackSound ledger)
    (typed : ∀ rate, item = .onchain (.feerate (some rate)) → rate < 2 ^ 32)
    (processed : processConsensusItem server ledger node item = .ok after) :
    StackStep server.toMintConfig ledger item after := by
  cases item with
  | tx tx =>
      have stack := processTxItem_stack sound.small sound.known sound.covered processed
      have small : SmallRates after := by
        unfold SmallRates votedRates
        rw [stack.beyond.feeRateVote]
        exact sound.small
      refine ⟨⟨stack.known sound.known, stack.covered, small⟩, ?_⟩
      rcases stack.stack with same | ⟨mintTx, pushed⟩
      · exact Or.inl (.of_same same stack.beyond.unconfirmedTx)
      · refine Or.inr ⟨mintTx, ?_, pushed, stack.beyond⟩
        by_contra offChain
        have kept := processTxItem_offChain offChain processed
        cases pushed.idle.symm.trans (kept.symm.trans pushed.unsigned)
  | blockHeight vote =>
      obtain ⟨height, result⟩ := processBlockHeight_ok processed
      subst result
      exact .of_same sound ⟨rfl, rfl, rfl⟩ rfl rfl rfl
  | version vote =>
      have result := processVersion_ok processed
      subst result
      exact .of_same sound ⟨rfl, rfl, rfl⟩ rfl rfl rfl
  | onchain item =>
      cases item with
      | block vote => exact processBlock_stack sound processed
      | feerate feerate =>
          exact processFeerate_stack sound (fun rate isSome => typed rate (by rw [isSome]))
            processed
      | nonces txid nonces =>
          obtain ⟨_, _, _, _, _, result⟩ :=
            Onchain.processNonces_ok (mapError_eq_ok.mp processed)
          subst result
          exact .of_same sound ⟨rfl, rfl, rfl⟩ rfl rfl rfl
      | signatureShares txid shares nonces =>
          exact processSignatureShares_stack sound (mapError_eq_ok.mp processed)

/-! ### Runs -/

/-- The votes of a log on the fee rate are 32-bit numbers. -/
def TypedRates (items : List (NodeId × ConsensusItem curve)) : Prop :=
  ∀ entry ∈ items, ∀ rate, entry.2 = .onchain (.feerate (some rate)) → rate < 2 ^ 32

theorem History.step_stack {history next : History curve}
    {entry : NodeId × ConsensusItem curve} (sound : StackSound history.ledger)
    (typed : ∀ rate, entry.2 = .onchain (.feerate (some rate)) → rate < 2 ^ 32)
    (stepped : History.step server history entry = some next) :
    StackStep server.toMintConfig history.ledger entry.2 next.ledger := by
  rcases History.step_cases stepped with rfl | ⟨tx, isTx, processed, _⟩ | ⟨processed, _, _⟩
  · exact .of_same sound ⟨rfl, rfl, rfl⟩ rfl rfl rfl
  · have accepted : processConsensusItem server history.ledger entry.1 entry.2 =
        .ok next.ledger := by
      rw [isTx]
      exact processed
    exact processConsensusItem_stack sound typed accepted
  · exact processConsensusItem_stack sound typed processed

/-- A transaction with a part on chain comes to a stack that is not full, or
that the deposits cannot pay another one for. -/
def StackRoom (ledger : Ledger curve) (item : ConsensusItem curve) : Prop :=
  OnChain item →
    (pendingTxsUnordered ledger).length < 32 ∨ deposited ledger < STACK_FEES

theorem StackStep.few {item : ConsensusItem curve} (step : StackStep mint ledger item after)
    (few : (pendingTxsUnordered ledger).length ≤ 32) (room : StackRoom ledger item) :
    (pendingTxsUnordered after).length ≤ 32 := by
  rcases step.stack with shrinks | ⟨mintTx, onChain, pushed, beyond⟩
  · exact shrinks.length.trans few
  · exact pushed.few_of_room beyond step.sound.known step.sound.covered (room onChain)

def StackRooms (server : Server curve) (items : List (NodeId × ConsensusItem curve)) : Prop :=
  ∀ front entry back middle, items = front ++ entry :: back →
    History.run server History.start front = some middle → StackRoom middle.ledger entry.2

theorem History.run_stack (items : List (NodeId × ConsensusItem curve)) :
    ∀ history : History curve, TypedRates items →
      History.run server History.start items = some history →
        StackSound history.ledger ∧
          (StackRooms server items → (pendingTxsUnordered history.ledger).length ≤ 32) := by
  induction items using List.reverseRecOn with
  | nil =>
      intro history _ ran
      cases ran
      exact ⟨.empty, fun _ => Nat.zero_le _⟩
  | append_singleton front entry inductionHypothesis =>
      intro history typed ran
      rw [History.run_concat, Option.bind_eq_some_iff] at ran
      obtain ⟨middle, before, stepped⟩ := ran
      obtain ⟨sound, few⟩ := inductionHypothesis middle
        (fun other member => typed other (List.mem_append_left _ member)) before
      have step := History.step_stack sound
        (typed entry (List.mem_append_right _ List.mem_cons_self)) stepped
      refine ⟨step.sound, fun rooms => step.few (few ?_) (rooms front entry [] middle rfl before)⟩
      intro earlier other later state split
      exact rooms earlier other (later ++ [entry]) state (by rw [split, List.append_assoc]; rfl)

theorem beyondItems_of_fee {panic : Panic} (fee : panic = .stackVbytes ∨ panic = .pendingTxs) :
    BeyondItems panic := by
  rcases fee with rfl | rfl
  · refine ⟨⟨⟨?_, ?_, ?_, ?_, ?_⟩, ?_, ?_⟩, ?_, ?_, ?_⟩ <;> decide
  · refine ⟨⟨⟨?_, ?_, ?_, ?_, ?_⟩, ?_, ?_⟩, ?_, ?_, ?_⟩ <;> decide

/-- In every run a mint transaction pays for the stack it is put on, and the
sizes of the stack add up.  The stack stays below 33 while there is room. -/
theorem pending_stack_bounded {items : List (NodeId × ConsensusItem curve)}
    {history : History curve} (typed : TypedRates items)
    (ran : History.run server History.start items = some history) :
    (∀ entry next mintTx, (∀ rate, entry.2 = .onchain (.feerate (some rate)) → rate < 2 ^ 32) →
      History.step server history entry = some next → next.ledger.unsignedTx = some mintTx →
        history.ledger.unsignedTx = some mintTx ∨
          history.ledger.unsignedTx = none ∧
            PaysForStack server.toMintConfig history.ledger mintTx) ∧
      ((∀ vbytes ∈ [SEND_TX_VBYTES, RECEIVE_TX_VBYTES], Avoids .stackVbytes
        (consensusFee server.toMintConfig history.ledger vbytes :
          Outcome ItemError (Option Nat))) ∧
        ∀ node item, Avoids .stackVbytes
          (processConsensusItem server history.ledger node item)) ∧
      (StackRooms server items →
        (pendingTxsUnordered history.ledger).length ≤ 32 ∧
          (∀ vbytes, Avoids .pendingTxs
            (consensusFee server.toMintConfig history.ledger vbytes :
              Outcome ItemError (Option Nat))) ∧
          ∀ node item, StackRoom history.ledger item →
            Avoids .pendingTxs (processConsensusItem server history.ledger node item)) := by
  obtain ⟨sound, bounded⟩ := History.run_stack items history typed ran
  refine ⟨?_, ⟨?_, ?_⟩, ?_⟩
  · intro entry next mintTx small stepped unsigned
    rcases (History.step_stack sound small stepped).stack with shrinks | ⟨other, _, pushed, _⟩
    · rcases shrinks.unsigned with same | none
      · exact Or.inl (same.symm.trans unsigned)
      · cases none.symm.trans unsigned
    · have same : other = mintTx := Option.some.inj (pushed.unsigned.symm.trans unsigned)
      exact Or.inr ⟨pushed.idle, same ▸ pushed.pays⟩
  · intro vbytes member
    refine consensusFee_stackVbytes sound.known ?_
    rcases List.mem_pair.mp member with isSend | isReceive
    · rw [isSend]
      decide
    · exact isReceive.le
  · intro node item
    apply processConsensusItem_avoids (beyondItems_of_fee (Or.inl rfl))
    intro tx _
    apply processTxItem_avoids_fee sound.small sound.known sound.covered (Or.inl rfl)
    intro _ _ middle stack vbytes size
    exact consensusFee_stackVbytes (stack.known sound.known) size
  · intro rooms
    have few := bounded rooms
    refine ⟨few, fun vbytes => consensusFee_pendingTxs few, ?_⟩
    intro node item room
    apply processConsensusItem_avoids (beyondItems_of_fee (Or.inr rfl))
    intro tx isTx
    apply processTxItem_avoids_fee sound.small sound.known sound.covered (Or.inr rfl)
    intro onChain _ middle stack vbytes _
    exact consensusFee_pendingTxs (stack.few sound.known few (room (isTx ▸ onChain)))

/-! A mint transaction for each of 33 deposits, where the first 32 are signed by
the nodes 0, 1 and 2. -/

def stackServer : Server scalarCurve :=
  { sampleServer with
    txHash := fun inputs _ =>
      (inputs.map (fun input => match input with
        | .onchain claim => claim.outputIndex + 1
        | _ => 0)).sum
    pks_nodes := sample_pks_nodes
    tbsAggPks_denominations := sample_denominations }

def stackTotal (count : Nat) : Nat :=
  RECEIVE_TX_VBYTES * count * max 1000 (ONCHAIN_FEERATE_BASE * 2 ^ (count - 1)) / 1000

def claimFee (index : Nat) : Nat := stackTotal (max index 1) - stackTotal (index - 1)

def stackDeposits : BlockVote where
  height := 1
  txs :=
    [{ txid := 7
       outputs := (List.range 35).map (fun index =>
        (index, { value := claimFee index + 50000, scriptPubkey := 6 })) }]

def stackClaim (index : Nat) : ConsensusItem scalarCurve :=
  .tx
    { inputs := [.onchain { outputIndex := index, tweak := 5, fee := claimFee index }]
      outputs := [.ecash { denomination := 20, nonce := index }]
      signatures := [0] }

def stackNonces : List (PublicNonce scalarCurve) :=
  let nonce : SecretNonce scalarCurve := { first := ScalarCurve.one, second := ScalarCurve.one }
  [derivePublicNonce nonce, derivePublicNonce nonce]

def stackShare (multiplier : scalarCurve.Scalar) (tweak : Hash) : SignatureShare scalarCurve :=
  let two : scalarCurve.Scalar := ((2 : Nat) : scalarCurve.Scalar)
  let key : scalarCurve.Scalar := ((tweak + 1 : Nat) : scalarCurve.Scalar)
  let signed := if tweak % 2 = 0 then -key else key
  { response := (SecretKey.ofScalar? (two + multiplier * signed)).getD ScalarCurve.one }

/-- A claim and the signing session for its mint transaction. -/
def stackRound (index : Nat) : List (NodeId × ConsensusItem scalarCurve) :=
  let txid := 8 * index + 7
  let tweak := if index = 1 then 5 else 8 * (index - 1)
  let three : scalarCurve.Scalar := ((3 : Nat) : scalarCurve.Scalar)
  (0, stackClaim index) ::
    [0, 1, 2].map (fun node => (node, .onchain (.nonces txid stackNonces))) ++
    [(0, three), (1, -three), (2, 1)].map (fun signer =>
      (signer.1, .onchain (.signatureShares txid
        [stackShare signer.2 tweak, stackShare signer.2 5] stackNonces)))

def stackItems (rounds : Nat) : List (NodeId × ConsensusItem scalarCurve) :=
  [0, 1, 2].map (fun node => (node, .blockHeight 1)) ++
    [0, 1, 2].map (fun node => (node, .onchain (.feerate (some 1000)))) ++
    [0, 1, 2].map (fun node => (node, .onchain (.block stackDeposits))) ++
    (0, stackClaim 0) :: (List.range' 1 rounds).flatMap stackRound ++
    [(0, stackClaim (rounds + 1))]

theorem stackItems_typed (rounds : Nat) : TypedRates (stackItems rounds) := by
  have claims : ∀ index rate, stackClaim index ≠ .onchain (.feerate (some rate)) := by
    intro index rate same
    cases same
  intro entry member rate isRate
  unfold stackItems stackRound at member
  simp only [List.mem_append, List.mem_cons, List.mem_map, List.mem_flatMap] at member
  grind

theorem stackItems_room : StackRooms stackServer (stackItems 0) := by
  have small : ∀ count ∈ List.range 12,
      (History.run stackServer History.start ((stackItems 0).take count)).all (fun history =>
        decide ((pendingTxsUnordered history.ledger).length < 32)) = true := by
    decide +kernel
  intro front entry back middle split ran _
  left
  have count : front.length < 12 := by
    have total : (stackItems 0).length = 11 := by decide +kernel
    rw [split, List.length_append] at total
    omega
  have below := small front.length (List.mem_range.mpr count)
  rw [split, List.take_left, ran] at below
  exact of_decide_eq_true below

theorem pending_stack_bounded_sample :
    ∃ history, History.run stackServer History.start (stackItems 0) = some history ∧
      (pendingTxsUnordered history.ledger).length = 1 ∧
      ∀ node item, StackRoom history.ledger item →
        Avoids .pendingTxs (processConsensusItem stackServer history.ledger node item) := by
  have ran : (History.run stackServer History.start (stackItems 0)).map
      (fun history => (pendingTxsUnordered history.ledger).length) = some 1 := by
    decide +kernel
  obtain ⟨history, reached, pending⟩ := Option.map_eq_some_iff.mp ran
  obtain ⟨_, _, bounded⟩ := pending_stack_bounded (stackItems_typed 0) reached
  exact ⟨history, reached, pending, (bounded stackItems_room).2.2⟩

set_option maxRecDepth 100000 in
/-- At less than 125 000 of the 21 million BTC the 34th mint transaction
panics. -/
theorem pending_stack_overflows :
    ∃ history, History.run stackServer History.start (stackItems 32) = some history ∧
      TypedRates (stackItems 32) ∧ deposited history.ledger < 125000 * 100000000 ∧
      (pendingTxsUnordered history.ledger).length = 33 ∧
      ¬Avoids .pendingTxs (processConsensusItem stackServer history.ledger 0 (stackClaim 34)) := by
  have ran : (History.run stackServer History.start (stackItems 32)).map (fun history =>
      decide (deposited history.ledger < 125000 * 100000000 ∧
        (pendingTxsUnordered history.ledger).length = 33 ∧
        ¬Avoids .pendingTxs
          (processConsensusItem stackServer history.ledger 0 (stackClaim 34)))) = some true := by
    decide +kernel
  obtain ⟨history, reached, holds⟩ := Option.map_eq_some_iff.mp ran
  exact ⟨history, reached, stackItems_typed 32, of_decide_eq_true holds⟩

end Picomint.Consensus
