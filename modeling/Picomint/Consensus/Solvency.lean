/-
The wallet covers the ecash in circulation and the contracts.

Amounts are compared as exact integers in msat.  One potential carries the
proof: the wallet less the contracts.  An input other than a note raises it by
at least the input's amount, an output other than ecash lowers it by its
amount, and the funding of a transaction makes up for the ecash.
-/

import Picomint.Consensus.Spending

namespace Picomint

namespace Consensus

open Tss

variable {curve : Curve} {server : Server curve} {mint : MintConfig curve}
  {ledger middle after : Ledger curve}

/-! ### Exact amounts -/

def OutgoingContract.worth (contract : OutgoingContract) : Int := contract.amount + contract.fee

def IncomingContract.worth (contract : IncomingContract) : Int := contract.amount - contract.fee

/-- The true amount of an input against the ledger it is spent from. -/
def inputWorth (ledger : Ledger curve) : Input → Int
  | .ecash input => 2 ^ input.note.denomination
  | .onchain input =>
      match ledger.output.get? input.outputIndex with
      | some tracked => 1000 * ((tracked.out.value : Int) - input.fee)
      | none => 0
  | .lightning (.outgoing outpoint _) =>
      match ledger.outgoingContract.get? outpoint with
      | some contract => OutgoingContract.worth contract
      | none => 0
  | .lightning (.incoming outpoint) =>
      match ledger.incomingContract.get? outpoint with
      | some contract => IncomingContract.worth contract
      | none => 0

/-- The true amount of an output. -/
def outputWorth : Output → Int
  | .ecash output => 2 ^ output.denomination
  | .onchain output => 1000 * ((output.value : Int) + output.fee)
  | .lightning (.outgoing contract) => OutgoingContract.worth contract
  | .lightning (.incoming contract) => IncomingContract.worth contract

def ecashSpent : Input → Int
  | .ecash input => 2 ^ input.note.denomination
  | .onchain _ => 0
  | .lightning _ => 0

def ecashIssued : Output → Int
  | .ecash output => 2 ^ output.denomination
  | .onchain _ => 0
  | .lightning _ => 0

def fees (tx : Transaction) : Int :=
  ((tx.inputs.map inputFee).sum + (tx.outputs.map outputFee).sum : Nat)

/-! ### The potential -/

def walletValue (ledger : Ledger curve) : Int :=
  match ledger.mintUtxo with
  | some wallet => wallet.value
  | none => 0

def contractsWorth (ledger : Ledger curve) : Int :=
  ledger.outgoingContract.total (fun _ contract => OutgoingContract.worth contract) +
    ledger.incomingContract.total (fun _ contract => IncomingContract.worth contract)

def reserve (ledger : Ledger curve) : Int := 1000 * walletValue ledger - contractsWorth ledger

theorem reserve_congr (wallet : after.mintUtxo = ledger.mintUtxo)
    (outgoing : after.outgoingContract = ledger.outgoingContract)
    (incoming : after.incomingContract = ledger.incomingContract) :
    reserve after = reserve ledger := by
  unfold reserve walletValue contractsWorth
  rw [wallet, outgoing, incoming]

/-! ### Inputs -/

theorem ecash_input_worth {input : EcashInput} {amount : Nat} {pk : XOnlyPublicKey}
    (processed : Ecash.processInput mint ledger input = .ok ((amount, pk), after)) :
    (amount : Int) = 2 ^ input.note.denomination ∧ reserve after = reserve ledger := by
  obtain ⟨_, ⟨key, configured, _⟩, value, _, same⟩ := Ecash.processInput_ok processed
  have below := Ecash.denomination_below mint.tbsAggPks_denominations configured
  subst same
  refine ⟨?_, reserve_congr rfl rfl rfl⟩
  rw [value, Ecash.amount_of_below below]
  exact_mod_cast rfl

theorem onchain_input_worth {input : OnchainInput} {amount : Nat} {pk : XOnlyPublicKey}
    (processed : Onchain.processInput mint ledger input = .ok ((amount, pk), after)) :
    (∃ tracked, ledger.output.get? input.outputIndex = some tracked ∧
        (amount : Int) = 1000 * ((tracked.out.value : Int) - input.fee)) ∧
      reserve ledger + amount ≤ reserve after := by
  obtain ⟨tracked, value, checked, product, _, moved⟩ := Onchain.processInput_ok processed
  have exact := checked.value
  refine ⟨⟨tracked, checked.known, by omega⟩, ?_⟩
  rcases moved with ⟨empty, same⟩ | ⟨wallet, script, created, _, built, same⟩
  · subst same
    unfold reserve walletValue contractsWorth
    simp only [empty]
    omega
  · subst same
    unfold reserve walletValue contractsWorth
    simp only [built.held, Onchain.changeUtxo]
    omega

theorem outgoing_input_worth {outpoint : OutPoint} {witness : OutgoingWitness} {amount : Nat}
    {pk : XOnlyPublicKey}
    (processed : Lightning.processInput mint ledger (.outgoing outpoint witness) =
      .ok ((amount, pk), after)) :
    (∃ contract, ledger.outgoingContract.get? outpoint = some contract ∧
        (amount : Int) = OutgoingContract.worth contract) ∧
      reserve after = reserve ledger + amount := by
  obtain ⟨contract, _, found, _, exact, _, same⟩ := Lightning.processInput_outgoing_ok processed
  have worth : (amount : Int) = OutgoingContract.worth contract := by
    unfold OutgoingContract.worth
    omega
  refine ⟨⟨contract, found, worth⟩, ?_⟩
  have removed := ledger.outgoingContract.total_erase_of_some
    (fun _ contract => OutgoingContract.worth contract) found
  subst same
  unfold reserve contractsWorth walletValue
  simp only
  omega

theorem incoming_input_worth {outpoint : OutPoint} {amount : Nat} {pk : XOnlyPublicKey}
    (processed : Lightning.processInput mint ledger (.incoming outpoint) =
      .ok ((amount, pk), after)) :
    (∃ contract, ledger.incomingContract.get? outpoint = some contract ∧
        (amount : Int) = IncomingContract.worth contract) ∧
      reserve after = reserve ledger + amount := by
  obtain ⟨contract, _, found, _, exact, _, same⟩ := Lightning.processInput_incoming_ok processed
  have worth : (amount : Int) = IncomingContract.worth contract := by
    unfold IncomingContract.worth
    omega
  refine ⟨⟨contract, found, worth⟩, ?_⟩
  have removed := ledger.incomingContract.total_erase_of_some
    (fun _ contract => IncomingContract.worth contract) found
  subst same
  unfold reserve contractsWorth walletValue
  simp only
  omega

/-- An accepted input is worth what it is credited with, and raises the reserve
by what of it is not ecash. -/
theorem processInput_worth {input : Input} {result : Nat × XOnlyPublicKey}
    (processed : processInput mint ledger input = .ok (result, after)) :
    (result.1 : Int) = inputWorth ledger input ∧
      reserve ledger + (result.1 - ecashSpent input) ≤ reserve after := by
  obtain ⟨amount, pk⟩ := result
  cases input with
  | ecash input =>
      obtain ⟨worth, same⟩ := ecash_input_worth (mapError_eq_ok.mp processed)
      refine ⟨worth, ?_⟩
      rw [same, ecashSpent, worth]
      omega
  | onchain input =>
      obtain ⟨⟨tracked, known, worth⟩, raised⟩ := onchain_input_worth (mapError_eq_ok.mp processed)
      refine ⟨?_, ?_⟩
      · rw [inputWorth, known]
        exact worth
      · rw [ecashSpent]
        omega
  | lightning input =>
      cases input with
      | outgoing outpoint witness =>
          obtain ⟨⟨contract, found, worth⟩, raised⟩ :=
            outgoing_input_worth (mapError_eq_ok.mp processed)
          refine ⟨?_, ?_⟩
          · rw [inputWorth, found]
            exact worth
          · rw [raised, ecashSpent]
            omega
      | incoming outpoint =>
          obtain ⟨⟨contract, found, worth⟩, raised⟩ :=
            incoming_input_worth (mapError_eq_ok.mp processed)
          refine ⟨?_, ?_⟩
          · rw [inputWorth, found]
            exact worth
          · rw [raised, ecashSpent]
            omega

/-- What the inputs of a transaction see is already there before its first. -/
structure Narrowed (start ledger : Ledger curve) : Prop where
  outgoing : ∀ outpoint contract, ledger.outgoingContract.get? outpoint = some contract →
    start.outgoingContract.get? outpoint = some contract
  incoming : ∀ outpoint contract, ledger.incomingContract.get? outpoint = some contract →
    start.incomingContract.get? outpoint = some contract
  output : ledger.output = start.output

theorem processInput_narrowed {start : Ledger curve} {input : Input}
    {result : Nat × XOnlyPublicKey}
    (processed : processInput mint ledger input = .ok (result, after))
    (narrowed : Narrowed start ledger) : Narrowed start after := by
  have sameOutput : after.output = ledger.output := by
    obtain ⟨amount, pk⟩ := result
    cases input with
    | ecash input =>
        obtain ⟨_, _, _, _, same⟩ := Ecash.processInput_ok (mapError_eq_ok.mp processed)
        subst same
        rfl
    | onchain input => exact (onchain_processInput_frame (mapError_eq_ok.mp processed)).1.output
    | lightning input =>
        cases input with
        | outgoing outpoint witness =>
            obtain ⟨_, _, _, _, _, _, same⟩ :=
              Lightning.processInput_outgoing_ok (mapError_eq_ok.mp processed)
            subst same
            rfl
        | incoming outpoint =>
            obtain ⟨_, _, _, _, _, _, same⟩ :=
              Lightning.processInput_incoming_ok (mapError_eq_ok.mp processed)
            subst same
            rfl
  constructor
  · intro outpoint contract found
    rcases (processInput_contracts processed).2 with ⟨_, _, _, _, outgoing, _⟩ |
      ⟨_, _, _, _, outgoing, _⟩ | ⟨_, outgoing, _⟩
    · rw [outgoing, SortedMap.get?_erase] at found
      split at found
      · cases found
      · exact narrowed.outgoing _ _ found
    · exact narrowed.outgoing _ _ (outgoing ▸ found)
    · exact narrowed.outgoing _ _ (outgoing ▸ found)
  · intro outpoint contract found
    rcases (processInput_contracts processed).2 with ⟨_, _, _, _, _, incoming⟩ |
      ⟨_, _, _, _, _, incoming⟩ | ⟨_, _, incoming⟩
    · exact narrowed.incoming _ _ (incoming ▸ found)
    · rw [incoming, SortedMap.get?_erase] at found
      split at found
      · cases found
      · exact narrowed.incoming _ _ found
    · exact narrowed.incoming _ _ (incoming ▸ found)
  · exact sameOutput.trans narrowed.output

theorem processInput_worth_start {start : Ledger curve} {input : Input}
    {result : Nat × XOnlyPublicKey}
    (processed : processInput mint ledger input = .ok (result, after))
    (narrowed : Narrowed start ledger) : (result.1 : Int) = inputWorth start input := by
  obtain ⟨amount, pk⟩ := result
  cases input with
  | ecash input => exact (ecash_input_worth (mapError_eq_ok.mp processed)).1
  | onchain input =>
      obtain ⟨⟨tracked, known, worth⟩, _⟩ := onchain_input_worth (mapError_eq_ok.mp processed)
      rw [inputWorth, ← narrowed.output, known]
      exact worth
  | lightning input =>
      cases input with
      | outgoing outpoint witness =>
          obtain ⟨⟨contract, found, worth⟩, _⟩ :=
            outgoing_input_worth (mapError_eq_ok.mp processed)
          rw [inputWorth, narrowed.outgoing _ _ found]
          exact worth
      | incoming outpoint =>
          obtain ⟨⟨contract, found, worth⟩, _⟩ :=
            incoming_input_worth (mapError_eq_ok.mp processed)
          rw [inputWorth, narrowed.incoming _ _ found]
          exact worth

theorem InputsProcessed.worth {start : Ledger curve} {inputs : List Input}
    {results : List (Nat × XOnlyPublicKey)}
    (processed : InputsProcessed mint ledger inputs results after)
    (narrowed : Narrowed start ledger) :
    results.map (fun result => (result.1 : Int)) = inputs.map (inputWorth start) ∧
      reserve ledger + ((inputs.map (inputWorth start)).sum - (inputs.map ecashSpent).sum) ≤
        reserve after := by
  induction processed with
  | nil =>
      constructor
      · rfl
      · simp
  | cons first _ inductionHypothesis =>
      obtain ⟨worth, raised⟩ := inductionHypothesis (processInput_narrowed first narrowed)
      have firstWorth := processInput_worth_start first narrowed
      have firstRaised := (processInput_worth first).2
      simp only [List.map_cons, List.sum_cons]
      constructor
      · rw [firstWorth, worth]
      · omega

/-! ### Outputs -/

/-- An accepted output is worth what it is charged, and lowers the reserve by
at most what of it is not ecash. -/
theorem processOutput_worth {output : Output} {outpoint : OutPoint} {amount : Nat}
    (processed : processOutput server ledger outpoint output = .ok (amount, after))
    (unfunded : ¬ Funded ledger outpoint) :
    (amount : Int) = outputWorth output ∧
      reserve ledger - (amount - ecashIssued output) ≤ reserve after := by
  cases output with
  | ecash output =>
      obtain ⟨_, ⟨key, configured, same⟩, value⟩ :=
        Ecash.processOutput_ok (mapError_eq_ok.mp processed)
      have below := Ecash.denomination_below server.tbsSks_denominations configured
      have worth : (amount : Int) = 2 ^ output.denomination := by
        rw [value, Ecash.amount_of_below below]
        exact_mod_cast rfl
      have kept : reserve after = reserve ledger := by
        subst same
        exact reserve_congr rfl rfl rfl
      refine ⟨worth, ?_⟩
      rw [kept, ecashIssued, worth]
      omega
  | onchain output =>
      obtain ⟨wallet, change, script, created, checked, product, _, same⟩ :=
        Onchain.processOutput_ok (mapError_eq_ok.mp processed)
      have exact := checked.value
      have worth : (amount : Int) = 1000 * ((output.value : Int) + output.fee) := by omega
      refine ⟨worth, ?_⟩
      subst same
      unfold reserve walletValue contractsWorth ecashIssued
      simp only [checked.held, Onchain.changeUtxo]
      omega
  | lightning output =>
      cases output with
      | outgoing contract =>
          obtain ⟨exact, _, same⟩ :=
            Lightning.processOutput_outgoing_ok (mapError_eq_ok.mp processed)
          have worth : (amount : Int) = OutgoingContract.worth contract := by
            unfold OutgoingContract.worth
            omega
          have absent : ledger.outgoingContract.get? outpoint = none := by
            cases found : ledger.outgoingContract.get? outpoint with
            | none => rfl
            | some other => exact absurd (Or.inl ⟨other, found⟩) unfunded
          have added := ledger.outgoingContract.total_insert_of_none
            (fun _ contract => OutgoingContract.worth contract) contract absent
          refine ⟨worth, ?_⟩
          subst same
          unfold reserve contractsWorth walletValue ecashIssued
          simp only
          omega
      | incoming contract =>
          obtain ⟨exact, same⟩ := Lightning.processOutput_incoming_ok (mapError_eq_ok.mp processed)
          have worth : (amount : Int) = IncomingContract.worth contract := by
            unfold IncomingContract.worth
            omega
          have absent : ledger.incomingContract.get? outpoint = none := by
            cases found : ledger.incomingContract.get? outpoint with
            | none => rfl
            | some other => exact absurd (Or.inr ⟨other, found⟩) unfunded
          have added := ledger.incomingContract.total_insert_of_none
            (fun _ contract => IncomingContract.worth contract) contract absent
          refine ⟨worth, ?_⟩
          subst same
          unfold reserve contractsWorth walletValue ecashIssued
          simp only
          omega

theorem OutputsProcessed.worth {txid : TransactionId} {outputs : List Output} {index : Nat}
    {amounts : List Nat}
    (processed : OutputsProcessed server txid ledger (outputs.zipIdx index) amounts after)
    (fresh : ledger.acceptedTxid.contains txid = false)
    (owned : ContractsOwned txid index ledger) :
    amounts.map (fun amount : Nat => (amount : Int)) = outputs.map outputWorth ∧
      reserve ledger - ((outputs.map outputWorth).sum - (outputs.map ecashIssued).sum) ≤
        reserve after := by
  induction outputs generalizing ledger index amounts with
  | nil =>
      cases processed
      constructor
      · rfl
      · simp
  | cons output rest inductionHypothesis =>
      rw [List.zipIdx_cons] at processed
      cases processed with
      | cons first following =>
          have sameTxids := (processOutput_contracts first).1
          obtain ⟨worth, lowered⟩ := inductionHypothesis following (by rwa [sameTxids])
            (processOutput_owned first fresh owned)
          obtain ⟨firstWorth, firstLowered⟩ := processOutput_worth first (owned.unfunded fresh)
          simp only [List.map_cons, List.sum_cons] at firstWorth firstLowered ⊢
          constructor
          · rw [firstWorth, worth]
          · omega

/-! ### Transactions -/

/-- An accepted transaction conserves value: the amounts it was judged by are
the true ones, and they cover the outputs and fees below the 64-bit bound. -/
structure Conserves (server : Server curve) (before : Ledger curve) (tx : Transaction) : Prop where
  exact : ∃ results middle amounts after, Accepted server before tx results middle amounts after ∧
    results.map (fun result => (result.1 : Int)) = tx.inputs.map (inputWorth before) ∧
    amounts.map (fun amount : Nat => (amount : Int)) = tx.outputs.map outputWorth
  funded : (tx.outputs.map outputWorth).sum + fees tx ≤ (tx.inputs.map (inputWorth before)).sum
  below : (tx.inputs.map (inputWorth before)).sum < U64_BOUND

/-- The rows of the tables an accepted transaction appends to. -/
def counters (ledger : Ledger curve) : Nat :=
  nextIndex ledger.txInfo + ledger.incomingContractStreamNextIndex.getD 0

theorem sum_cast (amounts : List Nat) :
    (amounts.sum : Int) = (amounts.map (fun amount : Nat => (amount : Int))).sum :=
  Nat.cast_list_sum amounts

theorem Accepted.worth {tx : Transaction} {results : List (Nat × XOnlyPublicKey)}
    {amounts : List Nat} (accepted : Accepted server ledger tx results middle amounts after)
    (fresh : ledger.acceptedTxid.contains (computeTxid server.toMintConfig tx) = false)
    (owned : ContractsOwned 0 0 ledger) :
    Conserves server ledger tx ∧
      reserve ledger + ((tx.outputs.map ecashIssued).sum - (tx.inputs.map ecashSpent).sum) ≤
        reserve after := by
  have sameMiddle := accepted.inputs.acceptedTxid
  obtain ⟨inputsWorth, raised⟩ :=
    accepted.inputs.worth
      (⟨fun _ _ => id, fun _ _ => id, rfl⟩ : Narrowed ledger ledger)
  obtain ⟨outputsWorth, lowered⟩ := accepted.outputs.worth (by rwa [sameMiddle])
    (accepted.inputs.owned owned).ofAccepted
  have inputSum := sum_cast (results.map Prod.fst)
  have outputSum := sum_cast amounts
  rw [List.map_map] at inputSum
  change _ = (results.map (fun result => (result.1 : Int))).sum at inputSum
  rw [inputsWorth] at inputSum
  rw [outputsWorth] at outputSum
  have funded := accepted.funded
  have below := accepted.below
  have covered : (tx.outputs.map outputWorth).sum + fees tx ≤
      (tx.inputs.map (inputWorth ledger)).sum := by
    unfold fees
    omega
  refine ⟨⟨⟨results, middle, amounts, after, accepted, inputsWorth, outputsWorth⟩, covered, ?_⟩, ?_⟩
  · omega
  · have paid : 0 ≤ fees tx := Int.natCast_nonneg _
    omega

/-! ### Histories -/

def History.circulation (history : History curve) : Int :=
  (history.accepted.map (fun entry => (entry.2.outputs.map ecashIssued).sum)).sum -
    (history.accepted.map (fun entry => (entry.2.inputs.map ecashSpent).sum)).sum

/-- What the history keeps: the reserve covers the ecash in circulation, and
every accepted transaction conserved value. -/
structure Solvent (server : Server curve) (history : History curve) : Prop where
  owned : ContractsOwned 0 0 history.ledger
  covered : history.circulation ≤ reserve history.ledger
  conserves : ∀ entry ∈ history.accepted, Conserves server entry.1 entry.2

theorem History.step_solvent {history next : History curve}
    {entry : NodeId × ConsensusItem curve} (stepped : History.step server history entry = some next)
    (solvent : Solvent server history) : Solvent server next := by
  rcases History.step_cases stepped with same | ⟨tx, _, processed, extended⟩ |
    ⟨processed, notTx, extended⟩
  · exact same ▸ solvent
  · obtain ⟨fresh, judged, judgedTx, result⟩ := processTxItem_ok processed
    obtain ⟨results, middle, amounts, accepted⟩ := processTx_ok judgedTx
    obtain ⟨conserves, raised⟩ := accepted.worth fresh solvent.owned
    have kept : reserve next.ledger = reserve judged := by
      rw [result]
      exact reserve_congr rfl rfl rfl
    refine ⟨processTxItem_owned processed solvent.owned, ?_, ?_⟩
    · have covered := solvent.covered
      unfold History.circulation at covered ⊢
      rw [extended, kept]
      simp only [List.map_append, List.sum_append, List.map_singleton, List.sum_singleton]
      omega
    · intro entry member
      rw [extended] at member
      rcases List.mem_append.mp member with before | new
      · exact solvent.conserves entry before
      · rw [List.mem_singleton.mp new]
        exact conserves
  · have same := processConsensusItem_sameAccounts processed notTx
    refine ⟨processConsensusItem_owned processed notTx solvent.owned, ?_, ?_⟩
    · have covered := solvent.covered
      unfold History.circulation at covered ⊢
      rwa [extended, reserve_congr same.mintUtxo same.outgoingContract same.incomingContract]
    · rw [extended]
      exact solvent.conserves

theorem History.start_solvent : Solvent server (History.start : History curve) where
  owned := empty_owned
  covered := le_refl 0
  conserves := fun _ member => by cases member

/-! ### Row counters -/

theorem processInput_counters {input : Input} {result : Nat × XOnlyPublicKey}
    (processed : processInput mint ledger input = .ok (result, after)) :
    counters after ≤ counters ledger + 1 := by
  obtain ⟨amount, pk⟩ := result
  unfold counters
  cases input with
  | ecash input =>
      obtain ⟨_, _, _, _, same⟩ := Ecash.processInput_ok (mapError_eq_ok.mp processed)
      subst same
      exact Nat.le_succ _
  | onchain input =>
      obtain ⟨_, _, _, _, _, ⟨_, same⟩ | ⟨_, _, _, _, _, same⟩⟩ :=
        Onchain.processInput_ok (mapError_eq_ok.mp processed)
      · subst same
        exact Nat.le_succ _
      · subst same
        unfold Onchain.totalTxs
        simp only [nextIndex_insert]
        omega
  | lightning input =>
      cases input with
      | outgoing outpoint witness =>
          obtain ⟨_, _, _, _, _, _, same⟩ :=
            Lightning.processInput_outgoing_ok (mapError_eq_ok.mp processed)
          subst same
          exact Nat.le_succ _
      | incoming outpoint =>
          obtain ⟨_, _, _, _, _, _, same⟩ :=
            Lightning.processInput_incoming_ok (mapError_eq_ok.mp processed)
          subst same
          exact Nat.le_succ _

theorem processOutput_counters {output : Output} {outpoint : OutPoint} {amount : Nat}
    (processed : processOutput server ledger outpoint output = .ok (amount, after)) :
    counters after ≤ counters ledger + 1 := by
  unfold counters
  cases output with
  | ecash output =>
      obtain ⟨_, ⟨_, _, same⟩, _⟩ := Ecash.processOutput_ok (mapError_eq_ok.mp processed)
      subst same
      exact Nat.le_succ _
  | onchain output =>
      obtain ⟨_, _, _, _, _, _, _, same⟩ := Onchain.processOutput_ok (mapError_eq_ok.mp processed)
      subst same
      unfold Onchain.totalTxs
      simp only [nextIndex_insert]
      omega
  | lightning output =>
      cases output with
      | outgoing contract =>
          obtain ⟨_, _, same⟩ :=
            Lightning.processOutput_outgoing_ok (mapError_eq_ok.mp processed)
          subst same
          exact Nat.le_succ _
      | incoming contract =>
          obtain ⟨_, same⟩ := Lightning.processOutput_incoming_ok (mapError_eq_ok.mp processed)
          subst same
          simp only [Option.getD_some]
          omega

theorem InputsProcessed.counters {inputs : List Input} {results : List (Nat × XOnlyPublicKey)}
    (processed : InputsProcessed mint ledger inputs results after) :
    counters after ≤ counters ledger + inputs.length := by
  induction processed with
  | nil => exact le_refl _
  | cons first _ inductionHypothesis =>
      have step := processInput_counters first
      rw [List.length_cons]
      omega

theorem OutputsProcessed.counters {txid : TransactionId} {entries : List (Output × Nat)}
    {amounts : List Nat} (processed : OutputsProcessed server txid ledger entries amounts after) :
    counters after ≤ counters ledger + entries.length := by
  induction processed with
  | nil => exact le_refl _
  | cons first _ inductionHypothesis =>
      have step := processOutput_counters first
      rw [List.length_cons]
      omega

theorem checkCounts_ok {tx : Transaction} (checked : checkCounts tx = .ok ()) :
    tx.inputs ≠ [] ∧ tx.outputs ≠ [] ∧ tx.inputs.length ≤ MAX_INPUTS ∧
      tx.outputs.length ≤ MAX_OUTPUTS ∧ tx.signatures.length = tx.inputs.length := by
  unfold checkCounts at checked
  simp only [bind_eq_ok, ensure_eq_ok, Bool.not_eq_true', List.isEmpty_eq_false_iff,
    decide_eq_true_eq] at checked
  obtain ⟨_, inputs, _, outputs, _, fewInputs, _, fewOutputs, signatures⟩ := checked
  exact ⟨inputs, outputs, fewInputs, fewOutputs, signatures⟩

theorem History.step_counters {history next : History curve}
    {entry : NodeId × ConsensusItem curve} (stepped : History.step server history entry = some next)
    (bounded : counters history.ledger ≤ (MAX_INPUTS + MAX_OUTPUTS) * history.accepted.length) :
    counters next.ledger ≤ (MAX_INPUTS + MAX_OUTPUTS) * next.accepted.length := by
  rcases History.step_cases stepped with same | ⟨tx, _, processed, extended⟩ |
    ⟨processed, notTx, extended⟩
  · exact same ▸ bounded
  · obtain ⟨_, judged, judgedTx, result⟩ := processTxItem_ok processed
    obtain ⟨results, middle, amounts, accepted⟩ := processTx_ok judgedTx
    obtain ⟨_, _, fewInputs, fewOutputs, _⟩ := checkCounts_ok accepted.counts
    have inputs := accepted.inputs.counters
    have outputs := accepted.outputs.counters
    rw [List.length_zipIdx] at outputs
    have kept : counters next.ledger = counters judged := by
      rw [result]
      rfl
    rw [kept, extended, List.length_append, List.length_singleton, Nat.mul_add, Nat.mul_one]
    omega
  · have same := processConsensusItem_sameAccounts processed notTx
    unfold counters at bounded ⊢
    rwa [extended, same.txInfo, same.streamNextIndex]

/-! ### The mint is solvent -/

/-- In every reachable state the wallet is worth at least the ecash in
circulation and the contracts; every accepted transaction conserved value; the
row counters stay within a bound per transaction; and nothing was spent twice. -/
theorem mint_solvent (server : Server curve) (items : List (NodeId × ConsensusItem curve))
    (final : History curve) (ran : History.run server History.start items = some final) :
    final.circulation + contractsWorth final.ledger ≤ 1000 * walletValue final.ledger ∧
      (∀ entry ∈ final.accepted, Conserves server entry.1 entry.2) ∧
      counters final.ledger ≤ (MAX_INPUTS + MAX_OUTPUTS) * final.accepted.length ∧
      (final.spent Input.note).Nodup ∧ (final.spent Input.contract).Nodup ∧
      (final.spent Input.tracked).Nodup := by
  have solvent : Solvent server final :=
    History.run_preserves ran (fun _ _ _ => History.step_solvent) History.start_solvent
  have bounded : counters final.ledger ≤ (MAX_INPUTS + MAX_OUTPUTS) * final.accepted.length :=
    History.run_preserves (motive := fun history =>
      counters history.ledger ≤ (MAX_INPUTS + MAX_OUTPUTS) * history.accepted.length) ran
      (fun _ _ _ => History.step_counters) (le_refl 0)
  have covered := solvent.covered
  unfold reserve at covered
  exact ⟨by omega, solvent.conserves, bounded, spent_notes_nodup ran, spent_contracts_nodup ran,
    spent_tracked_nodup ran⟩

/-! A deposit is tracked by three nodes and claimed for ecash. -/

def sampleDeposit : BlockVote :=
  { height := 1
    txs := [{ txid := 7, outputs := [(0, { value := 50000, scriptPubkey := 6 })] }] }

def sampleClaim : Transaction :=
  { inputs := [.onchain { outputIndex := 0, tweak := 5, fee := 10000 }]
    outputs := [.ecash { denomination := 20, nonce := 1 }]
    signatures := [0] }

def sampleVotes (item : ConsensusItem scalarCurve) : List (NodeId × ConsensusItem scalarCurve) :=
  (List.range 3).map (fun node => (node, item))

def sampleItems : List (NodeId × ConsensusItem scalarCurve) :=
  sampleVotes (.blockHeight 1) ++ sampleVotes (.onchain (.block sampleDeposit)) ++
    sampleVotes (.onchain (.feerate (some 1000))) ++ [(0, .tx sampleClaim)]

theorem mint_solvent_sample :
    ∃ final, History.run sampleServer History.start sampleItems = some final ∧
      final.accepted.length = 1 ∧
      final.circulation + contractsWorth final.ledger ≤ 1000 * walletValue final.ledger := by
  have ran : (History.run sampleServer History.start sampleItems).map
      (fun history => history.accepted.length) = some 1 := by
    decide +kernel
  obtain ⟨final, reached, count⟩ := Option.map_eq_some_iff.mp ran
  exact ⟨final, reached, count, (mint_solvent sampleServer sampleItems final reached).1⟩

end Consensus

end Picomint
