/-
Which rejections are final.

A client that is told of a rejection puts its notes back or gives up.  Most
rejections hold against every later state of the mint, since the tables a
transaction is judged by only grow, or lose rows for good.  The others depend on
what has not happened yet, and a later copy of the same transaction may be
accepted.
-/

import Picomint.Client.DepositRuns
import Picomint.Consensus.SigningProgress

namespace Picomint

/-- A later copy of the inputs and outputs may be accepted. -/
def TxError.transient : TxError → Bool
  | .invalidWitnessLength => true
  | .invalidSignature => true
  | .input (.onchain .unknownOutputIndex) => true
  | .input (.onchain .noConsensusFeerateAvailable) => true
  | .input (.onchain .insufficientTotalFee) => true
  | .input (.onchain .arithmeticOverflow) => true
  | .input (.onchain .pendingTransaction) => true
  | .input (.lightning .unknownContract) => true
  | .output (.onchain .underDustLimit) => false
  | .output (.onchain _) => true
  | _ => false

namespace Consensus

open Tss

variable {curve : Curve} {server : Server curve} {mint : MintConfig curve}

/-! ### Outcomes up to transient errors -/

def Allows {ε α : Type} (transient : ε → Bool) (holds : α → Prop) : Outcome ε α → Prop
  | .ok value => holds value
  | .error (.error error) => transient error = true
  | .error (.panic _) => True

section Allows

variable {ε δ α β : Type} {transient : ε → Bool}

theorem Allows.mono {holds weaker : α → Prop} {outcome : Outcome ε α}
    (allows : Allows transient holds outcome) (weakens : ∀ value, holds value → weaker value) :
    Allows transient weaker outcome := by
  cases outcome with
  | ok value => exact weakens value allows
  | error fault =>
      cases fault with
      | error error => exact allows
      | panic panic => trivial

theorem Allows.bind {first : α → Prop} {holds : β → Prop} {outcome : Outcome ε α}
    {next : α → Outcome ε β} (allows : Allows transient first outcome)
    (continues : ∀ value, outcome = .ok value → first value →
      Allows transient holds (next value)) : Allows transient holds (outcome >>= next) := by
  cases outcome with
  | ok value => exact continues value rfl allows
  | error fault =>
      cases fault with
      | error error => exact allows
      | panic panic => trivial

/-- Nothing is asked of what comes before. -/
theorem Allows.following {holds : β → Prop} {outcome : Outcome ε α} {next : α → Outcome ε β}
    (allows : Allows transient (fun _ => True) outcome)
    (continues : ∀ value, outcome = .ok value → True → Allows transient holds (next value)) :
    Allows transient holds (outcome >>= next) :=
  allows.bind continues

theorem Allows.map (transient : δ → Bool) {holds : α → Prop} {outcome : Outcome ε α} {wrap : ε → δ}
    (allows : Allows (fun error => transient (wrap error)) holds outcome) :
    Allows transient holds (mapError wrap outcome) := by
  cases outcome with
  | ok value => exact allows
  | error fault =>
      cases fault with
      | error error => exact allows
      | panic panic => trivial

theorem allows_ok {holds : α → Prop} {outcome : Outcome ε α} {value : α}
    (returned : outcome = .ok value) (isRight : holds value) : Allows transient holds outcome := by
  rw [returned]
  exact isRight

theorem allows_eq {outcome : Outcome ε α} {value : α} (returned : outcome = .ok value) :
    Allows transient (fun result => result = value) outcome :=
  allows_ok returned rfl

theorem allows_ensure {condition : Bool} {error : ε}
    (passes : condition = true ∨ transient error = true) :
    Allows transient (fun _ => True) (ensure condition error) := by
  cases condition with
  | true => trivial
  | false => exact passes.resolve_left Bool.false_ne_true

theorem allows_okOr {value : Option α} {error : ε} (passes : transient error = true) :
    Allows transient (fun _ => True) (okOr value error) := by
  cases value with
  | none => exact passes
  | some result => trivial

theorem allows_found (expected : α) {value : Option α} {error : ε}
    (agrees : ∀ result, value = some result → result = expected)
    (passes : transient error = true) :
    Allows transient (fun result => result = expected) (okOr value error) := by
  cases value with
  | none => exact passes
  | some result => exact agrees result rfl

theorem allows_some {value : Option α} {error : ε} {expected : α} (found : value = some expected) :
    Allows transient (fun result => result = expected) (okOr value error) := by
  rw [found]
  rfl

theorem allows_expect (value : Option α) (panic : Panic) :
    Allows transient (fun _ => True) (expect value panic : Outcome ε α) := by
  cases value with
  | none => trivial
  | some result => trivial

theorem allows_assert (condition : Bool) (panic : Panic) :
    Allows transient (fun _ => True) (assert condition panic : Outcome ε Unit) := by
  cases condition with
  | false => trivial
  | true => trivial

theorem Allows.error {holds : α → Prop} {error : ε} {outcome : Outcome ε α}
    (allows : Allows transient holds outcome) (failed : outcome = .error (.error error)) :
    transient error = true := by
  rw [failed] at allows
  exact allows

/-- A fold that is allowed to fail only transiently, since another one from a
related state does not fail. -/
theorem foldlM_allows {σ : Type} {related : σ → σ → Prop} {step : σ → α → Outcome ε σ}
    (each : ∀ state other item next, related state other → step other item = .ok next →
      Allows transient (fun reached => related reached next) (step state item))
    {items : List α} {state other next : σ} (holds : related state other)
    (folded : items.foldlM step other = .ok next) :
    Allows transient (fun reached => related reached next) (items.foldlM step state) := by
  induction items generalizing state other with
  | nil =>
      cases folded
      exact holds
  | cons item rest ih =>
      rw [List.foldlM_cons, bind_eq_ok] at folded
      obtain ⟨middle, first, following⟩ := folded
      rw [List.foldlM_cons]
      exact (each state other item middle holds first).bind fun _ _ reached => ih reached following

end Allows

/-! ### Earlier states -/

/-- The tables a transaction is judged by, at an earlier state: they hold less,
or contracts that are gone later. -/
structure Precedes (ledger later : Ledger curve) : Prop where
  noteNonce : ∀ nonce, ledger.noteNonce.contains nonce = true →
    later.noteNonce.contains nonce = true
  spentOutputIndex : ∀ index, ledger.spentOutputIndex.contains index = true →
    later.spentOutputIndex.contains index = true
  blindedNonce : ∀ nonce, ledger.blindedNonce.contains nonce = true →
    later.blindedNonce.contains nonce = true
  output : ∀ index tracked, ledger.output.get? index = some tracked →
    later.output.get? index = some tracked
  outgoing : ∀ outpoint contract other, ledger.outgoingContract.get? outpoint = some contract →
    later.outgoingContract.get? outpoint = some other → contract = other
  incoming : ∀ outpoint contract other, ledger.incomingContract.get? outpoint = some contract →
    later.incomingContract.get? outpoint = some other → contract = other

section Step

variable {ledger later next after : Ledger curve}

theorem not_contains_of {α β : Type} [LinearOrder α] {table larger : SortedMap α β} {key : α}
    (grows : table.contains key = true → larger.contains key = true)
    (absent : larger.contains key = false) : table.contains key = false := by
  rw [← Bool.not_eq_true]
  intro present
  rw [grows present] at absent
  cases absent

theorem contains_insert_grows {α β : Type} [LinearOrder α] {table larger : SortedMap α β}
    (grows : ∀ key, table.contains key = true → larger.contains key = true) (inserted : α)
    (value other : β) (key : α) (present : (table.insert inserted value).contains key = true) :
    (larger.insert inserted other).contains key = true := by
  rw [SortedMap.contains_insert] at present ⊢
  exact present.imp id (grows key)

/-! ### Functions that only panic -/

variable {ε : Type} {transient : ε → Bool}

theorem scriptPubkey_allows (tweak : Hash) :
    Allows transient (fun _ => True) (Onchain.scriptPubkey mint tweak : Outcome ε Script) :=
  Allows.following
    ((allows_expect _ _).bind fun _ _ _ => allows_expect _ _) fun _ _ _ => trivial

theorem consensusBlockHeight_allows :
    Allows transient (fun _ => True) (consensusBlockHeight mint ledger : Outcome ε Nat) :=
  (allows_assert _ _).bind fun _ _ _ => trivial

theorem consensusFee_allows (txVbytes : Nat) : Allows transient (fun _ => True)
    (Onchain.consensusFee mint ledger txVbytes : Outcome ε (Option Nat)) := by
  refine (allows_assert _ _).bind fun _ _ _ => ?_
  refine Allows.following
    ((allows_assert _ _).bind fun _ _ _ => trivial) fun rate _ _ => ?_
  cases rate with
  | none => trivial
  | some rate => exact (allows_expect _ _).bind fun _ _ _ => trivial

theorem advanceWallet_allows (wallet : MintUtxo) (mintTx : MintTx curve) (changeValue : Nat) :
    Allows transient (fun _ => True)
      (Onchain.advanceWallet mint ledger wallet mintTx changeValue : Outcome ε _) :=
  consensusBlockHeight_allows.bind fun _ _ _ => trivial

/-! ### Inputs -/

theorem Ecash.processInput_allows (precedes : Precedes ledger later) {input : EcashInput}
    {result : Nat × XOnlyPublicKey}
    (processed : Ecash.processInput mint later input = .ok (result, after)) :
    Allows (fun error => (TxError.input (.ecash error)).transient)
      (fun reached => reached.1 = result) (Ecash.processInput mint ledger input) := by
  obtain ⟨amount, pk⟩ := result
  obtain ⟨fresh, ⟨key, found, signed⟩, rfl, rfl, _⟩ := Ecash.processInput_ok processed
  have absent := not_contains_of (precedes.noteNonce _) fresh
  refine (allows_ensure (Or.inl (by rw [absent]; rfl))).bind fun _ _ _ => ?_
  refine (allows_some found).bind fun other _ isKey => ?_
  subst isKey
  exact (allows_ensure (Or.inl signed)).bind fun _ _ _ => rfl

theorem Onchain.moveWallet_allows {tracked : TrackedOutput} {input : OnchainInput}
    {outputValue : Nat} : Allows (fun error => (TxError.input (.onchain error)).transient)
      (fun _ => True) (Onchain.moveWallet mint ledger tracked input outputValue) := by
  unfold Onchain.moveWallet
  split
  · refine (allows_okOr rfl).bind fun _ _ _ => ?_
    refine (scriptPubkey_allows _).bind fun _ _ _ => ?_
    refine (advanceWallet_allows _ _ _).bind fun _ _ _ => ?_
    exact (allows_ensure (Or.inr rfl)).bind fun _ _ _ => trivial
  · trivial

theorem Onchain.processInput_allows (precedes : Precedes ledger later) {input : OnchainInput}
    {result : Nat × XOnlyPublicKey}
    (processed : Onchain.processInput mint later input = .ok (result, after)) :
    Allows (fun error => (TxError.input (.onchain error)).transient)
      (fun reached => reached.1 = result) (Onchain.processInput mint ledger input) := by
  obtain ⟨amount, pk⟩ := result
  obtain ⟨tracked, outputValue, checked, rfl, rfl, _⟩ := Onchain.processInput_ok processed
  have absent := not_contains_of (precedes.spentOutputIndex _) checked.unspent
  refine (allows_ensure (Or.inl (by rw [absent]; rfl))).bind fun _ _ _ => ?_
  refine (allows_found tracked (fun other isOther => ?_) rfl).bind
    fun other _ isTracked => ?_
  · exact Option.some.inj ((precedes.output _ _ isOther).symm.trans checked.known)
  subst isTracked
  refine (allows_eq checked.tweak).bind fun script _ isScript => ?_
  refine (allows_ensure (Or.inl (decide_eq_true isScript.symm))).bind fun _ _ _ => ?_
  refine (consensusFee_allows _).bind fun _ _ _ => ?_
  refine (allows_okOr rfl).bind fun _ _ _ => ?_
  refine (allows_ensure (Or.inr rfl)).bind fun _ _ _ => ?_
  refine (allows_some (checkedSub_eq_some.mpr checked.value)).bind fun value _ isValue => ?_
  subst isValue
  refine Onchain.moveWallet_allows.bind fun _ _ _ => ?_
  refine (allows_some (checkedMul_eq_some.mpr ⟨rfl, checked.below⟩)).bind
    fun amount _ isAmount => ?_
  subst isAmount
  rfl

theorem Lightning.processWitness_allows {outpoint : OutPoint} {contract : OutgoingContract}
    {witness : OutgoingWitness} {pk : XOnlyPublicKey}
    (witnessed : Lightning.processWitness mint later outpoint contract witness = .ok (pk, after)) :
    Allows (fun error => (TxError.input (.lightning error)).transient)
      (fun reached => reached.1 = pk)
      (Lightning.processWitness mint ledger outpoint contract witness) := by
  cases witness with
  | claim preimage =>
      simp only [Lightning.processWitness, bind_eq_ok, ensure_eq_ok] at witnessed
      obtain ⟨_, verified, result⟩ := witnessed
      cases result
      exact (allows_ensure (Or.inl verified)).bind fun _ _ _ => rfl
  | cancel signature =>
      simp only [Lightning.processWitness, bind_eq_ok, ensure_eq_ok] at witnessed
      obtain ⟨_, verified, result⟩ := witnessed
      cases result
      exact (allows_ensure (Or.inl verified)).bind fun _ _ _ => rfl

theorem Lightning.processInput_allows (precedes : Precedes ledger later) {input : LightningInput}
    {result : Nat × XOnlyPublicKey}
    (processed : Lightning.processInput mint later input = .ok (result, after)) :
    Allows (fun error => (TxError.input (.lightning error)).transient)
      (fun reached => reached.1 = result) (Lightning.processInput mint ledger input) := by
  obtain ⟨amount, pk⟩ := result
  cases input with
  | outgoing outpoint witness =>
      simp only [Lightning.processInput, bind_eq_ok, okOr_eq_ok] at processed
      obtain ⟨contract, found, ⟨key, kept⟩, witnessed, sum, added, result⟩ := processed
      cases result
      refine (allows_found contract (fun other isOther => ?_) rfl).bind
        fun other _ isContract => ?_
      · exact precedes.outgoing _ _ _ isOther found
      subst isContract
      refine (Lightning.processWitness_allows witnessed).bind fun reached _ isKey => ?_
      obtain ⟨_, _⟩ := reached
      cases isKey
      refine (allows_some added).bind fun _ _ isSum => ?_
      rw [isSum]
      rfl
  | incoming outpoint =>
      simp only [Lightning.processInput, bind_eq_ok, okOr_eq_ok, expect_eq_ok] at processed
      obtain ⟨contract, found, index, indexed, claim, claimed, result⟩ := processed
      cases result
      refine (allows_found contract (fun other isOther => ?_) rfl).bind
        fun other _ isContract => ?_
      · exact precedes.incoming _ _ _ isOther found
      subst isContract
      refine (allows_expect _ _).bind fun _ _ _ => ?_
      refine (allows_some claimed).bind fun _ _ isClaim => ?_
      rw [isClaim]
      rfl

theorem processInput_allows (precedes : Precedes ledger later) {input : Input}
    {result : Nat × XOnlyPublicKey}
    (processed : processInput mint later input = .ok (result, after)) :
    Allows (fun error => (TxError.input error).transient) (fun reached => reached.1 = result)
      (processInput mint ledger input) := by
  cases input with
  | ecash input =>
      exact Allows.map (fun error => (TxError.input error).transient)
        (Ecash.processInput_allows precedes (mapError_eq_ok.mp processed))
  | onchain input =>
      exact Allows.map (fun error => (TxError.input error).transient)
        (Onchain.processInput_allows precedes (mapError_eq_ok.mp processed))
  | lightning input =>
      exact Allows.map (fun error => (TxError.input error).transient)
        (Lightning.processInput_allows precedes (mapError_eq_ok.mp processed))

/-! ### Outputs -/

theorem Ecash.processOutput_allows (precedes : Precedes ledger later) {output : EcashOutput}
    {outpoint : OutPoint} {amount : Nat}
    (processed : Ecash.processOutput server later output outpoint = .ok (amount, after)) :
    Allows (fun error => (TxError.output (.ecash error)).transient)
      (fun reached => reached.1 = amount) (Ecash.processOutput server ledger output outpoint) := by
  obtain ⟨fresh, ⟨key, found, _⟩, rfl⟩ := Ecash.processOutput_ok processed
  have absent := not_contains_of (precedes.blindedNonce _) fresh
  refine (allows_ensure (Or.inl (by rw [absent]; rfl))).bind fun _ _ _ => ?_
  exact (allows_some found).bind fun _ _ _ => rfl

theorem Onchain.processOutput_allows {output : OnchainOutput} {outpoint : OutPoint} {amount : Nat}
    (processed : Onchain.processOutput mint later output outpoint = .ok (amount, after)) :
    Allows (fun error => (TxError.output (.onchain error)).transient)
      (fun reached => reached.1 = amount)
      (Onchain.processOutput mint ledger output outpoint) := by
  obtain ⟨wallet, changeValue, _, _, checked, rfl, _⟩ := Onchain.processOutput_ok processed
  refine (allows_ensure (Or.inl (decide_eq_true checked.dust))).bind fun _ _ _ => ?_
  refine (allows_okOr rfl).bind fun _ _ _ => ?_
  refine (consensusFee_allows _).bind fun _ _ _ => ?_
  refine (allows_okOr rfl).bind fun _ _ _ => ?_
  refine (allows_ensure (Or.inr rfl)).bind fun _ _ _ => ?_
  have below : output.value + output.fee < U64_BOUND := by
    have scaled := checked.below
    omega
  refine (allows_some (checkedAdd_eq_some.mpr ⟨rfl, below⟩)).bind fun _ _ isValue => ?_
  subst isValue
  refine (allows_okOr rfl).bind fun _ _ _ => ?_
  refine (allows_ensure (Or.inr rfl)).bind fun _ _ _ => ?_
  refine (scriptPubkey_allows _).bind fun _ _ _ => ?_
  refine (advanceWallet_allows _ _ _).bind fun _ _ _ => ?_
  refine Allows.following
    ((allows_ensure (Or.inr rfl)).bind fun _ _ _ => trivial) fun _ _ _ => ?_
  refine (allows_some (checkedMul_eq_some.mpr ⟨rfl, checked.below⟩)).bind fun _ _ isAmount => ?_
  exact isAmount

theorem Lightning.processOutput_allows {output : LightningOutput} {outpoint : OutPoint}
    {amount : Nat}
    (processed : Lightning.processOutput mint later outpoint output = .ok (amount, after)) :
    Allows (fun error => (TxError.output (.lightning error)).transient)
      (fun reached => reached.1 = amount)
      (Lightning.processOutput mint ledger outpoint output) := by
  cases output with
  | outgoing contract =>
      simp only [Lightning.processOutput, bind_eq_ok, okOr_eq_ok] at processed
      obtain ⟨sum, added, result⟩ := processed
      cases result
      exact (allows_some added).bind fun _ _ isSum => isSum
  | incoming contract =>
      simp only [Lightning.processOutput, bind_eq_ok, okOr_eq_ok] at processed
      obtain ⟨claim, claimed, result⟩ := processed
      cases result
      exact (allows_some claimed).bind fun _ _ isClaim => isClaim

theorem processOutput_allows (precedes : Precedes ledger later) {output : Output}
    {outpoint : OutPoint} {amount : Nat}
    (processed : processOutput server later outpoint output = .ok (amount, after)) :
    Allows (fun error => (TxError.output error).transient) (fun reached => reached.1 = amount)
      (processOutput server ledger outpoint output) := by
  cases output with
  | ecash output =>
      exact Allows.map (fun error => (TxError.output error).transient)
        (Ecash.processOutput_allows precedes (mapError_eq_ok.mp processed))
  | onchain output =>
      exact Allows.map (fun error => (TxError.output error).transient)
        (Onchain.processOutput_allows (mapError_eq_ok.mp processed))
  | lightning output =>
      exact Allows.map (fun error => (TxError.output error).transient)
        (Lightning.processOutput_allows (mapError_eq_ok.mp processed))

/-! ### Both states go on -/

theorem erase_agrees {α β : Type} [LinearOrder α] {table later : SortedMap α β}
    (agrees : ∀ key value other, table.get? key = some value → later.get? key = some other →
      value = other) (gone key : α) (value other : β)
    (found : (table.erase gone).get? key = some value)
    (foundLater : (later.erase gone).get? key = some other) : value = other := by
  rw [SortedMap.get?_erase] at found foundLater
  split at found
  · cases found
  · rename_i different
    rw [if_neg different] at foundLater
    exact agrees key value other found foundLater

theorem insert_agrees {α β : Type} [LinearOrder α] {table later : SortedMap α β}
    (agrees : ∀ key value other, table.get? key = some value → later.get? key = some other →
      value = other) (added : α) (content : β) (key : α) (value other : β)
    (found : (table.insert added content).get? key = some value)
    (foundLater : (later.insert added content).get? key = some other) : value = other := by
  rw [SortedMap.get?_insert] at found foundLater
  split at found
  · rename_i same
    rw [if_pos same] at foundLater
    exact Option.some.inj (found.symm.trans foundLater)
  · rename_i different
    rw [if_neg different] at foundLater
    exact agrees key value other found foundLater

theorem processInput_precedes (precedes : Precedes ledger later) {input : Input}
    {result other : Nat × XOnlyPublicKey}
    (first : processInput mint ledger input = .ok (result, next))
    (second : processInput mint later input = .ok (other, after)) : Precedes next after := by
  obtain ⟨amount, pk⟩ := result
  obtain ⟨amount', pk'⟩ := other
  cases input with
  | ecash input =>
      obtain ⟨_, _, _, _, rfl⟩ := Ecash.processInput_ok (mapError_eq_ok.mp first)
      obtain ⟨_, _, _, _, rfl⟩ := Ecash.processInput_ok (mapError_eq_ok.mp second)
      exact { precedes with
        noteNonce := contains_insert_grows precedes.noteNonce input.note.nonce _ _ }
  | onchain input =>
      have grown := contains_insert_grows precedes.spentOutputIndex input.outputIndex ⟨⟩ ⟨⟩
      obtain ⟨_, _, _, _, _, ⟨_, rfl⟩ | ⟨_, _, _, _, _, rfl⟩⟩ :=
        Onchain.processInput_ok (mapError_eq_ok.mp first)
      · obtain ⟨_, _, _, _, _, ⟨_, rfl⟩ | ⟨_, _, _, _, _, rfl⟩⟩ :=
          Onchain.processInput_ok (mapError_eq_ok.mp second)
        · exact { precedes with spentOutputIndex := grown }
        · exact { precedes with spentOutputIndex := grown }
      · obtain ⟨_, _, _, _, _, ⟨_, rfl⟩ | ⟨_, _, _, _, _, rfl⟩⟩ :=
          Onchain.processInput_ok (mapError_eq_ok.mp second)
        · exact { precedes with spentOutputIndex := grown }
        · exact { precedes with spentOutputIndex := grown }
  | lightning input =>
      cases input with
      | outgoing outpoint witness =>
          obtain ⟨_, _, _, _, _, _, rfl⟩ :=
            Lightning.processInput_outgoing_ok (mapError_eq_ok.mp first)
          obtain ⟨_, _, _, _, _, _, rfl⟩ :=
            Lightning.processInput_outgoing_ok (mapError_eq_ok.mp second)
          exact { precedes with outgoing := erase_agrees precedes.outgoing outpoint }
      | incoming outpoint =>
          obtain ⟨_, _, _, _, _, _, rfl⟩ :=
            Lightning.processInput_incoming_ok (mapError_eq_ok.mp first)
          obtain ⟨_, _, _, _, _, _, rfl⟩ :=
            Lightning.processInput_incoming_ok (mapError_eq_ok.mp second)
          exact { precedes with incoming := erase_agrees precedes.incoming outpoint }

theorem processOutput_precedes (precedes : Precedes ledger later) {output : Output}
    {outpoint : OutPoint} {amount other : Nat}
    (first : processOutput server ledger outpoint output = .ok (amount, next))
    (second : processOutput server later outpoint output = .ok (other, after)) :
    Precedes next after := by
  cases output with
  | ecash output =>
      obtain ⟨_, ⟨_, _, rfl⟩, _⟩ := Ecash.processOutput_ok (mapError_eq_ok.mp first)
      obtain ⟨_, ⟨_, _, rfl⟩, _⟩ := Ecash.processOutput_ok (mapError_eq_ok.mp second)
      exact { precedes with
        blindedNonce := contains_insert_grows precedes.blindedNonce output.nonce _ _ }
  | onchain output =>
      obtain ⟨_, _, _, _, _, _, _, rfl⟩ := Onchain.processOutput_ok (mapError_eq_ok.mp first)
      obtain ⟨_, _, _, _, _, _, _, rfl⟩ := Onchain.processOutput_ok (mapError_eq_ok.mp second)
      exact { precedes with }
  | lightning output =>
      cases output with
      | outgoing contract =>
          obtain ⟨_, _, rfl⟩ := Lightning.processOutput_outgoing_ok (mapError_eq_ok.mp first)
          obtain ⟨_, _, rfl⟩ := Lightning.processOutput_outgoing_ok (mapError_eq_ok.mp second)
          exact { precedes with outgoing := insert_agrees precedes.outgoing outpoint contract }
      | incoming contract =>
          obtain ⟨_, rfl⟩ := Lightning.processOutput_incoming_ok (mapError_eq_ok.mp first)
          obtain ⟨_, rfl⟩ := Lightning.processOutput_incoming_ok (mapError_eq_ok.mp second)
          exact { precedes with incoming := insert_agrees precedes.incoming outpoint contract }

/-- The loops at the two states: the same keys and sums so far. -/
structure Abreast (progress other : Progress curve) : Prop where
  precedes : Precedes progress.ledger other.ledger
  verifier : progress.verifier = other.verifier
  publicKeys : progress.publicKeys = other.publicKeys

theorem inputStep_allows {progress other reached : Progress curve} {input : Input}
    (abreast : Abreast progress other) (stepped : inputStep mint other input = .ok reached) :
    Allows TxError.transient (fun next => Abreast next reached)
      (inputStep mint progress input) := by
  simp only [inputStep, bind_eq_ok, mapError_eq_ok] at stepped
  obtain ⟨⟨⟨amount, key⟩, ledger⟩, first, verifier, added, result⟩ := stepped
  cases result
  refine Allows.bind (Allows.map TxError.transient (processInput_allows abreast.precedes first))
    fun reached processed same => ?_
  obtain ⟨⟨_, _⟩, _⟩ := reached
  cases same
  have precedes := processInput_precedes abreast.precedes (mapError_eq_ok.mp processed) first
  rw [← abreast.verifier] at added
  refine (allows_eq added).bind fun _ _ isVerifier => ?_
  exact ⟨precedes, isVerifier, by rw [abreast.publicKeys]⟩

theorem outputStep_allows {txid : TransactionId} {progress other reached : Progress curve}
    {entry : Output × Nat} (abreast : Abreast progress other)
    (stepped : outputStep server txid other entry = .ok reached) :
    Allows TxError.transient (fun next => Abreast next reached)
      (outputStep server txid progress entry) := by
  simp only [outputStep, bind_eq_ok, mapError_eq_ok] at stepped
  obtain ⟨⟨amount, ledger⟩, first, verifier, added, result⟩ := stepped
  cases result
  refine Allows.bind (Allows.map TxError.transient (processOutput_allows abreast.precedes first))
    fun reached processed same => ?_
  obtain ⟨_, _⟩ := reached
  cases same
  have precedes := processOutput_precedes abreast.precedes (mapError_eq_ok.mp processed) first
  rw [← abreast.verifier] at added
  refine (allows_eq added).bind fun _ _ isVerifier => ?_
  exact ⟨precedes, isVerifier, abreast.publicKeys⟩

theorem validateSignatures_allows (tx : Transaction) (publicKeys : List XOnlyPublicKey) :
    Allows TxError.transient (fun _ => True) (validateSignatures mint tx publicKeys) := by
  refine (allows_ensure (Or.inr rfl)).bind fun _ _ _ => ?_
  generalize publicKeys.zip tx.signatures = entries
  induction entries with
  | nil => trivial
  | cons entry rest ih => exact (allows_ensure (Or.inr rfl)).bind fun _ _ _ => ih

theorem checkCounts_allows {tx copy : Transaction} (inputs : copy.inputs = tx.inputs)
    (outputs : copy.outputs = tx.outputs) (checked : checkCounts copy = .ok ()) :
    Allows TxError.transient (fun _ => True) (checkCounts tx) := by
  simp only [checkCounts, bind_eq_ok, ensure_eq_ok, inputs, outputs] at checked
  obtain ⟨_, someInput, _, someOutput, _, fewInputs, _, fewOutputs, _⟩ := checked
  refine (allows_ensure (Or.inl someInput)).bind fun _ _ _ => ?_
  refine (allows_ensure (Or.inl someOutput)).bind fun _ _ _ => ?_
  refine (allows_ensure (Or.inl fewInputs)).bind fun _ _ _ => ?_
  refine (allows_ensure (Or.inl fewOutputs)).bind fun _ _ _ => ?_
  exact allows_ensure (Or.inr rfl)

theorem processTx_allows (precedes : Precedes ledger later) {tx copy : Transaction}
    (inputs : copy.inputs = tx.inputs) (outputs : copy.outputs = tx.outputs)
    (accepted : processTx server later copy = .ok after) :
    Allows TxError.transient (fun _ => True) (processTx server ledger tx) := by
  have sameId : computeTxid server.toMintConfig copy = computeTxid server.toMintConfig tx := by
    unfold computeTxid
    rw [inputs, outputs]
  simp only [processTx, bind_eq_ok, inputs, outputs, sameId] at accepted
  obtain ⟨_, counts, spent, spends, _, _, issued, issues, _, funded, _⟩ := accepted
  refine (checkCounts_allows inputs outputs counts).bind fun _ _ _ => ?_
  refine (foldlM_allows (fun _ _ _ _ => inputStep_allows) ⟨precedes, rfl, rfl⟩ spends).bind
    fun progress _ abreast => ?_
  refine (validateSignatures_allows tx _).bind fun _ _ _ => ?_
  refine (foldlM_allows (fun _ _ _ _ => outputStep_allows) abreast issues).bind
    fun final _ abreast => ?_
  rw [← abreast.verifier] at funded
  exact (allows_eq funded).bind fun _ _ _ => trivial

end Step

/-! ### Later states -/

structure Recorded (ledger later : Ledger curve) : Prop where
  acceptedTxid : ∀ txid, ledger.acceptedTxid.contains txid = true →
    later.acceptedTxid.contains txid = true
  noteNonce : ∀ nonce, ledger.noteNonce.contains nonce = true →
    later.noteNonce.contains nonce = true
  spentOutputIndex : ∀ index, ledger.spentOutputIndex.contains index = true →
    later.spentOutputIndex.contains index = true
  blindedNonce : ∀ nonce, ledger.blindedNonce.contains nonce = true →
    later.blindedNonce.contains nonce = true

theorem Recorded.refl (ledger : Ledger curve) : Recorded ledger ledger :=
  ⟨fun _ => id, fun _ => id, fun _ => id, fun _ => id⟩

theorem Recorded.trans {ledger middle later : Ledger curve} (first : Recorded ledger middle)
    (second : Recorded middle later) : Recorded ledger later where
  acceptedTxid := fun txid before => second.acceptedTxid txid (first.acceptedTxid txid before)
  noteNonce := fun nonce before => second.noteNonce nonce (first.noteNonce nonce before)
  spentOutputIndex := fun index before =>
    second.spentOutputIndex index (first.spentOutputIndex index before)
  blindedNonce := fun nonce before => second.blindedNonce nonce (first.blindedNonce nonce before)

/-- What stays of a state in every later one: contracts are spent once. -/
structure Descends (ledger later : Ledger curve) : Prop extends Recorded ledger later where
  output : ∀ index tracked, ledger.output.get? index = some tracked →
    later.output.get? index = some tracked
  outgoing : ∀ outpoint contract, ledger.outgoingContract.get? outpoint = some contract →
    later.outgoingContract.get? outpoint = some contract ∨
      later.outgoingContract.get? outpoint = none
  incoming : ∀ outpoint contract, ledger.incomingContract.get? outpoint = some contract →
    later.incomingContract.get? outpoint = some contract ∨
      later.incomingContract.get? outpoint = none

theorem Descends.refl (ledger : Ledger curve) : Descends ledger ledger where
  toRecorded := Recorded.refl ledger
  output := fun _ _ => id
  outgoing := fun _ _ => Or.inl
  incoming := fun _ _ => Or.inl

theorem Descends.precedes {ledger later : Ledger curve} (descends : Descends ledger later) :
    Precedes ledger later := by
  refine ⟨descends.noteNonce, descends.spentOutputIndex, descends.blindedNonce, descends.output,
    ?_, ?_⟩
  · intro outpoint contract other found foundLater
    rcases descends.outgoing outpoint contract found with same | gone
    · exact Option.some.inj (same.symm.trans foundLater)
    · cases gone.symm.trans foundLater
  · intro outpoint contract other found foundLater
    rcases descends.incoming outpoint contract found with same | gone
    · exact Option.some.inj (same.symm.trans foundLater)
    · cases gone.symm.trans foundLater

section Later

variable {ledger middle after : Ledger curve} {history next final : History curve}

/-- A contract is there as it was, or gone. -/
def Releases (outpoint : OutPoint) (ledger after : Ledger curve) : Prop :=
  (after.outgoingContract.get? outpoint = ledger.outgoingContract.get? outpoint ∨
      after.outgoingContract.get? outpoint = none) ∧
    (after.incomingContract.get? outpoint = ledger.incomingContract.get? outpoint ∨
      after.incomingContract.get? outpoint = none)

theorem Releases.trans {outpoint : OutPoint} (first : Releases outpoint ledger middle)
    (second : Releases outpoint middle after) : Releases outpoint ledger after := by
  constructor
  · rcases second.1 with same | gone
    · rw [same]
      exact first.1
    · exact Or.inr gone
  · rcases second.2 with same | gone
    · rw [same]
      exact first.2
    · exact Or.inr gone

theorem erase_releases {α β : Type} [LinearOrder α] (table : SortedMap α β) (gone key : α) :
    (table.erase gone).get? key = table.get? key ∨ (table.erase gone).get? key = none := by
  rw [SortedMap.get?_erase]
  split
  · exact Or.inr rfl
  · exact Or.inl rfl

theorem processInput_releases {input : Input} {result : Nat × XOnlyPublicKey}
    (processed : processInput mint ledger input = .ok (result, after)) (outpoint : OutPoint) :
    Releases outpoint ledger after := by
  rcases (processInput_contracts processed).2 with ⟨_, _, _, _, outgoing, incoming⟩ |
    ⟨_, _, _, _, outgoing, incoming⟩ | ⟨_, outgoing, incoming⟩
  · rw [Releases, outgoing, incoming]
    exact ⟨erase_releases _ _ _, Or.inl rfl⟩
  · rw [Releases, outgoing, incoming]
    exact ⟨Or.inl rfl, erase_releases _ _ _⟩
  · rw [Releases, outgoing, incoming]
    exact ⟨Or.inl rfl, Or.inl rfl⟩

theorem processOutput_releases {output : Output} {outpoint own : OutPoint} {amount : Nat}
    (processed : processOutput server ledger own output = .ok (amount, after))
    (different : own ≠ outpoint) : Releases outpoint ledger after := by
  rcases (processOutput_contracts processed).2 with ⟨_, outgoing, incoming⟩ |
    ⟨_, outgoing, incoming⟩ | ⟨outgoing, incoming⟩
  · rw [Releases, outgoing, incoming, SortedMap.get?_insert_of_ne _ _ different]
    exact ⟨Or.inl rfl, Or.inl rfl⟩
  · rw [Releases, outgoing, incoming, SortedMap.get?_insert_of_ne _ _ different]
    exact ⟨Or.inl rfl, Or.inl rfl⟩
  · rw [Releases, outgoing, incoming]
    exact ⟨Or.inl rfl, Or.inl rfl⟩

theorem OutputsProcessed.releases {txid : TransactionId} {entries : List (Output × Nat)}
    {amounts : List Nat} (processed : OutputsProcessed server txid ledger entries amounts after)
    {outpoint : OutPoint} (different : outpoint.txid ≠ txid) : Releases outpoint ledger after := by
  induction processed with
  | nil => exact ⟨Or.inl rfl, Or.inl rfl⟩
  | cons first _ ih =>
      refine (processOutput_releases first ?_).trans ih
      rintro rfl
      exact different rfl

theorem processTxItem_releases {tx : Transaction}
    (processed : processTxItem server ledger tx = .ok after) {outpoint : OutPoint}
    (known : ledger.acceptedTxid.contains outpoint.txid = true) :
    Releases outpoint ledger after := by
  obtain ⟨fresh, judged, judgedTx, rfl⟩ := processTxItem_ok processed
  obtain ⟨_, middle, _, accepted⟩ := processTx_ok judgedTx
  have different : outpoint.txid ≠ computeTxid server.toMintConfig tx := by
    intro same
    rw [← same, known] at fresh
    cases fresh
  have spent : Releases outpoint ledger middle :=
    accepted.inputs.preserves
      (fun _ _ _ _ step so => so.trans (processInput_releases step outpoint))
      ⟨Or.inl rfl, Or.inl rfl⟩
  exact spent.trans (accepted.outputs.releases different)

theorem processInput_recorded {input : Input} {result : Nat × XOnlyPublicKey}
    (processed : processInput mint ledger input = .ok (result, after)) :
    Recorded ledger after := by
  obtain ⟨amount, pk⟩ := result
  cases input with
  | ecash input =>
      obtain ⟨_, _, _, _, rfl⟩ := Ecash.processInput_ok (mapError_eq_ok.mp processed)
      exact { Recorded.refl ledger with
        noteNonce := fun _ before => (SortedMap.contains_insert _ _ _ _).mpr (Or.inr before) }
  | onchain input =>
      have grown : ∀ index, ledger.spentOutputIndex.contains index = true →
          (ledger.spentOutputIndex.insert input.outputIndex ⟨⟩).contains index = true :=
        fun _ before => (SortedMap.contains_insert _ _ _ _).mpr (Or.inr before)
      obtain ⟨_, _, _, _, _, ⟨_, rfl⟩ | ⟨_, _, _, _, _, rfl⟩⟩ :=
        Onchain.processInput_ok (mapError_eq_ok.mp processed)
      · exact { Recorded.refl ledger with spentOutputIndex := grown }
      · exact { Recorded.refl ledger with spentOutputIndex := grown }
  | lightning input =>
      cases input with
      | outgoing outpoint witness =>
          obtain ⟨_, _, _, _, _, _, rfl⟩ :=
            Lightning.processInput_outgoing_ok (mapError_eq_ok.mp processed)
          exact { Recorded.refl ledger with }
      | incoming outpoint =>
          obtain ⟨_, _, _, _, _, _, rfl⟩ :=
            Lightning.processInput_incoming_ok (mapError_eq_ok.mp processed)
          exact { Recorded.refl ledger with }

theorem processOutput_recorded {output : Output} {outpoint : OutPoint} {amount : Nat}
    (processed : processOutput server ledger outpoint output = .ok (amount, after)) :
    Recorded ledger after := by
  cases output with
  | ecash output =>
      obtain ⟨_, ⟨_, _, rfl⟩, _⟩ := Ecash.processOutput_ok (mapError_eq_ok.mp processed)
      exact { Recorded.refl ledger with
        blindedNonce := fun _ before => (SortedMap.contains_insert _ _ _ _).mpr (Or.inr before) }
  | onchain output =>
      obtain ⟨_, _, _, _, _, _, _, rfl⟩ := Onchain.processOutput_ok (mapError_eq_ok.mp processed)
      exact { Recorded.refl ledger with }
  | lightning output =>
      cases output with
      | outgoing contract =>
          obtain ⟨_, _, rfl⟩ := Lightning.processOutput_outgoing_ok (mapError_eq_ok.mp processed)
          exact { Recorded.refl ledger with }
      | incoming contract =>
          obtain ⟨_, rfl⟩ := Lightning.processOutput_incoming_ok (mapError_eq_ok.mp processed)
          exact { Recorded.refl ledger with }

theorem processTxItem_recorded {tx : Transaction}
    (processed : processTxItem server ledger tx = .ok after) : Recorded ledger after := by
  obtain ⟨_, judged, judgedTx, rfl⟩ := processTxItem_ok processed
  have before : Recorded ledger judged :=
    processTx_preserves judgedTx (fun _ _ _ _ step so => so.trans (processInput_recorded step))
      (fun _ _ _ _ _ step so => so.trans (processOutput_recorded step)) (Recorded.refl ledger)
  exact { before with
    acceptedTxid := fun txid known =>
      (SortedMap.contains_insert _ _ _ _).mpr (Or.inr (before.acceptedTxid txid known)) }

/-- The states of a run, with what they owe to the one it starts from. -/
structure Downstream (start : Ledger curve) (history : History curve) : Prop where
  descends : Descends start history.ledger
  owned : ContractsOwned 0 0 history.ledger
  dense : history.ledger.output.Dense

theorem output_kept {table later : SortedMap Nat TrackedOutput} (dense : table.Dense)
    (laterDense : later.Dense) (grown : table.values <+: later.values) {index : Nat}
    {tracked : TrackedOutput} (found : table.get? index = some tracked) :
    later.get? index = some tracked := by
  rw [dense.get?] at found
  obtain ⟨new, values⟩ := grown
  rw [laterDense.get?, ← values,
    List.getElem?_append_left (List.getElem?_eq_some_iff.mp found).1]
  exact found

theorem Downstream.step {start : Ledger curve} {entry : NodeId × ConsensusItem curve}
    (known : ContractsOwned 0 0 start) (holds : Downstream start history)
    (stepped : history.step server entry = some next) : Downstream start next := by
  obtain ⟨dense, grown⟩ := History.step_outputs stepped holds.dense
  have output : ∀ index tracked, start.output.get? index = some tracked →
      next.ledger.output.get? index = some tracked := by
    intro index tracked found
    exact output_kept holds.dense dense grown (holds.descends.output index tracked found)
  -- contracts of the start stand under transactions accepted by then
  have funded : ∀ outpoint, Funded start outpoint →
      history.ledger.acceptedTxid.contains outpoint.txid = true := by
    intro outpoint held
    rcases known.owned outpoint held with accepted | ⟨_, below⟩
    · exact holds.descends.acceptedTxid _ accepted
    · exact absurd below (Nat.not_lt_zero _)
  have carry : ∀ releases : ∀ outpoint,
      history.ledger.acceptedTxid.contains outpoint.txid = true →
        Releases outpoint history.ledger next.ledger,
      Recorded history.ledger next.ledger → Descends start next.ledger := by
    intro releases recorded
    refine ⟨holds.descends.toRecorded.trans recorded, output, ?_, ?_⟩
    · intro outpoint contract found
      rcases (releases outpoint (funded outpoint (Or.inl ⟨contract, found⟩))).1 with same | gone
      · rw [same]
        exact holds.descends.outgoing outpoint contract found
      · exact Or.inr gone
    · intro outpoint contract found
      rcases (releases outpoint (funded outpoint (Or.inr ⟨contract, found⟩))).2 with same | gone
      · rw [same]
        exact holds.descends.incoming outpoint contract found
      · exact Or.inr gone
  rcases History.step_cases stepped with rfl | ⟨tx, _, processed, _⟩ | ⟨processed, notTx, _⟩
  · exact holds
  · exact ⟨carry (fun _ => processTxItem_releases processed) (processTxItem_recorded processed),
      processTxItem_owned processed holds.owned, dense⟩
  · have same := processConsensusItem_sameAccounts processed notTx
    refine ⟨carry ?_ ?_, processConsensusItem_owned processed notTx holds.owned, dense⟩
    · intro outpoint _
      rw [Releases, same.outgoingContract, same.incomingContract]
      exact ⟨Or.inl rfl, Or.inl rfl⟩
    · constructor
      · rw [same.acceptedTxid]
        exact fun _ => id
      · rw [same.noteNonce]
        exact fun _ => id
      · rw [same.spentOutputIndex]
        exact fun _ => id
      · rw [same.blindedNonce]
        exact fun _ => id

theorem downstream {before items : List (NodeId × ConsensusItem curve)}
    (reached : History.run server History.start before = some history)
    (ran : History.run server history items = some final) :
    Downstream history.ledger final := by
  have start : ContractsOwned 0 0 history.ledger ∧ history.ledger.output.Dense := by
    refine History.run_preserves
      (motive := fun history => ContractsOwned 0 0 history.ledger ∧ history.ledger.output.Dense)
      reached ?_ ⟨empty_owned, rfl⟩
    intro history next entry stepped holds
    have step := Downstream.step holds.1 ⟨Descends.refl _, holds.1, holds.2⟩ stepped
    exact ⟨step.owned, step.dense⟩
  exact History.run_preserves ran
    (fun _ _ _ stepped holds => Downstream.step start.1 holds stepped)
    ⟨Descends.refl _, start.1, start.2⟩

end Later

/-! ### Final rejections -/

end Consensus

open Consensus Tss

/-- No later copy of a transaction that is rejected so is accepted, whatever
its signatures. -/
def TxError.Final (error : TxError) : Prop :=
  ∀ (curve : Curve) (server : Server curve) (before items : List (NodeId × ConsensusItem curve))
    (history final : History curve) (tx copy : Transaction),
    History.run server History.start before = some history →
    processTxItem server history.ledger tx = .error (.error (.tx error)) →
    History.run server history items = some final →
    copy.inputs = tx.inputs → copy.outputs = tx.outputs →
    ∀ after, processTxItem server final.ledger copy ≠ .ok after

namespace Consensus

variable {curve : Curve} {server : Server curve}

theorem processTxItem_error {ledger : Ledger curve} {tx : Transaction} {error : TxError}
    (rejected : processTxItem server ledger tx = .error (.error (.tx error))) :
    processTx server ledger tx = .error (.error error) := by
  cases accepted : ledger.acceptedTxid.contains (computeTxid server.toMintConfig tx) with
  | true =>
      simp only [processTxItem, accepted] at rejected
      cases rejected
  | false =>
      simp only [processTxItem, accepted] at rejected
      change (mapError ItemError.tx (processTx server ledger tx) >>= _) = _ at rejected
      cases judged : processTx server ledger tx with
      | ok after =>
          rw [judged] at rejected
          cases rejected
      | error fault =>
          rw [judged] at rejected
          cases fault with
          | error other =>
              cases rejected
              rfl
          | panic panic => cases rejected

theorem final_of_not_transient {error : TxError} (lasting : error.transient = false) :
    error.Final := by
  intro curve server before items history final tx copy reached rejected ran inputs outputs after
    accepted
  obtain ⟨_, judged, judgedTx, _⟩ := processTxItem_ok accepted
  have allows := processTx_allows (downstream reached ran).descends.precedes inputs outputs judgedTx
  rw [allows.error (processTxItem_error rejected)] at lasting
  cases lasting

/-- The transaction is rejected with the error after the first items, and a copy
is accepted after the others. -/
def reversed (server : Server scalarCurve)
    (before items : List (NodeId × ConsensusItem scalarCurve)) (tx copy : Transaction)
    (error : TxError) : Bool :=
  match History.run server History.start before with
  | none => false
  | some history =>
      match processTxItem server history.ledger tx, History.run server history items with
      | .error (.error (.tx found)), some final =>
          found = error && (processTxItem server final.ledger copy).isOk
      | _, _ => false

theorem not_final_of_reversed (server : Server scalarCurve)
    (before items : List (NodeId × ConsensusItem scalarCurve)) (tx copy : Transaction)
    {error : TxError} (inputs : copy.inputs = tx.inputs) (outputs : copy.outputs = tx.outputs)
    (isReversed : reversed server before items tx copy error = true) : ¬ error.Final := by
  intro lasting
  unfold reversed at isReversed
  split at isReversed
  · cases isReversed
  · rename_i history reached
    split at isReversed
    · rename_i found final rejected ran
      rw [Bool.and_eq_true, decide_eq_true_eq] at isReversed
      obtain ⟨rfl, accepted⟩ := isReversed
      cases judged : processTxItem server final.ledger copy with
      | ok after =>
          exact lasting scalarCurve server before items history final tx copy reached rejected ran
            inputs outputs after judged
      | error fault =>
          rw [judged] at accepted
          cases accepted
    · cases isReversed

/-! ### Rejections that are taken back -/

def samplePayment (signatures : List Signature) : Transaction :=
  { inputs := [.ecash { note := { denomination := 20, nonce := 1, signature := 0 } }]
    outputs := [.ecash { denomination := 10, nonce := 1 }]
    signatures }

/-- Only the signature zero verifies. -/
def sampleStrict : Server scalarCurve :=
  { sampleServer with
    verifySchnorr := fun signature _ _ => signature = 0
    pks_nodes := sample_pks_nodes
    tbsAggPks_denominations := sample_denominations }

def sampleDeposits : List (NodeId × ConsensusItem scalarCurve) :=
  sampleVotes (.blockHeight 1) ++ sampleVotes (.onchain (.block
    { height := 1
      txs :=
        [{ txid := 7
           outputs :=
             (List.range 3).map fun vout => (vout, { value := 50000, scriptPubkey := 6 }) }] }))

def sampleRates (rate : Option Nat) : List (NodeId × ConsensusItem scalarCurve) :=
  sampleVotes (.onchain (.feerate rate))

/-- The first deposit is the wallet. -/
def sampleHeld : List (NodeId × ConsensusItem scalarCurve) :=
  sampleDeposits ++ sampleRates (some 1000) ++ [(0, .tx sampleClaim)]

def sampleSwept : List (NodeId × ConsensusItem scalarCurve) :=
  sampleHeld ++ [(0, .tx sampleSweep)]

/-- The nodes enter their nonces and then their shares. -/
def sampleCompleted : List (NodeId × ConsensusItem scalarCurve) :=
  [0, 1, 2, 0, 1, 2].foldl sampleProposal sampleSwept

def sampleThird : Transaction :=
  { inputs := [.onchain { outputIndex := 2, tweak := 5, fee := 10000 }]
    outputs := (List.range 3).map fun index => .ecash { denomination := 20, nonce := 10 + index }
    signatures := [0] }

def sampleWithdrawal (value fee : Nat) : Transaction :=
  { inputs := [.ecash { note := { denomination := 30, nonce := 1, signature := 0 } }]
    outputs :=
      .onchain { destination := .p2pkh 0, value, fee } ::
        (List.range 3).map fun index => .ecash { denomination := 20, nonce := 20 + index }
    signatures := [0] }

def sampleContractTx : Transaction :=
  { inputs := [.ecash { note := { denomination := 30, nonce := 1, signature := 0 } }]
    outputs :=
      [.lightning (.incoming { amount := 5000, fee := 1000, claimPk := 9, ephemeralPk := 4 }),
        .ecash { denomination := 10, nonce := 30 }]
    signatures := [0] }

def sampleClaimTx : Transaction :=
  { inputs := [.lightning (.incoming { txid := 2002, outIdx := 0 })]
    outputs := [.ecash { denomination := 10, nonce := 31 }]
    signatures := [0] }

theorem signatures_not_final :
    ¬ TxError.invalidWitnessLength.Final ∧ ¬ TxError.invalidSignature.Final :=
  ⟨not_final_of_reversed sampleServer [] [] (samplePayment []) (samplePayment [0]) rfl rfl
      (by decide +kernel),
    not_final_of_reversed sampleStrict [] [] (samplePayment [1]) (samplePayment [0]) rfl rfl
      (by decide +kernel)⟩

theorem unknownContract_not_final :
    ¬ (TxError.input (.lightning .unknownContract)).Final :=
  not_final_of_reversed sampleServer [] [(0, .tx sampleContractTx)] sampleClaimTx sampleClaimTx
    rfl rfl (by decide +kernel)

theorem onchainInput_not_final {error : OnchainInputError}
    (transient : (TxError.input (.onchain error)).transient = true)
    (different : error ≠ .arithmeticOverflow) : ¬ (TxError.input (.onchain error)).Final := by
  cases error with
  | outputAlreadySpent => cases transient
  | wrongTweak => cases transient
  | arithmeticOverflow => exact absurd rfl different
  | unknownOutputIndex =>
      exact not_final_of_reversed sampleServer [] (sampleDeposits ++ sampleRates (some 1000))
        sampleClaim sampleClaim rfl rfl (by decide +kernel)
  | noConsensusFeerateAvailable =>
      exact not_final_of_reversed sampleServer sampleDeposits (sampleRates (some 1000))
        sampleClaim sampleClaim rfl rfl (by decide +kernel)
  | insufficientTotalFee =>
      exact not_final_of_reversed sampleServer (sampleDeposits ++ sampleRates (some 1000000))
        (sampleRates (some 1000)) sampleClaim sampleClaim rfl rfl (by decide +kernel)
  | pendingTransaction =>
      exact not_final_of_reversed sampleServer sampleSwept
        (sampleCompleted.drop sampleSwept.length) sampleThird sampleThird rfl rfl
        (by decide +kernel)

theorem onchainOutput_not_final {error : OnchainOutputError}
    (transient : (TxError.output (.onchain error)).transient = true) :
    ¬ (TxError.output (.onchain error)).Final := by
  cases error with
  | underDustLimit => cases transient
  | noMintUtxo =>
      exact not_final_of_reversed sampleServer [] sampleHeld (sampleWithdrawal 20000 5000)
        (sampleWithdrawal 20000 5000) rfl rfl (by decide +kernel)
  | noConsensusFeerateAvailable =>
      exact not_final_of_reversed sampleServer (sampleHeld ++ sampleRates none)
        (sampleRates (some 1000)) (sampleWithdrawal 20000 5000) (sampleWithdrawal 20000 5000) rfl
        rfl (by decide +kernel)
  | insufficientTotalFee =>
      exact not_final_of_reversed sampleServer (sampleHeld ++ sampleRates (some 1000000))
        (sampleRates (some 1000)) (sampleWithdrawal 20000 5000) (sampleWithdrawal 20000 5000) rfl
        rfl (by decide +kernel)
  | changeUnderDustLimit =>
      exact not_final_of_reversed sampleServer sampleHeld (sampleCompleted.drop sampleHeld.length)
        (sampleWithdrawal 41000 1000) (sampleWithdrawal 41000 1000) rfl rfl (by decide +kernel)
  | arithmeticOverflow =>
      exact not_final_of_reversed sampleServer sampleHeld (sampleCompleted.drop sampleHeld.length)
        (sampleWithdrawal 60000 1000) (sampleWithdrawal 60000 1000) rfl rfl (by decide +kernel)
  | pendingTransaction =>
      exact not_final_of_reversed sampleServer sampleSwept
        (sampleCompleted.drop sampleSwept.length) (sampleWithdrawal 20000 5000)
        (sampleWithdrawal 20000 5000) rfl rfl (by decide +kernel)

theorem not_final_of_transient {error : TxError} (transient : error.transient = true)
    (different : error ≠ .input (.onchain .arithmeticOverflow)) : ¬ error.Final := by
  cases error with
  | invalidWitnessLength => exact signatures_not_final.1
  | invalidSignature => exact signatures_not_final.2
  | input input =>
      cases input with
      | ecash error => cases transient
      | onchain error =>
          exact onchainInput_not_final transient fun same => different (by rw [same])
      | lightning error =>
          cases error with
          | unknownContract => exact unknownContract_not_final
          | _ => cases transient
  | output output =>
      cases output with
      | onchain error => exact onchainOutput_not_final transient
      | _ => cases transient
  | _ => cases transient

/-- No later copy of the transaction is accepted exactly where the rejection
does not come from the signatures, the wallet, the feerate or a contract that is
not there.  An overflow at a deposit is left out, since it can come from the
deposit or from the wallet. -/
theorem rejection_final_iff (error : TxError)
    (different : error ≠ .input (.onchain .arithmeticOverflow)) :
    error.Final ↔ error.transient = false := by
  constructor
  · intro lasting
    cases isTransient : error.transient with
    | false => rfl
    | true => exact absurd lasting (not_final_of_transient isTransient different)
  · exact final_of_not_transient

theorem rejection_final_iff_sample :
    TxError.underfunded.Final ∧ ¬ (TxError.output (.onchain .pendingTransaction)).Final := by
  refine ⟨(rejection_final_iff .underfunded (by decide)).mpr rfl, ?_⟩
  intro lasting
  cases (rejection_final_iff _ (by decide)).mp lasting

end Consensus

end Picomint
