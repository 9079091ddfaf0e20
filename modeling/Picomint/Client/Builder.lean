/-
The builder of a client's transactions.

Every entry declares the amount and the fee it stands for.  The sums of a
release build wrap around.
-/

import Picomint.Client.Issuance
import Picomint.Consensus.Server

namespace Picomint.Client

open Consensus

/-! ### Outcomes -/

/-- Why an operation returns nothing: it gives none, or an assertion fails. -/
inductive Halt where
  | refused
  | panicked
deriving DecidableEq, Repr

abbrev Attempt (α : Type) := Except Halt α

/-- `ok_or` and the question mark on an option. -/
def refuse {α : Type} (value : Option α) : Attempt α :=
  match value with
  | some value => .ok value
  | none => .error .refused

/-- `expect`. -/
def demand {α : Type} (value : Option α) : Attempt α :=
  match value with
  | some value => .ok value
  | none => .error .panicked

/-- `assert!`. -/
def insist (condition : Bool) : Attempt Unit :=
  if condition then .ok () else .error .panicked

section Inversion

variable {α β : Type}

theorem attempt_bind_eq_ok {attempt : Attempt α} {next : α → Attempt β} {result : β} :
    (attempt >>= next) = .ok result ↔ ∃ value, attempt = .ok value ∧ next value = .ok result := by
  cases attempt with
  | error halt =>
      constructor
      · intro impossible
        cases impossible
      · rintro ⟨value, impossible, _⟩
        cases impossible
  | ok value =>
      constructor
      · intro continued
        exact ⟨value, rfl, continued⟩
      · rintro ⟨other, same, continued⟩
        cases same
        exact continued

@[simp] theorem refuse_eq_ok {value : Option α} {result : α} :
    refuse value = .ok result ↔ value = some result := by
  cases value <;> simp [refuse]

@[simp] theorem demand_eq_ok {value : Option α} {result : α} :
    demand value = .ok result ↔ value = some result := by
  cases value <;> simp [demand]

@[simp] theorem insist_eq_ok {condition : Bool} {result : Unit} :
    insist condition = .ok result ↔ condition = true := by
  cases condition <;> simp [insist]

end Inversion

/-! ### Amounts -/

/-- `Amount` addition. -/
def amountAdd (left right : Nat) : Nat := (left + right) % U64_BOUND

/-- `Amount::from_sat`. -/
def amountFromSat (sat : Nat) : Nat := sat * 1000 % U64_BOUND

/-- `sum` of `Amount`s. -/
def amountSum (amounts : List Nat) : Nat := amounts.foldl amountAdd 0

theorem amountSum_eq (amounts : List Nat) : amountSum amounts = amounts.sum % U64_BOUND := by
  have folded : ∀ (amounts : List Nat) (start : Nat), start < U64_BOUND →
      amounts.foldl amountAdd start = (start + amounts.sum) % U64_BOUND := by
    intro amounts
    induction amounts with
    | nil =>
        intro start below
        rw [List.foldl_nil, List.sum_nil, Nat.add_zero, Nat.mod_eq_of_lt below]
    | cons amount rest inductionHypothesis =>
        intro start below
        have wrapped : amountAdd start amount < U64_BOUND := Nat.mod_lt _ (by decide)
        rw [List.foldl_cons, inductionHypothesis _ wrapped, List.sum_cons, ← Nat.add_assoc]
        unfold amountAdd
        rw [Nat.mod_add_mod]
  unfold amountSum
  rw [folded amounts 0 (by decide), Nat.zero_add]

/-! ### The builder -/

structure TxInput where
  input : Input
  keypair : Keypair
  amount : Nat
  fee : Nat
deriving DecidableEq, Repr

structure TxOutput where
  output : Output
  amount : Nat
  fee : Nat
deriving DecidableEq, Repr

structure TxBuilder where
  inputs : List TxInput
  outputs : List TxOutput
deriving DecidableEq, Repr

/-- The hash and signature functions of the libraries, and the seed. -/
structure ClientContext where
  secret : EcashSecret
  /-- `Transaction::compute_txid_from_parts`. -/
  txHash : List Input → List Output → TransactionId
  signSchnorr : Hash → Keypair → Signature

namespace TxBuilder

def new : TxBuilder :=
  { inputs := []
    outputs := [] }

def fromInput (input : TxInput) : TxBuilder :=
  { inputs := [input]
    outputs := [] }

def fromOutput (output : TxOutput) : TxBuilder :=
  { inputs := []
    outputs := [output] }

def addInput (builder : TxBuilder) (input : TxInput) : TxBuilder :=
  { builder with inputs := builder.inputs ++ [input] }

def addOutput (builder : TxBuilder) (output : TxOutput) : TxBuilder :=
  { builder with outputs := builder.outputs ++ [output] }

def hasOutputs (builder : TxBuilder) : Bool := !builder.outputs.isEmpty

def inputAmount (builder : TxBuilder) : Nat := amountSum (builder.inputs.map TxInput.amount)

def outputAmount (builder : TxBuilder) : Nat := amountSum (builder.outputs.map TxOutput.amount)

def totalFee (builder : TxBuilder) : Nat :=
  amountAdd (amountSum (builder.inputs.map TxInput.fee))
    (amountSum (builder.outputs.map TxOutput.fee))

/-- The input value that is missing. -/
def deficit (builder : TxBuilder) : Nat :=
  amountAdd builder.outputAmount builder.totalFee - builder.inputAmount

/-- The input value that is left over. -/
def excessInput (builder : TxBuilder) : Nat :=
  builder.inputAmount - amountAdd builder.outputAmount builder.totalFee

def build (ctx : ClientContext) (builder : TxBuilder) : Attempt Transaction := do
  insist !builder.inputs.isEmpty
  insist !builder.outputs.isEmpty
  let inputs := builder.inputs.map TxInput.input
  let outputs := builder.outputs.map TxOutput.output
  let txid := ctx.txHash inputs outputs
  return {
    inputs
    outputs
    signatures := builder.inputs.map (fun input => ctx.signSchnorr txid input.keypair) }

/-! ### Exact sums -/

def incoming (builder : TxBuilder) : Nat := (builder.inputs.map TxInput.amount).sum

def outgoing (builder : TxBuilder) : Nat :=
  (builder.outputs.map TxOutput.amount).sum +
    ((builder.inputs.map TxInput.fee).sum + (builder.outputs.map TxOutput.fee).sum)

theorem inputAmount_eq (builder : TxBuilder) :
    builder.inputAmount = builder.incoming % U64_BOUND :=
  amountSum_eq _

theorem outgoing_wraps (builder : TxBuilder) :
    amountAdd builder.outputAmount builder.totalFee = builder.outgoing % U64_BOUND := by
  unfold amountAdd outputAmount totalFee outgoing
  rw [amountSum_eq, amountSum_eq, amountSum_eq]
  unfold amountAdd U64_BOUND
  omega

theorem deficit_eq {builder : TxBuilder} (incoming : builder.incoming < U64_BOUND)
    (outgoing : builder.outgoing < U64_BOUND) :
    builder.deficit = builder.outgoing - builder.incoming := by
  unfold deficit
  rw [outgoing_wraps, inputAmount_eq, Nat.mod_eq_of_lt incoming, Nat.mod_eq_of_lt outgoing]

theorem excessInput_eq {builder : TxBuilder} (incoming : builder.incoming < U64_BOUND)
    (outgoing : builder.outgoing < U64_BOUND) :
    builder.excessInput = builder.incoming - builder.outgoing := by
  unfold excessInput
  rw [outgoing_wraps, inputAmount_eq, Nat.mod_eq_of_lt incoming, Nat.mod_eq_of_lt outgoing]

@[simp] theorem addInput_outputs (builder : TxBuilder) (input : TxInput) :
    (builder.addInput input).outputs = builder.outputs := rfl

@[simp] theorem addOutput_inputs (builder : TxBuilder) (output : TxOutput) :
    (builder.addOutput output).inputs = builder.inputs := rfl

theorem addInputs_eq (inputs : List TxInput) (builder : TxBuilder) :
    inputs.foldl addInput builder = { builder with inputs := builder.inputs ++ inputs } := by
  induction inputs generalizing builder with
  | nil => simp
  | cons input rest inductionHypothesis =>
      rw [List.foldl_cons, inductionHypothesis]
      simp [addInput]

theorem addOutputs_eq (outputs : List TxOutput) (builder : TxBuilder) :
    outputs.foldl addOutput builder = { builder with outputs := builder.outputs ++ outputs } := by
  induction outputs generalizing builder with
  | nil => simp
  | cons output rest inductionHypothesis =>
      rw [List.foldl_cons, inductionHypothesis]
      simp [addOutput]

theorem build_ok {ctx : ClientContext} {builder : TxBuilder} {tx : Transaction}
    (built : builder.build ctx = .ok tx) :
    builder.inputs ≠ [] ∧ builder.outputs ≠ [] ∧
      tx.inputs = builder.inputs.map TxInput.input ∧
      tx.outputs = builder.outputs.map TxOutput.output ∧
      tx.signatures.length = builder.inputs.length := by
  unfold build at built
  simp only [attempt_bind_eq_ok, insist_eq_ok, Bool.not_eq_true', List.isEmpty_eq_false_iff]
    at built
  obtain ⟨_, inputs, _, outputs, result⟩ := built
  cases result
  exact ⟨inputs, outputs, rfl, rfl, List.length_map _⟩

end TxBuilder

end Picomint.Client
