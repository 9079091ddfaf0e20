/-
The balance of a funded transaction.

The sums of a builder wrap around, so its deficit and its excess are exact only
while the sums of both sides wrap equally often.  Then the change leaves less
than the smallest change note and its fee.
-/

import Picomint.Client.MaxSend

namespace Picomint.Client

open Consensus

/-! ### The change of an excess -/

def changeStep (state : Nat × List Denomination) (denomination : Denomination) :
    Nat × List Denomination :=
  (state.1 % (denomination.amount + ECASH_OUTPUT_FEE), state.2 ++
    List.replicate (state.1 / (denomination.amount + ECASH_OUTPUT_FEE)) denomination)

theorem changeSteps_eq (denominations : List Denomination)
    (client : ∀ denomination ∈ denominations, denomination ∈ clientDenominations)
    (state : Nat × List Denomination) :
    denominations.foldl (fun (state : Nat × List Denomination) denomination =>
        outputLoop (amountAdd denomination.amount ECASH_OUTPUT_FEE) denomination
          (state.1 + 1) state) state =
      denominations.foldl changeStep state := by
  induction denominations generalizing state with
  | nil => rfl
  | cons denomination rest inductionHypothesis =>
      have cost := change_cost (client denomination List.mem_cons_self)
      have positive : 0 < amountAdd denomination.amount ECASH_OUTPUT_FEE := by
        rw [cost]
        exact Nat.add_pos_right _ (by decide)
      rw [List.foldl_cons, List.foldl_cons,
        outputLoop_eq positive denomination _ state (Nat.lt_succ_self _), cost]
      exact inductionHypothesis
        (fun other member => client other (List.mem_cons_of_mem denomination member)) _

def changeOf (max : Bool) (excess : Nat) : Nat × List Denomination :=
  (changeDenominations max).reverse.foldl changeStep (excess, [])

theorem selectOutputDenominations_eq (max : Bool) (excess : Nat) :
    selectOutputDenominations ECASH_OUTPUT_FEE excess (changeDenominations max) =
      (changeOf max excess).2 := by
  unfold selectOutputDenominations changeOf
  rw [changeSteps_eq _ (fun denomination member =>
    mem_changeDenominations (List.mem_reverse.mp member))]

theorem changeSteps_cost (denominations : List Denomination) (state : Nat × List Denomination) :
    (denominations.foldl changeStep state).1 + changeCost (denominations.foldl changeStep state).2 =
      state.1 + changeCost state.2 := by
  induction denominations generalizing state with
  | nil => rfl
  | cons denomination rest inductionHypothesis =>
      rw [List.foldl_cons, inductionHypothesis]
      unfold changeStep changeCost
      have divided := Nat.div_add_mod' state.1 (denomination.amount + ECASH_OUTPUT_FEE)
      simp only [List.map_append, List.sum_append, List.map_replicate, List.sum_replicate,
        smul_eq_mul]
      omega

theorem changeSteps_members (denominations : List Denomination)
    (state : Nat × List Denomination) (denomination : Denomination)
    (member : denomination ∈ (denominations.foldl changeStep state).2) :
    denomination ∈ state.2 ∨ denomination ∈ denominations := by
  induction denominations generalizing state with
  | nil => exact Or.inl member
  | cons first rest inductionHypothesis =>
      rcases inductionHypothesis (changeStep state first) member with added | later
      · rcases List.mem_append.mp added with before | copies
        · exact Or.inl before
        · rw [List.eq_of_mem_replicate copies]
          exact Or.inr List.mem_cons_self
      · exact Or.inr (List.mem_cons_of_mem first later)

theorem changeOf_members (max : Bool) (excess : Nat) (denomination : Denomination)
    (member : denomination ∈ (changeOf max excess).2) : denomination ∈ changeDenominations max := by
  rcases changeSteps_members _ _ denomination member with impossible | inChange
  · cases impossible
  · exact List.mem_reverse.mp inChange

def smallestChange (max : Bool) : Denomination := if max then 11 else 9

def largestDenomination : Denomination := 41

theorem changeDenominations_split (max : Bool) :
    (∃ front, (changeDenominations max).reverse = front ++ [smallestChange max]) ∧
      ∃ rest, (changeDenominations max).reverse = largestDenomination :: rest := by
  cases max with
  | false => exact ⟨⟨(List.range' 10 32).reverse, by decide⟩, (List.range' 9 32).reverse, by decide⟩
  | true => exact ⟨⟨(List.range' 12 30).reverse, by decide⟩, (List.range' 11 30).reverse, by decide⟩

/-- The change and a rest below its smallest note make up the excess. -/
theorem changeOf_spec (max : Bool) (excess : Nat) :
    (changeOf max excess).1 + changeCost (changeOf max excess).2 = excess ∧
      (changeOf max excess).1 < (smallestChange max).amount + ECASH_OUTPUT_FEE := by
  refine ⟨changeSteps_cost _ (excess, []), ?_⟩
  obtain ⟨⟨front, split⟩, _⟩ := changeDenominations_split max
  unfold changeOf
  rw [split, List.foldl_append, List.foldl_cons, List.foldl_nil]
  exact Nat.mod_lt _ (Nat.add_pos_right _ (by decide))

/-- Descending denominations, each costing at most twice the next. -/
def Halving (denominations : List Denomination) : Prop :=
  denominations.IsChain (fun left right =>
    left.amount + ECASH_OUTPUT_FEE ≤ 2 * (right.amount + ECASH_OUTPUT_FEE))

/-- Below twice the first cost every denomination is paid out at most once. -/
theorem changeSteps_once {denominations : List Denomination} (halving : Halving denominations)
    (distinct : denominations.Nodup) {state : Nat × List Denomination}
    (small : ∀ first ∈ denominations.head?, state.1 < 2 * (first.amount + ECASH_OUTPUT_FEE))
    (denomination : Denomination) :
    (denominations.foldl changeStep state).2.count denomination ≤
      state.2.count denomination + if denomination ∈ denominations then 1 else 0 := by
  induction denominations generalizing state with
  | nil => exact Nat.le_add_right _ _
  | cons first rest inductionHypothesis =>
      obtain ⟨absent, others⟩ := List.nodup_cons.mp distinct
      have once : state.1 / (first.amount + ECASH_OUTPUT_FEE) < 2 :=
        Nat.div_lt_of_lt_mul ((small first rfl).trans_eq (Nat.mul_comm _ _))
      have below : ∀ next ∈ rest.head?,
          (changeStep state first).1 < 2 * (next.amount + ECASH_OUTPUT_FEE) := by
        intro next isNext
        have halved : first.amount + ECASH_OUTPUT_FEE ≤ 2 * (next.amount + ECASH_OUTPUT_FEE) := by
          cases rest with
          | nil => cases isNext
          | cons second rest =>
              cases isNext
              exact (List.isChain_cons_cons.mp halving).1
        exact (Nat.mod_lt _ (Nat.add_pos_right _ (by decide))).trans_le halved
      have later := inductionHypothesis (List.IsChain.tail halving) others below
      rw [List.foldl_cons]
      refine later.trans ?_
      unfold changeStep
      rw [List.count_append, List.count_replicate]
      by_cases same : first = denomination
      · subst same
        rw [if_neg absent, if_pos List.mem_cons_self, beq_self_eq_true, if_pos rfl]
        omega
      · have kept : denomination ∈ first :: rest ↔ denomination ∈ rest := by
          rw [List.mem_cons]
          exact ⟨fun either => either.resolve_left (fun isFirst => same isFirst.symm), Or.inr⟩
        rw [if_neg (by simpa using same)]
        simp only [kept]
        omega

theorem changeOf_once (max : Bool) (excess : Nat) {denomination : Denomination}
    (smaller : denomination ≠ largestDenomination) :
    (changeOf max excess).2.count denomination ≤ 1 := by
  obtain ⟨_, rest, split⟩ := changeDenominations_split max
  have halving : Halving (largestDenomination :: rest) := by
    rw [← split]
    unfold Halving
    cases max with
    | false => decide
    | true => decide
  have distinct : (largestDenomination :: rest).Nodup := by
    rw [← split]
    cases max with
    | false => decide
    | true => decide
  unfold changeOf
  rw [split, List.foldl_cons]
  have below : ∀ next ∈ rest.head?, (changeStep (excess, []) largestDenomination).1 <
      2 * (next.amount + ECASH_OUTPUT_FEE) := by
    intro next isNext
    cases rest with
    | nil => cases isNext
    | cons second rest =>
        cases isNext
        exact (Nat.mod_lt _ (Nat.add_pos_right _ (by decide))).trans_le
          (List.isChain_cons_cons.mp halving).1
  have later := changeSteps_once (List.IsChain.tail halving) (List.nodup_cons.mp distinct).2 below
    denomination
  have started : (changeStep (excess, []) largestDenomination).2.count denomination = 0 := by
    unfold changeStep
    rw [List.nil_append, List.count_replicate, if_neg]
    simpa using smaller.symm
  rw [started] at later
  refine later.trans ?_
  split
  · exact le_refl 1
  · exact Nat.zero_le 1

/-! ### Funding -/

/-- `fund` on the caller's builder and the tables of its write transaction. -/
def fundDbtx (ctx : ClientContext) (tables : Tables) (account : Account) (builder : TxBuilder)
    (max : Bool) :
    Attempt (Option (List SpendableNote × List NoteIssuanceRequest) × TxBuilder × Tables) := do
  match selectFundingInput (tables.accountNotes account) builder.deficit with
  | none => return (none, builder, tables)
  | some selected =>
      let spendableNotes := sortByDenomination selected
      let builder := (spendableNotes.map (noteInput ctx)).foldl TxBuilder.addInput builder
      insist (builder.deficit = 0)
      let denoms := changeDenoms builder.excessInput max
      if denoms.isEmpty && !builder.hasOutputs then return (none, builder, tables)
      else
        let tables ← spendableNotes.foldlM (Tables.removeSpendableNote account) tables
        let (issuanceRequests, tables) := issueRequests ctx account tables denoms
        let builder := (issuanceRequests.map (requestOutput ctx)).foldl TxBuilder.addOutput builder
        insist (builder.deficit = 0)
        return (some (spendableNotes, issuanceRequests), builder, tables)

/-- An operation funds its builder with a refusal where this gives nothing. -/
theorem fund_eq (ctx : ClientContext) (tables : Tables) (account : Account) (builder : TxBuilder)
    (max : Bool) :
    fund ctx tables account builder max = (do
      let (funded, builder, tables) ← fundDbtx ctx tables account builder max
      let spent ← refuse funded
      return (spent, builder, tables)) := by
  unfold fund fundDbtx
  cases selectFundingInput (tables.accountNotes account) builder.deficit with
  | none => rfl
  | some selected =>
      unfold changeDenoms
      simp only [refuse]
      change (insist _ >>= fun _ => _) = _
      generalize ((sortByDenomination selected).map (noteInput ctx)).foldl TxBuilder.addInput
        builder = drawn
      cases insist (drawn.deficit = 0) with
      | error halt => rfl
      | ok _ =>
          simp only [bind, Except.bind]
          split
          · rfl
          · cases (sortByDenomination selected).foldlM (Tables.removeSpendableNote account)
              tables with
            | error halt => rfl
            | ok removed =>
                simp only
                generalize (((issueRequests ctx account removed _).1.map (requestOutput ctx)).foldl
                  TxBuilder.addOutput drawn) = last
                cases insist (last.deficit = 0) with
                | error halt => rfl
                | ok _ => rfl

def TxBuilder.draw (ctx : ClientContext) (builder : TxBuilder) (selected : List SpendableNote) :
    TxBuilder :=
  builder.addNotes ctx (sortByDenomination selected)

/-- The drawn notes leave no deficit, up to a wrap. -/
def Covers (ctx : ClientContext) (builder : TxBuilder) (selected : List SpendableNote) : Prop :=
  (builder.draw ctx selected).outgoing % U64_BOUND ≤
    (builder.draw ctx selected).incoming % U64_BOUND

def Carries (ctx : ClientContext) (builder : TxBuilder) (max : Bool)
    (selected : List SpendableNote) : Prop :=
  changeDenoms (builder.draw ctx selected).excessInput max ≠ [] ∨ builder.outputs ≠ []

section Fund

variable {ctx : ClientContext} {tables after : Tables} {account : Account}
  {builder balanced : TxBuilder} {max : Bool} {selected notes : List SpendableNote}
  {requests : List NoteIssuanceRequest}

theorem covers_iff : Covers ctx builder selected ↔ (builder.draw ctx selected).deficit = 0 := by
  unfold Covers
  rw [deficit_wraps, Nat.sub_eq_zero_iff_le]

theorem changeDenoms_perm (max : Bool) (excess : Nat) :
    (changeDenoms excess max).Perm (changeOf max excess).2 := by
  rw [← selectOutputDenominations_eq]
  exact List.perm_insertionSort _ _

theorem addChange_wraps (covers : Covers ctx builder selected)
    (issued : requests.map NoteIssuanceRequest.denomination =
      changeDenoms (builder.draw ctx selected).excessInput max) :
    let change := changeOf max (builder.draw ctx selected).excessInput
    ((builder.draw ctx selected).addChange ctx requests).outgoing =
        (builder.draw ctx selected).outgoing + changeCost change.2 ∧
      ((builder.draw ctx selected).outgoing + changeCost change.2) % U64_BOUND + change.1 =
        (builder.draw ctx selected).incoming % U64_BOUND := by
  have cost : changeCost (requests.map NoteIssuanceRequest.denomination) =
      changeCost (changeOf max (builder.draw ctx selected).excessInput).2 := by
    rw [issued]
    exact changeCost_perm (changeDenoms_perm _ _)
  have total := (changeOf_spec max (builder.draw ctx selected).excessInput).1
  have excess := excessInput_wraps (builder.draw ctx selected)
  unfold Covers at covers
  refine ⟨by rw [outgoing_addChange, cost], ?_⟩
  have below := Nat.mod_lt (builder.draw ctx selected).incoming (show 0 < U64_BOUND by decide)
  have fits : (builder.draw ctx selected).outgoing % U64_BOUND +
      changeCost (changeOf max (builder.draw ctx selected).excessInput).2 < U64_BOUND := by
    omega
  rw [← Nat.mod_add_mod, Nat.mod_eq_of_lt fits]
  omega

/-- The ways a funding ends. -/
theorem fundDbtx_cases (ctx : ClientContext) (tables : Tables) (account : Account)
    (builder : TxBuilder) (max : Bool) :
    (selectFundingInput (tables.accountNotes account) builder.deficit = none ∧
        fundDbtx ctx tables account builder max = .ok (none, builder, tables)) ∨
      ∃ selected, selectFundingInput (tables.accountNotes account) builder.deficit =
          some selected ∧
        ((¬Covers ctx builder selected ∧
            fundDbtx ctx tables account builder max = .error .panicked) ∨
          (Covers ctx builder selected ∧ ¬Carries ctx builder max selected ∧
            fundDbtx ctx tables account builder max =
              .ok (none, builder.draw ctx selected, tables)) ∨
          (Covers ctx builder selected ∧ Carries ctx builder max selected ∧
            ∃ removed requests after,
              (sortByDenomination selected).foldlM (Tables.removeSpendableNote account) tables =
                .ok removed ∧
              issueRequests ctx account removed
                (changeDenoms (builder.draw ctx selected).excessInput max) = (requests, after) ∧
              fundDbtx ctx tables account builder max =
                .ok (some (sortByDenomination selected, requests),
                  (builder.draw ctx selected).addChange ctx requests, after))) := by
  cases chosen : selectFundingInput (tables.accountNotes account) builder.deficit with
  | none =>
      refine Or.inl ⟨rfl, ?_⟩
      unfold fundDbtx
      rw [chosen]
      rfl
  | some selected =>
      refine Or.inr ⟨selected, rfl, ?_⟩
      have same := sort_perm selected
      obtain ⟨nodup, members⟩ :=
        selectFundingInput_members (Tables.accountNotes_nodup tables account) chosen
      obtain ⟨removed, spent⟩ := Tables.removeNotes_succeeds tables account
        (same.nodup_iff.mpr nodup) (fun note member => (members note (same.mem_iff.mp member)).1)
      have unfolded : fundDbtx ctx tables account builder max =
          (insist ((builder.draw ctx selected).deficit = 0) >>= fun _ =>
            if (changeDenoms (builder.draw ctx selected).excessInput max).isEmpty &&
                !(builder.draw ctx selected).hasOutputs then
              pure (none, builder.draw ctx selected, tables)
            else
              (sortByDenomination selected).foldlM (Tables.removeSpendableNote account) tables
                >>= fun removed =>
              let issued := issueRequests ctx account removed
                (changeDenoms (builder.draw ctx selected).excessInput max)
              insist (((builder.draw ctx selected).addChange ctx issued.1).deficit = 0)
                >>= fun _ =>
              pure (some (sortByDenomination selected, issued.1),
                (builder.draw ctx selected).addChange ctx issued.1, issued.2)) := by
        unfold fundDbtx
        rw [chosen]
        simp only [TxBuilder.addInputs_eq, TxBuilder.addOutputs_eq]
        rfl
      have outputs : (builder.draw ctx selected).hasOutputs = !builder.outputs.isEmpty := rfl
      rw [unfolded]
      by_cases covers : Covers ctx builder selected
      · have covered : insist ((builder.draw ctx selected).deficit = 0) = .ok () := by
          rw [covers_iff.mp covers]
          rfl
        rw [covered]
        by_cases carries : Carries ctx builder max selected
        · refine Or.inr (Or.inr ⟨covers, carries, removed, _, _, spent, rfl, ?_⟩)
          have nonempty : ((changeDenoms (builder.draw ctx selected).excessInput max).isEmpty &&
              !(builder.draw ctx selected).hasOutputs) = false := by
            rw [outputs, Bool.not_not, Bool.and_eq_false_iff, List.isEmpty_eq_false_iff,
              List.isEmpty_eq_false_iff]
            exact carries
          have issued := issueRequests_issued ctx account removed
            (changeDenoms (builder.draw ctx selected).excessInput max)
          obtain ⟨outgoing, wraps⟩ := addChange_wraps covers issued.denominations
          have settled : insist (((builder.draw ctx selected).addChange ctx
              (issueRequests ctx account removed
                (changeDenoms (builder.draw ctx selected).excessInput max)).1).deficit = 0) =
              .ok () := by
            have zero : ((builder.draw ctx selected).addChange ctx
                (issueRequests ctx account removed
                  (changeDenoms (builder.draw ctx selected).excessInput max)).1).deficit = 0 := by
              rw [deficit_wraps, outgoing, incoming_addChange]
              omega
            rw [zero]
            rfl
          change (if _ then _ else _) = _
          rw [nonempty, if_neg Bool.false_ne_true, spent]
          change (insist _ >>= fun _ => _) = _
          rw [settled]
          rfl
        · refine Or.inr (Or.inl ⟨covers, carries, ?_⟩)
          unfold Carries at carries
          rw [not_or, not_not, not_not] at carries
          have empty : ((changeDenoms (builder.draw ctx selected).excessInput max).isEmpty &&
              !(builder.draw ctx selected).hasOutputs) = true := by
            rw [outputs, carries.1, carries.2]
            rfl
          change (if _ then _ else _) = _
          rw [empty, if_pos rfl]
          rfl
      · refine Or.inl ⟨covers, ?_⟩
        rw [decide_eq_false (fun zero => covers (covers_iff.mpr zero))]
        rfl

/-! ### Exact funding -/

/-- A funding that is exact: the inputs are worth the outputs, all fees and a
rest below the smallest change note and its fee. -/
structure Balanced (ctx : ClientContext) (tables after : Tables) (account : Account)
    (builder balanced : TxBuilder) (max : Bool) (notes : List SpendableNote)
    (requests : List NoteIssuanceRequest) : Prop where
  owned : notes.Nodup ∧ ∀ note ∈ notes, note ∈ tables.accountNotes account
  inputs : balanced.inputs = builder.inputs ++ notes.map (noteInput ctx)
  outputs : balanced.outputs = builder.outputs ++ requests.map (requestOutput ctx)
  only : after = { tables with
    note := after.note
    derivationCounter := after.derivationCounter }
  removed : ∀ key, after.note.contains key = true ↔
    tables.note.contains key = true ∧ (key.account = account → key.note ∉ notes)
  counters : requests.map NoteIssuanceRequest.issuance =
    (List.range' (tables.counter account) requests.length).map
      (NoteIssuance.new ctx.secret account)
  advanced : ∀ other, after.counter other =
    if other = account then tables.counter account + requests.length else tables.counter other
  change : ∀ request ∈ requests, request.denomination ∈ changeDenominations max
  once : ∀ denomination, denomination ≠ largestDenomination →
    (requests.map NoteIssuanceRequest.denomination).count denomination ≤ 1
  exact : ∃ dust < (smallestChange max).amount + ECASH_OUTPUT_FEE,
    balanced.incoming = balanced.outgoing + dust

/-- No assertion fails, what is funded is balanced, and a refusal writes nothing. -/
structure FundsExactly (ctx : ClientContext) (tables : Tables) (account : Account)
    (builder : TxBuilder) (max : Bool) : Prop where
  returns : ∀ halt, fundDbtx ctx tables account builder max ≠ .error halt
  balanced : ∀ notes requests balanced after,
    fundDbtx ctx tables account builder max = .ok (some (notes, requests), balanced, after) →
      Balanced ctx tables after account builder balanced max notes requests
  unchanged : ∀ balanced after,
    fundDbtx ctx tables account builder max = .ok (none, balanced, after) → after = tables

/-- The change keeps the wraps of the sums, so the rest is exact only if they
are equal. -/
theorem exact_iff (covers : Covers ctx builder selected)
    (issued : requests.map NoteIssuanceRequest.denomination =
      changeDenoms (builder.draw ctx selected).excessInput max) :
    (∃ dust < (smallestChange max).amount + ECASH_OUTPUT_FEE,
      ((builder.draw ctx selected).addChange ctx requests).incoming =
        ((builder.draw ctx selected).addChange ctx requests).outgoing + dust) ↔
      (builder.draw ctx selected).incoming / U64_BOUND =
        (builder.draw ctx selected).outgoing / U64_BOUND := by
  obtain ⟨outgoing, wraps⟩ := addChange_wraps covers issued
  have small := (changeOf_spec max (builder.draw ctx selected).excessInput).2
  have bound : (smallestChange max).amount + ECASH_OUTPUT_FEE < U64_BOUND := by
    cases max with
    | false => decide
    | true => decide
  have total := (changeOf_spec max (builder.draw ctx selected).excessInput).1
  have excess := excessInput_wraps (builder.draw ctx selected)
  unfold Covers at covers
  rw [outgoing, incoming_addChange]
  unfold U64_BOUND at *
  constructor
  · rintro ⟨dust, below, exact⟩
    omega
  · intro equal
    exact ⟨_, small, by omega⟩

theorem issued_of_eq {before : Tables} {denominations : List Denomination}
    (issue : issueRequests ctx account before denominations = (requests, after)) :
    Requested ctx account before after denominations requests := by
  have issued := issueRequests_issued ctx account before denominations
  rw [issue] at issued
  exact issued

/-- What a funding that carries an output writes. -/
theorem balanced_of_exact {removed : Tables}
    (spent : (sortByDenomination selected).foldlM (Tables.removeSpendableNote account) tables =
      .ok removed)
    (issue : issueRequests ctx account removed
      (changeDenoms (builder.draw ctx selected).excessInput max) = (requests, after))
    (exact : ∃ dust < (smallestChange max).amount + ECASH_OUTPUT_FEE,
      ((builder.draw ctx selected).addChange ctx requests).incoming =
        ((builder.draw ctx selected).addChange ctx requests).outgoing + dust) :
    Balanced ctx tables after account builder ((builder.draw ctx selected).addChange ctx requests)
      max (sortByDenomination selected) requests := by
  obtain ⟨distinct, members, only, rows⟩ := Tables.removeNotes_ok spent
  have issued := issued_of_eq issue
  have sameCounter : ∀ other, removed.counter other = tables.counter other := by
    intro other
    rw [only]
    rfl
  have notesKept : after.note = removed.note := by
    rw [issued.only]
  have perm := changeDenoms_perm max (builder.draw ctx selected).excessInput
  refine
    { owned := ⟨distinct, members⟩
      inputs := rfl
      outputs := rfl
      only := ?_
      removed := ?_
      counters := ?_
      advanced := ?_
      change := ?_
      once := ?_
      exact := exact }
  · rw [issued.only, only]
  · intro key
    rw [notesKept]
    exact rows key
  · rw [issued.issuances, sameCounter]
  · intro other
    rw [issued.counter, sameCounter, sameCounter]
  · intro request member
    have inChange : request.denomination ∈
        changeDenoms (builder.draw ctx selected).excessInput max := by
      rw [← issued.denominations]
      exact List.mem_map_of_mem member
    exact changeOf_members max _ _ (perm.mem_iff.mp inChange)
  · intro denomination smaller
    rw [issued.denominations, perm.count_eq]
    exact changeOf_once max _ smaller

theorem FundsExactly.even (exactly : FundsExactly ctx tables account builder max)
    (chosen : selectFundingInput (tables.accountNotes account) builder.deficit = some selected) :
    Covers ctx builder selected ∧
      (Carries ctx builder max selected →
        (builder.draw ctx selected).incoming / U64_BOUND =
          (builder.draw ctx selected).outgoing / U64_BOUND) := by
  rcases fundDbtx_cases ctx tables account builder max with ⟨missing, _⟩ | ⟨other, others, ending⟩
  · cases missing.symm.trans chosen
  · cases others.symm.trans chosen
    rcases ending with ⟨_, panicked⟩ | ⟨covers, empty, _⟩ |
      ⟨covers, _, removed, requests, after, _, issue, funded⟩
    · exact absurd panicked (exactly.returns _)
    · exact ⟨covers, fun carries => absurd carries empty⟩
    · have balanced := exactly.balanced _ _ _ _ funded
      exact ⟨covers, fun _ => (exact_iff covers (issued_of_eq issue).denominations).mp
        balanced.exact⟩

/-- Nothing is written where nothing is funded. -/
theorem fundsExactly_of_none {last : TxBuilder}
    (refused : fundDbtx ctx tables account builder max = .ok (none, last, tables)) :
    FundsExactly ctx tables account builder max where
  returns := by
    intro halt impossible
    cases refused.symm.trans impossible
  balanced := by
    intro _ _ _ _ impossible
    cases refused.symm.trans impossible
  unchanged := by
    intro _ _ same
    cases refused.symm.trans same
    rfl

theorem fundsExactly_of_even
    (even : ∀ selected,
      selectFundingInput (tables.accountNotes account) builder.deficit = some selected →
        Covers ctx builder selected ∧
          (Carries ctx builder max selected →
            (builder.draw ctx selected).incoming / U64_BOUND =
              (builder.draw ctx selected).outgoing / U64_BOUND)) :
    FundsExactly ctx tables account builder max := by
  rcases fundDbtx_cases ctx tables account builder max with ⟨_, refused⟩ |
    ⟨selected, chosen, ending⟩
  · exact fundsExactly_of_none refused
  · obtain ⟨covers, equal⟩ := even selected chosen
    rcases ending with ⟨uncovered, _⟩ | ⟨_, _, refused⟩ |
      ⟨_, carries, removed, requests, after, spent, issue, funded⟩
    · exact absurd covers uncovered
    · exact fundsExactly_of_none refused
    · have exact_ := (exact_iff covers (issued_of_eq issue).denominations).mpr (equal carries)
      constructor
      · intro halt impossible
        cases funded.symm.trans impossible
      · intro notes drawn last ended same
        cases funded.symm.trans same
        exact balanced_of_exact spent issue exact_
      · intro _ _ impossible
        cases funded.symm.trans impossible

/-- Exactly where the drawn notes cover the deficit and the sums of both sides
wrap equally often is the funding exact. -/
theorem fundsExactly_iff :
    FundsExactly ctx tables account builder max ↔
      ∀ selected,
        selectFundingInput (tables.accountNotes account) builder.deficit = some selected →
          Covers ctx builder selected ∧
            (Carries ctx builder max selected →
              (builder.draw ctx selected).incoming / U64_BOUND =
                (builder.draw ctx selected).outgoing / U64_BOUND) :=
  ⟨fun exactly _ chosen => exactly.even chosen, fundsExactly_of_even⟩

/-! ### Sums that do not wrap -/

/-- The sums of the builder do not wrap around, and neither do those of the
notes that the account adds for what is missing. -/
def Unwrapped (notes : List SpendableNote) (builder : TxBuilder) : Prop :=
  builder.incoming < U64_BOUND ∧ builder.outgoing < U64_BOUND ∧
    ∀ draw, drawn notes (builder.outgoing - builder.incoming) = some draw →
      draw.peak < U64_BOUND ∧
        builder.incoming + (draw.value + ECASH_INPUT_FEE * draw.number) < U64_BOUND

theorem draw_unwrapped
    (chosen : selectFundingInput (tables.accountNotes account) builder.deficit = some selected)
    (unwrapped : Unwrapped (tables.accountNotes account) builder) :
    (builder.draw ctx selected).outgoing ≤ (builder.draw ctx selected).incoming ∧
      (builder.draw ctx selected).incoming < U64_BOUND := by
  obtain ⟨incoming, outgoing, draws⟩ := unwrapped
  have same := sort_perm selected
  have members :=
    (selectFundingInput_members (Tables.accountNotes_nodup tables account) chosen).2
  have client : ∀ note ∈ sortByDenomination selected,
      note.denomination ∈ clientDenominations :=
    fun note member => (members note (same.mem_iff.mp member)).2
  have enough := (selectFundingInput_some chosen).2
  have deficit := TxBuilder.deficit_eq incoming outgoing
  rw [deficit] at chosen enough
  have limit : builder.outgoing - builder.incoming < U64_BOUND :=
    (Nat.sub_le _ _).trans_lt outgoing
  obtain ⟨draw, predicted⟩ := drawn_of_selected limit chosen
  obtain ⟨peak, below⟩ := draws draw predicted
  have small : draw.value < U64_BOUND := by omega
  obtain ⟨number, value⟩ := drawn_selectFundingInput chosen predicted peak small
  change draw.value = totalValue selected at value
  rw [number, value] at below
  have sorted := totalValue_perm same
  have length := same.length_eq
  unfold TxBuilder.draw
  rw [outgoing_addNotes, incoming_addNotes _ _ client, length]
  omega

/-- Funding is exact if no sum wraps around. -/
theorem fund_exact (ctx : ClientContext) (max : Bool)
    (unwrapped : Unwrapped (tables.accountNotes account) builder) :
    FundsExactly ctx tables account builder max := by
  rw [fundsExactly_iff]
  intro selected chosen
  obtain ⟨covered, below⟩ : (builder.draw ctx selected).outgoing ≤
      (builder.draw ctx selected).incoming ∧ (builder.draw ctx selected).incoming < U64_BOUND :=
    draw_unwrapped chosen unwrapped
  constructor
  · unfold Covers
    rw [Nat.mod_eq_of_lt below, Nat.mod_eq_of_lt (covered.trans_lt below)]
    exact covered
  · intro _
    rw [Nat.div_eq_of_lt below, Nat.div_eq_of_lt (covered.trans_lt below)]

/-! A payment that a swept seventh note, a filled one and a last one fund; a
builder whose sums wrap once on both sides; and a payment near the largest
amount, funded by one note. -/

theorem fund_exact_sample :
    ∃ notes requests balanced after,
      fundDbtx sampleContext (sampleSavings sampleDenominations) .primary
          (lnurlSendDirectBuilder 0 0 11500) false =
        .ok (some (notes, requests), balanced, after) ∧
      (notes.map SpendableNote.denomination, requests.map NoteIssuanceRequest.denomination) =
        ([9, 10, 10, 10, 10, 10, 13], [9]) ∧
      Balanced sampleContext (sampleSavings sampleDenominations) after .primary
        (lnurlSendDirectBuilder 0 0 11500) balanced false notes requests := by
  have predicted : drawn ((sampleSavings sampleDenominations).accountNotes .primary)
      ((lnurlSendDirectBuilder 0 0 11500).outgoing - (lnurlSendDirectBuilder 0 0 11500).incoming) =
        some ⟨7, 13124, 1050324⟩ := by
    decide +kernel
  have unwrapped : Unwrapped ((sampleSavings sampleDenominations).accountNotes .primary)
      (lnurlSendDirectBuilder 0 0 11500) := by
    refine ⟨by decide, by decide, fun draw drawn => ?_⟩
    obtain rfl := Option.some.inj (predicted.symm.trans drawn)
    exact ⟨by decide, by decide⟩
  have exactly := fund_exact sampleContext false unwrapped
  have observed : ((fundDbtx sampleContext (sampleSavings sampleDenominations) .primary
      (lnurlSendDirectBuilder 0 0 11500) false).toOption.bind Prod.fst).map (fun funded =>
        (funded.1.map SpendableNote.denomination,
          funded.2.map NoteIssuanceRequest.denomination)) =
      some ([9, 10, 10, 10, 10, 10, 13], [9]) := by
    decide +kernel
  cases funding : fundDbtx sampleContext (sampleSavings sampleDenominations) .primary
      (lnurlSendDirectBuilder 0 0 11500) false with
  | error halt => exact absurd funding (exactly.returns halt)
  | ok result =>
      obtain ⟨funded, balanced, after⟩ := result
      rw [funding] at observed
      cases funded with
      | none => cases observed
      | some both =>
          obtain ⟨notes, requests⟩ := both
          exact ⟨notes, requests, balanced, after, rfl, Option.some.inj observed,
            exactly.balanced _ _ _ _ funding⟩

/-- Two inputs and two outputs of half the bound each. -/
def evenBuilder : TxBuilder :=
  { inputs := List.replicate 2
      { input := .lightning (.incoming ⟨0, 0⟩)
        keypair := 0
        amount := 2 ^ 63
        fee := 0 }
    outputs := List.replicate 2
      { output := .lightning (.incoming
          { amount := 2 ^ 63
            fee := 0
            claimPk := 0
            ephemeralPk := 0 })
        amount := 2 ^ 63
        fee := 0 } }

/-- The sums need not be free of wraps for the funding to be exact. -/
theorem evenBuilder_exact :
    ¬Unwrapped (Tables.empty.accountNotes .primary) evenBuilder ∧
      FundsExactly sampleContext Tables.empty .primary evenBuilder false := by
  constructor
  · intro unwrapped
    exact absurd unwrapped.1 (by decide)
  · rw [fundsExactly_iff]
    intro selected chosen
    have nothing : selectFundingInput (Tables.empty.accountNotes .primary) evenBuilder.deficit =
        some [] := by
      decide +kernel
    obtain rfl := Option.some.inj (nothing.symm.trans chosen)
    constructor
    · unfold Covers
      decide +kernel
    · intro _
      decide +kernel

theorem fund_unbalanced :
    (∃ notes requests balanced after,
      fundDbtx sampleContext (sampleAccount [21]) .primary
          (lnurlSendDirectBuilder 0 0 (2 ^ 64 - 1)) false =
        .ok (some (notes, requests), balanced, after) ∧
      balanced.incoming = 2 ^ 21 ∧ 2 ^ 64 ≤ balanced.outgoing) ∧
    ¬FundsExactly sampleContext (sampleAccount [21]) .primary
      (lnurlSendDirectBuilder 0 0 (2 ^ 64 - 1)) false := by
  have chosen : selectFundingInput ((sampleAccount [21]).accountNotes .primary)
      (lnurlSendDirectBuilder 0 0 (2 ^ 64 - 1)).deficit =
        some ((sampleAccount [21]).accountNotes .primary) := by
    decide +kernel
  have incoming : ((lnurlSendDirectBuilder 0 0 (2 ^ 64 - 1)).draw sampleContext
      ((sampleAccount [21]).accountNotes .primary)).incoming = 2 ^ 21 := by
    decide +kernel
  have outgoing : ((lnurlSendDirectBuilder 0 0 (2 ^ 64 - 1)).draw sampleContext
      ((sampleAccount [21]).accountNotes .primary)).outgoing = 2 ^ 64 + 1099 := by
    decide +kernel
  have covers : Covers sampleContext (lnurlSendDirectBuilder 0 0 (2 ^ 64 - 1))
      ((sampleAccount [21]).accountNotes .primary) := by
    unfold Covers
    rw [incoming, outgoing]
    decide
  have carries : Carries sampleContext (lnurlSendDirectBuilder 0 0 (2 ^ 64 - 1)) false
      ((sampleAccount [21]).accountNotes .primary) :=
    Or.inr (List.cons_ne_nil _ _)
  constructor
  · rcases fundDbtx_cases sampleContext (sampleAccount [21]) .primary
        (lnurlSendDirectBuilder 0 0 (2 ^ 64 - 1)) false with
      ⟨missing, _⟩ | ⟨other, others, ending⟩
    · cases missing.symm.trans chosen
    · cases others.symm.trans chosen
      rcases ending with ⟨uncovered, _⟩ | ⟨_, empty, _⟩ |
        ⟨_, _, removed, requests, after, _, _, funded⟩
      · exact absurd covers uncovered
      · exact absurd carries empty
      · refine ⟨_, _, _, _, funded, ?_, ?_⟩
        · rw [incoming_addChange, incoming]
        · rw [outgoing_addChange, outgoing]
          omega
  · intro exactly
    have equal := (exactly.even chosen).2 carries
    rw [incoming, outgoing] at equal
    exact absurd equal (by decide)

end Fund

end Picomint.Client
