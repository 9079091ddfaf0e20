/-
The deposit scanner misses nothing.

The addresses of an account in the table are all valid ones up to its highest,
and each below the highest has been paid.  A payer knows an address from the
client, so the payments to an address follow one to every earlier address of
the account: the scanner that passed those has opened it.
-/

import Picomint.Client.Deposits

namespace Picomint.Client

open Consensus Tss

variable {curve : Curve} {addresses : Addresses} {ledger after : Ledger curve}

/-! ### Slices -/

def PaysTo (addresses : Addresses) (ledger : Ledger curve) (place : Nat) (key : AddressKey) :
    Prop :=
  ∃ tracked, ledger.output.get? place = some tracked ∧
    tracked.out.scriptPubkey = addresses.deriveAddress key

def Taproot (addresses : Addresses) (ledger : Ledger curve) (place : Nat) : Prop :=
  ∃ tracked, ledger.output.get? place = some tracked ∧
    addresses.isP2tr tracked.out.scriptPubkey = true

theorem PaysTo.taproot {place : Nat} {key : AddressKey} (pays : PaysTo addresses ledger place key) :
    Taproot addresses ledger place := by
  obtain ⟨tracked, found, same⟩ := pays
  exact ⟨tracked, found, same ▸ addresses.address_p2tr key⟩

theorem PaysTo.unique {place : Nat} {key other : AddressKey}
    (pays : PaysTo addresses ledger place key) (pays' : PaysTo addresses ledger place other) :
    key = other := by
  obtain ⟨tracked, found, same⟩ := pays
  obtain ⟨tracked', found', same'⟩ := pays'
  cases found.symm.trans found'
  exact addresses.address_injective (same.symm.trans same')

/-- The outputs are the taproot outputs from the position on and below the end,
in order. -/
structure Slice (addresses : Addresses) (ledger : Ledger curve) (position stop : Nat)
    (infos : List OutputInfo) : Prop where
  ascending : infos.Pairwise (fun left right => left.index < right.index)
  inside : ∀ info ∈ infos, position ≤ info.index ∧ info.index < stop
  script : ∀ info ∈ infos, ∃ tracked, ledger.output.get? info.index = some tracked ∧
    tracked.out.scriptPubkey = info.script ∧ addresses.isP2tr info.script = true
  complete : ∀ place, position ≤ place → place < stop → Taproot addresses ledger place →
    ∃ info ∈ infos, info.index = place

theorem getOutputs_slice (addresses : Addresses) (ledger : Ledger curve) (start stop : Nat) :
    Slice addresses ledger start stop
      (Onchain.getOutputs addresses.isP2tr ledger start stop) := by
  have members : ∀ info, info ∈ Onchain.getOutputs addresses.isP2tr ledger start stop ↔
      ∃ row ∈ ledger.output.range start stop,
        addresses.isP2tr row.2.out.scriptPubkey = true ∧ info =
          { index := row.1
            script := row.2.out.scriptPubkey
            value := row.2.out.value
            spent := ((ledger.spentOutputIndex.range start stop).map Prod.fst).contains row.1 } := by
    intro info
    simp only [Onchain.getOutputs, List.mem_filterMap]
    constructor
    · rintro ⟨row, member, kept⟩
      split at kept
      · rename_i taproot
        exact ⟨row, member, taproot, (Option.some.inj kept).symm⟩
      · cases kept
    · rintro ⟨row, member, taproot, same⟩
      exact ⟨row, member, by rw [if_pos taproot, same]⟩
  refine ⟨?_, ?_, ?_, ?_⟩
  · unfold Onchain.getOutputs
    refine List.Pairwise.filterMap _ ?_ (List.Pairwise.filter _ ledger.output.ascending)
    intro row row' below info kept info' kept'
    split at kept
    · split at kept'
      · cases kept
        cases kept'
        exact below
      · cases kept'
    · cases kept
  · intro info member
    obtain ⟨row, inRange, _, same⟩ := (members info).mp member
    rw [same]
    exact (SortedMap.mem_range.mp inRange).2
  · intro info member
    obtain ⟨row, inRange, taproot, same⟩ := (members info).mp member
    rw [same]
    exact ⟨row.2, (SortedMap.mem_range.mp inRange).1, rfl, taproot⟩
  · rintro place above below ⟨tracked, found, taproot⟩
    exact ⟨_, (members _).mpr
      ⟨(place, tracked), SortedMap.mem_range.mpr ⟨found, above, below⟩, taproot, rfl⟩, rfl⟩

theorem Slice.tail {position stop : Nat} {first : OutputInfo} {rest : List OutputInfo}
    (slice : Slice addresses ledger position stop (first :: rest)) :
    Slice addresses ledger (first.index + 1) stop rest := by
  obtain ⟨above, ascending⟩ := List.pairwise_cons.mp slice.ascending
  refine ⟨ascending, ?_, fun info member => slice.script info (List.mem_cons_of_mem _ member), ?_⟩
  · intro info member
    exact ⟨above info member, (slice.inside info (List.mem_cons_of_mem _ member)).2⟩
  · intro place past below taproot
    have here := (slice.inside first List.mem_cons_self).1
    obtain ⟨info, member, same⟩ := slice.complete place (by omega) below taproot
    rcases List.mem_cons.mp member with isFirst | later
    · subst isFirst
      omega
    · exact ⟨info, later, same⟩

theorem Slice.gap {position stop : Nat} {first : OutputInfo} {rest : List OutputInfo}
    (slice : Slice addresses ledger position stop (first :: rest)) {place : Nat}
    (above : position ≤ place) (taproot : Taproot addresses ledger place) :
    first.index ≤ place := by
  by_contra before
  have inside := slice.inside first List.mem_cons_self
  obtain ⟨info, member, same⟩ := slice.complete place above (by omega) taproot
  rcases List.mem_cons.mp member with isFirst | later
  · subst isFirst
    omega
  · have beyond := (List.pairwise_cons.mp slice.ascending).1 info later
    omega

/-! ### The tables of the scanner -/

/-- The deposit was claimed unless it is spent, worth too little or out of reach. -/
def Deposit.Settled (deposit : Deposit) : Prop :=
  deposit.claimed = true ↔ deposit.output.spent = false ∧
    (∃ receiveFee, deposit.answers.receiveFee = some (some receiveFee) ∧
      receiveFee < deposit.output.value) ∧ deposit.answers.affordable = true

theorem claimDeposit_ok {answers : DepositAnswers} {output : OutputInfo} {claimed : Bool}
    {address : AddressKey} (settled : claimDeposit answers output = .ok claimed) :
    Deposit.Settled { output, address, answers, claimed } := by
  unfold Deposit.Settled
  unfold claimDeposit at settled
  split at settled
  · rename_i spent
    cases settled
    simp [spent]
  · rename_i unspent
    split at settled
    · cases settled
    · split at settled
      · cases settled
      · split at settled
        · cases settled
        · cases settled
        · rename_i receiveFee isFee
          split at settled
          · rename_i worth
            split at settled
            · rename_i affordable
              split at settled
              · cases settled
                simp [isFee, worth, affordable, Bool.eq_false_iff.mpr unspent]
              · cases settled
            · rename_i unaffordable
              cases settled
              simp [unaffordable]
          · rename_i worthless
            cases settled
            simp only [Bool.false_eq_true, false_iff, not_and]
            rintro _ ⟨fee, sameFee, covered⟩
            rw [isFee] at sameFee
            cases sameFee
            exact absurd covered worthless

theorem claimDeposit_error {answers : DepositAnswers} {output : OutputInfo} {reason : ScanStop}
    (stopped : claimDeposit answers output = .error reason) : reason ≠ .panicked := by
  rintro rfl
  unfold claimDeposit at stopped
  repeat' split at stopped
  all_goals cases stopped

/-- Below the position every deposit was matched, and the addresses of the
table are open in order. -/
structure Scanned (addresses : Addresses) (ledger : Ledger curve) (position : Nat)
    (tables : ScannerTables) (passed : List Deposit) : Prop where
  valid : ∀ key ∈ tables.validAddressIndex.keys, addresses.Valid key
  closed : ∀ key ∈ tables.validAddressIndex.keys, ∀ index < key.index,
    addresses.Valid { account := key.account, index } →
      { account := key.account, index } ∈ tables.validAddressIndex.keys
  paid : ∀ key ∈ tables.validAddressIndex.keys, ∀ index < key.index,
    addresses.Valid { account := key.account, index } →
      ∃ place, PaysTo addresses ledger place { account := key.account, index }
  opened : ∀ place < position, ∀ key, PaysTo addresses ledger place key →
    ∃ next ∈ tables.validAddressIndex.keys, next.account = key.account ∧ key.index < next.index
  matched : ∀ place < position, ∀ key, PaysTo addresses ledger place key →
    ∃ deposit ∈ passed, deposit.output.index = place ∧ deposit.address = key
  settled : ∀ deposit ∈ passed, deposit.Settled

/-- The deposits to an address come after one to every earlier address of the
account. -/
def InOrder (addresses : Addresses) (ledger : Ledger curve) : Prop :=
  ∀ place key, PaysTo addresses ledger place key → addresses.Valid key ∧
    ∀ index < key.index, addresses.Valid { account := key.account, index } →
      ∃ earlier < place, PaysTo addresses ledger earlier { account := key.account, index }

section

variable {position : Nat} {tables : ScannerTables} {passed : List Deposit}

theorem Scanned.skip (scanned : Scanned addresses ledger position tables passed) {next : Nat}
    (gap : ∀ place, position ≤ place → Taproot addresses ledger place → next ≤ place) :
    Scanned addresses ledger next tables passed :=
  { scanned with
    opened := by
      intro place below key pays
      apply scanned.opened place ?_ key pays
      by_contra above
      exact absurd below (not_lt.mpr (gap place (not_lt.mp above) pays.taproot))
    matched := by
      intro place below key pays
      apply scanned.matched place ?_ key pays
      by_contra above
      exact absurd below (not_lt.mpr (gap place (not_lt.mp above) pays.taproot)) }

theorem Scanned.cursor (scanned : Scanned addresses ledger position tables passed)
    (index : Option Nat) :
    Scanned addresses ledger position { tables with nextOutputIndex := index } passed :=
  ⟨scanned.valid, scanned.closed, scanned.paid, scanned.opened, scanned.matched, scanned.settled⟩

theorem Scanned.known (scanned : Scanned addresses ledger position tables passed)
    (inOrder : InOrder addresses ledger) {key : AddressKey}
    (pays : PaysTo addresses ledger position key)
    (seeded : ∃ first ∈ tables.validAddressIndex.keys, first.account = key.account) :
    key ∈ tables.validAddressIndex.keys := by
  obtain ⟨valid, earlier⟩ := inOrder position key pays
  -- the highest address of the account that is at most the one paid
  obtain ⟨first, member, sameAccount⟩ := seeded
  by_cases reached : ∃ above ∈ tables.validAddressIndex.keys,
      above.account = key.account ∧ key.index ≤ above.index
  · obtain ⟨above, inTable, account, bound⟩ := reached
    rcases Nat.lt_or_eq_of_le bound with below | same
    · have opened := scanned.closed above inTable key.index below
      rw [account] at opened
      exact opened valid
    · cases above
      cases key
      cases account
      cases same
      exact inTable
  · exfalso
    -- every address of the table has been paid, so the table has a higher one
    have climbs : ∀ steps : Nat, ∃ next ∈ tables.validAddressIndex.keys,
        next.account = key.account ∧ steps ≤ next.index := by
      intro steps
      induction steps with
      | zero => exact ⟨first, member, sameAccount, Nat.zero_le _⟩
      | succ steps inductionHypothesis =>
          obtain ⟨next, inTable, account, bound⟩ := inductionHypothesis
          have below : next.index < key.index := by
            by_contra notBelow
            exact reached ⟨next, inTable, account, not_lt.mp notBelow⟩
          have nextValid := scanned.valid next inTable
          have named : next = { account := key.account, index := next.index } := by
            cases next
            cases account
            rfl
          obtain ⟨place, before, paysNext⟩ := earlier next.index below (named ▸ nextValid)
          obtain ⟨higher, inTable', account', above⟩ := scanned.opened place before _ paysNext
          exact ⟨higher, inTable', account', by
            change next.index < higher.index at above
            omega⟩
    obtain ⟨next, inTable, account, bound⟩ := climbs key.index
    exact reached ⟨next, inTable, account, bound⟩

def Highest (tables : ScannerTables) (key : AddressKey) : Prop :=
  key ∈ tables.validAddressIndex.keys ∧
    ∀ other ∈ tables.validAddressIndex.keys, other.account = key.account → other.index ≤ key.index

theorem mem_insertAddress {key other : AddressKey} :
    other ∈ (tables.insertAddress key).validAddressIndex.keys ↔
      key = other ∨ other ∈ tables.validAddressIndex.keys :=
  SortedMap.mem_keys_insert _ _ _ _

theorem Scanned.extend (scanned : Scanned addresses ledger position tables passed)
    {key : AddressKey} (highest : Highest tables key) {place : Nat}
    (pays : PaysTo addresses ledger place key) :
    Scanned addresses ledger position
      (tables.insertAddress
        { account := key.account
          index := addresses.nextValidIndex key.account (key.index + 1) }) passed := by
  have beyond := addresses.le_nextValidIndex key.account (key.index + 1)
  have before : ∀ index < addresses.nextValidIndex key.account (key.index + 1),
      addresses.Valid { account := key.account, index } → index ≤ key.index := by
    intro index below valid
    by_contra above
    have bound : addresses.nextValidIndex key.account (key.index + 1) ≤ index :=
      addresses.nextValidIndex_le (by omega) valid
    omega
  have here : ∀ index ≤ key.index, addresses.Valid { account := key.account, index } →
      { account := key.account, index } ∈ tables.validAddressIndex.keys := by
    intro index bound valid
    rcases Nat.lt_or_eq_of_le bound with below | same
    · exact scanned.closed key highest.1 index below valid
    · subst same
      exact highest.1
  refine ⟨?_, ?_, ?_, ?_, scanned.matched, scanned.settled⟩
  · intro other member
    rcases mem_insertAddress.mp member with isNew | old
    · exact isNew ▸ addresses.nextValidIndex_valid _ _
    · exact scanned.valid other old
  · intro other member index below valid
    apply mem_insertAddress.mpr
    right
    rcases mem_insertAddress.mp member with isNew | old
    · subst isNew
      exact here index (before index below valid) valid
    · exact scanned.closed other old index below valid
  · intro other member index below valid
    rcases mem_insertAddress.mp member with isNew | old
    · subst isNew
      rcases Nat.lt_or_eq_of_le (before index below valid) with earlier | same
      · exact scanned.paid key highest.1 index earlier valid
      · subst same
        exact ⟨place, pays⟩
    · exact scanned.paid other old index below valid
  · intro earlier below other pays'
    obtain ⟨next, member, account, above⟩ := scanned.opened earlier below other pays'
    exact ⟨next, mem_insertAddress.mpr (Or.inr member), account, above⟩

theorem Scanned.pass (scanned : Scanned addresses ledger position tables passed)
    {deposit : Deposit} (here : deposit.output.index = position)
    (pays : PaysTo addresses ledger position deposit.address)
    (opened : ∃ next ∈ tables.validAddressIndex.keys,
      next.account = deposit.address.account ∧ deposit.address.index < next.index)
    (settled : deposit.Settled) :
    Scanned addresses ledger (position + 1) tables (passed ++ [deposit]) := by
  refine ⟨scanned.valid, scanned.closed, scanned.paid, ?_, ?_, ?_⟩
  · intro place below key pays'
    rcases Nat.lt_succ_iff_lt_or_eq.mp below with before | same
    · exact scanned.opened place before key pays'
    · subst same
      exact pays'.unique pays ▸ opened
  · intro place below key pays'
    rcases Nat.lt_succ_iff_lt_or_eq.mp below with before | same
    · obtain ⟨old, member, matches_⟩ := scanned.matched place before key pays'
      exact ⟨old, List.mem_append_left _ member, matches_⟩
    · subst same
      exact ⟨deposit, List.mem_append_right _ (List.mem_singleton.mpr rfl), here,
        pays.unique pays'⟩
  · intro other member
    rcases List.mem_append.mp member with old | new
    · exact scanned.settled other old
    · exact List.mem_singleton.mp new ▸ settled

theorem Scanned.pass_foreign (scanned : Scanned addresses ledger position tables passed)
    (foreign : ∀ key, ¬PaysTo addresses ledger position key) :
    Scanned addresses ledger (position + 1) tables passed :=
  { scanned with
    opened := by
      intro place below key pays
      rcases Nat.lt_succ_iff_lt_or_eq.mp below with before | same
      · exact scanned.opened place before key pays
      · exact absurd (same ▸ pays) (foreign key)
    matched := by
      intro place below key pays
      rcases Nat.lt_succ_iff_lt_or_eq.mp below with before | same
      · exact scanned.matched place before key pays
      · exact absurd (same ▸ pays) (foreign key) }

end

/-! ### The maps of a scan -/

/-- The address map and the frontiers follow the table, where every account
has an address. -/
structure Synced (addresses : Addresses) (scan : Scan) : Prop where
  mapped : ∀ script key, scan.addressMap.get? script = some key ↔
    key ∈ scan.tables.validAddressIndex.keys ∧ script = addresses.deriveAddress key
  frontier : ∀ account, ∃ highest, scan.frontier.get? account = some highest ∧
    Highest scan.tables { account, index := highest }

def Seeded (tables : ScannerTables) : Prop :=
  ∀ account, ∃ key ∈ tables.validAddressIndex.keys, key.account = account

theorem Synced.seeded {scan : Scan} (synced : Synced addresses scan) : Seeded scan.tables := by
  intro account
  obtain ⟨highest, _, member, _⟩ := synced.frontier account
  exact ⟨_, member, rfl⟩

theorem addressMap_get? (keys : List AddressKey) (script : Script) (key : AddressKey) :
    (keys.foldl (fun map key => map.insert (addresses.deriveAddress key) key)
        (SortedMap.empty : SortedMap Script AddressKey)).get? script = some key ↔
      key ∈ keys ∧ script = addresses.deriveAddress key := by
  induction keys using List.reverseRecOn with
  | nil => simp
  | append_singleton keys last inductionHypothesis =>
      rw [List.foldl_append, List.foldl_cons, List.foldl_nil, SortedMap.get?_insert]
      by_cases same : addresses.deriveAddress last = script
      · rw [if_pos same, Option.some.injEq]
        constructor
        · rintro rfl
          exact ⟨List.mem_append_right _ (List.mem_singleton.mpr rfl), same.symm⟩
        · rintro ⟨_, isScript⟩
          exact addresses.address_injective (same.trans isScript)
      · rw [if_neg same, inductionHypothesis, List.mem_append, List.mem_singleton]
        constructor
        · exact fun both => ⟨Or.inl both.1, both.2⟩
        · rintro ⟨old | isLast, isScript⟩
          · exact ⟨old, isScript⟩
          · exact absurd (isLast ▸ isScript.symm) same

theorem frontier_get? (keys : List AddressKey) (account : Account) :
    match (keys.foldl (fun frontier key => frontier.insert key.account
        (match frontier.get? key.account with
          | some highest => max highest key.index
          | none => key.index)) (SortedMap.empty : SortedMap Account Nat)).get? account with
    | none => ∀ key ∈ keys, key.account ≠ account
    | some highest => { account, index := highest } ∈ keys ∧
        ∀ other ∈ keys, other.account = account → other.index ≤ highest := by
  induction keys using List.reverseRecOn with
  | nil => simp
  | append_singleton keys last inductionHypothesis =>
      rw [List.foldl_append, List.foldl_cons, List.foldl_nil, SortedMap.get?_insert]
      by_cases same : last.account = account
      · subst same
        rw [if_pos rfl]
        split at inductionHypothesis
        · rename_i isNone
          rw [isNone]
          refine ⟨List.mem_append_right _ (List.mem_singleton.mpr rfl), ?_⟩
          intro other member sameAccount
          rcases List.mem_append.mp member with old | isLast
          · exact absurd sameAccount (inductionHypothesis other old)
          · rw [List.mem_singleton.mp isLast]
        · rename_i highest isSome
          obtain ⟨inside, above⟩ := inductionHypothesis
          rw [isSome]
          refine ⟨?_, ?_⟩
          · rcases le_total highest last.index with below | below
            · change ({ account := last.account, index := max highest last.index } : AddressKey) ∈ _
              rw [max_eq_right below]
              exact List.mem_append_right _ (List.mem_singleton.mpr rfl)
            · change ({ account := last.account, index := max highest last.index } : AddressKey) ∈ _
              rw [max_eq_left below]
              exact List.mem_append_left _ inside
          · intro other member sameAccount
            rcases List.mem_append.mp member with old | isLast
            · exact (above other old sameAccount).trans (le_max_left _ _)
            · rw [List.mem_singleton.mp isLast]
              exact le_max_right _ _
      · rw [if_neg same]
        split at inductionHypothesis
        · intro key member
          rcases List.mem_append.mp member with old | isLast
          · exact inductionHypothesis key old
          · rw [List.mem_singleton.mp isLast]
            exact same
        · obtain ⟨inside, above⟩ := inductionHypothesis
          refine ⟨List.mem_append_left _ inside, ?_⟩
          intro other member sameAccount
          rcases List.mem_append.mp member with old | isLast
          · exact above other old sameAccount
          · rw [List.mem_singleton.mp isLast] at sameAccount
            exact absurd sameAccount same

theorem Scan.start_synced {tables : ScannerTables} (seeded : Seeded tables) :
    Synced addresses (Scan.start addresses tables) where
  mapped := addressMap_get? tables.validAddressIndex.keys
  frontier := by
    intro account
    have reached := frontier_get? tables.validAddressIndex.keys account
    split at reached
    · obtain ⟨key, member, same⟩ := seeded account
      exact absurd same (reached key member)
    · rename_i highest isSome
      exact ⟨highest, isSome, reached⟩

theorem Synced.extend {scan : Scan} (synced : Synced addresses scan) {key : AddressKey}
    (above : ∀ other ∈ scan.tables.validAddressIndex.keys, other.account = key.account →
      other.index ≤ key.index) : Synced addresses (scan.extend addresses key) where
  mapped := by
    intro script other
    change (scan.addressMap.insert _ _).get? script = _ ↔
      other ∈ (scan.tables.insertAddress key).validAddressIndex.keys ∧ _
    rw [SortedMap.get?_insert, mem_insertAddress]
    by_cases same : addresses.deriveAddress key = script
    · rw [if_pos same, Option.some.injEq]
      constructor
      · rintro rfl
        exact ⟨Or.inl rfl, same.symm⟩
      · rintro ⟨_, isScript⟩
        exact addresses.address_injective (same.trans isScript)
    · rw [if_neg same, synced.mapped]
      constructor
      · exact fun both => ⟨Or.inr both.1, both.2⟩
      · rintro ⟨isKey | old, isScript⟩
        · exact absurd (isKey ▸ isScript.symm) same
        · exact ⟨old, isScript⟩
  frontier := by
    intro account
    change ∃ highest, (scan.frontier.insert _ _).get? account = some highest ∧
      Highest (scan.tables.insertAddress key) _
    rw [SortedMap.get?_insert]
    by_cases same : key.account = account
    · subst same
      rw [if_pos rfl]
      refine ⟨key.index, rfl, mem_insertAddress.mpr (Or.inl rfl), ?_⟩
      intro other member sameAccount
      rcases mem_insertAddress.mp member with isKey | old
      · rw [← isKey]
      · exact above other old sameAccount
    · rw [if_neg same]
      obtain ⟨highest, found, member, bound⟩ := synced.frontier account
      refine ⟨highest, found, mem_insertAddress.mpr (Or.inr member), ?_⟩
      intro other inTable sameAccount
      rcases mem_insertAddress.mp inTable with isKey | old
      · exact absurd (isKey ▸ sameAccount) same
      · exact bound other old sameAccount

/-! ### One output -/

structure ScanSound (addresses : Addresses) (ledger : Ledger curve) (position : Nat)
    (passed : List Deposit) (scan : Scan) : Prop where
  synced : Synced addresses scan
  scanned : Scanned addresses ledger position scan.tables (passed ++ scan.passed)

theorem Scan.output_foreign {answers : Nat → DepositAnswers} {scan : Scan} {info : OutputInfo}
    (unmatched : scan.addressMap.get? info.script = none) :
    scan.output addresses answers info = (scan.advance info.index, none) := by
  unfold Scan.output
  rw [unmatched]

theorem Scan.output_matched {answers : Nat → DepositAnswers} {scan : Scan} {info : OutputInfo}
    {address : AddressKey} {highest : Nat}
    (matched : scan.addressMap.get? info.script = some address)
    (frontier : scan.frontier.get? address.account = some highest) :
    scan.output addresses answers info =
      match claimDeposit (answers info.index) info with
      | .error stop => (scan.extendFrontier addresses address highest, some stop)
      | .ok claimed =>
          ((scan.extendFrontier addresses address highest).pass
            { output := info, address, answers := answers info.index, claimed }, none) := by
  unfold Scan.output
  rw [matched]
  dsimp only
  rewrite [frontier]
  rfl

theorem Scan.extendFrontier_cursor (scan : Scan) (address : AddressKey) (highest : Nat) :
    (scan.extendFrontier addresses address highest).tables.cursor = scan.tables.cursor := by
  unfold Scan.extendFrontier
  split
  · rfl
  · rfl

theorem ScanSound.extendFrontier {position : Nat} {passed : List Deposit} {scan : Scan}
    (sound : ScanSound addresses ledger position passed scan) {address : AddressKey}
    {place highest : Nat} (pays : PaysTo addresses ledger place address)
    (isHighest : Highest scan.tables { account := address.account, index := highest })
    (member : address ∈ scan.tables.validAddressIndex.keys) :
    ScanSound addresses ledger position passed
        (scan.extendFrontier addresses address highest) ∧
      ∃ next ∈ (scan.extendFrontier addresses address highest).tables.validAddressIndex.keys,
        next.account = address.account ∧ address.index < next.index := by
  unfold Scan.extendFrontier
  by_cases atFrontier : address.index = highest
  · rw [if_pos atFrontier]
    have same : ({ account := address.account, index := highest } : AddressKey) = address := by
      cases address
      cases atFrontier
      rfl
    rw [same] at isHighest
    subst atFrontier
    have beyond := addresses.le_nextValidIndex address.account (address.index + 1)
    refine ⟨⟨sound.synced.extend ?_, sound.scanned.extend isHighest pays⟩, ?_⟩
    · intro other inTable sameAccount
      have bound := isHighest.2 other inTable sameAccount
      change other.index ≤ addresses.nextValidIndex address.account (address.index + 1)
      omega
    · exact ⟨_, mem_insertAddress.mpr (Or.inl rfl), rfl, beyond⟩
  · rw [if_neg atFrontier]
    have bound := isHighest.2 address member rfl
    exact ⟨sound, _, isHighest.1, rfl, lt_of_le_of_ne bound atFrontier⟩

theorem ScanSound.output {position stop : Nat} {passed : List Deposit} {scan : Scan}
    (sound : ScanSound addresses ledger position passed scan)
    (inOrder : InOrder addresses ledger) (answers : Nat → DepositAnswers) {info : OutputInfo}
    {rest : List OutputInfo} (slice : Slice addresses ledger position stop (info :: rest)) :
    (∃ next, scan.output addresses answers info = (next, none) ∧
        next.tables.cursor = info.index + 1 ∧
        ScanSound addresses ledger (info.index + 1) passed next) ∨
      ∃ next reason, scan.output addresses answers info = (next, some reason) ∧
        reason ≠ .panicked ∧ next.tables.cursor = scan.tables.cursor ∧
        ScanSound addresses ledger position passed next := by
  obtain ⟨tracked, found, isScript, _⟩ := slice.script info List.mem_cons_self
  have here := sound.scanned.skip (fun _ => slice.gap)
  cases matched : scan.addressMap.get? info.script with
  | none =>
      refine Or.inl ⟨_, Scan.output_foreign matched, rfl, ⟨⟨sound.synced.mapped,
        sound.synced.frontier⟩, ?_⟩⟩
      refine (here.pass_foreign ?_).cursor _
      intro key pays
      have known := here.known inOrder pays (sound.synced.seeded key.account)
      obtain ⟨other, foundOther, pays⟩ := pays
      cases found.symm.trans foundOther
      have isMapped := (sound.synced.mapped info.script key).mpr ⟨known, isScript ▸ pays⟩
      rw [matched] at isMapped
      cases isMapped
  | some address =>
      obtain ⟨member, script⟩ := (sound.synced.mapped _ _).mp matched
      have pays : PaysTo addresses ledger info.index address :=
        ⟨tracked, found, isScript.trans script⟩
      obtain ⟨highest, frontier, isHighest⟩ := sound.synced.frontier address.account
      rw [Scan.output_matched matched frontier]
      cases settled : claimDeposit (answers info.index) info with
      | error reason =>
          refine Or.inr ⟨_, reason, rfl, ?_, ?_, (sound.extendFrontier pays isHighest member).1⟩
          · exact claimDeposit_error settled
          · exact Scan.extendFrontier_cursor scan address highest
      | ok claimed =>
          obtain ⟨extended, opened⟩ :=
            (ScanSound.extendFrontier ⟨sound.synced, here⟩ pays isHighest member)
          refine Or.inl ⟨_, rfl, rfl, ⟨⟨extended.synced.mapped, extended.synced.frontier⟩, ?_⟩⟩
          have settledHere : Deposit.Settled
              { output := info, address, answers := answers info.index, claimed } :=
            claimDeposit_ok settled
          have passedHere := extended.scanned.pass rfl pays opened settledHere
          rw [List.append_assoc] at passedHere
          exact passedHere.cursor _

/-! ### A whole run -/

/-- A run ends at a cursor its scan is sound at; a run to the end of the slice
leaves the cursor behind the slice's last output. -/
theorem ScanSound.outputs {position stop : Nat} {passed : List Deposit} {scan : Scan}
    (sound : ScanSound addresses ledger position passed scan) (inOrder : InOrder addresses ledger)
    (answers : Nat → DepositAnswers) {infos : List OutputInfo}
    (slice : Slice addresses ledger position stop infos)
    (atCursor : scan.tables.cursor = position) :
    ∃ next reason, scan.outputs addresses answers infos = (next, reason) ∧
      reason ≠ some .panicked ∧ ScanSound addresses ledger next.tables.cursor passed next ∧
      position ≤ next.tables.cursor ∧
      (next.tables.cursor = position ∨
        ∃ place, Taproot addresses ledger place ∧ next.tables.cursor = place + 1) ∧
      (reason = none → next.tables.cursor =
        (infos.getLast?.map (fun info => info.index + 1)).getD position) := by
  induction infos generalizing position scan with
  | nil =>
      exact ⟨scan, none, rfl, Option.some_ne_none _ |>.symm, atCursor ▸ sound, atCursor.ge,
        Or.inl atCursor, fun _ => atCursor⟩
  | cons info rest inductionHypothesis =>
      have inside := (slice.inside info List.mem_cons_self).1
      rcases sound.output inOrder answers slice with ⟨next, result, cursor, after⟩ |
        ⟨next, reason, result, unbroken, cursor, after⟩
      · obtain ⟨final, reason, ran, unbroken, finalSound, above, reached, complete⟩ :=
          inductionHypothesis after slice.tail cursor
        obtain ⟨tracked, found, same, taproot⟩ := slice.script info List.mem_cons_self
        refine ⟨final, reason, ?_, unbroken, finalSound, by omega, Or.inr ?_, ?_⟩
        · unfold Scan.outputs
          rw [result]
          exact ran
        · rcases reached with here | later
          · exact ⟨info.index, ⟨tracked, found, same ▸ taproot⟩, here⟩
          · exact later
        · intro finished
          rw [complete finished]
          cases rest with
          | nil => rfl
          | cons second rest => rw [List.getLast?_cons_cons]; rfl
      · refine ⟨next, some reason, ?_, ?_, ?_, ?_, Or.inl (cursor.trans atCursor), ?_⟩
        · unfold Scan.outputs
          rw [result]
        · intro same
          exact unbroken (Option.some.inj same)
        · rw [cursor, atCursor]
          exact after
        · rw [cursor, atCursor]
        · intro impossible
          cases impossible

end Picomint.Client
