/-
The search for the largest amount a payment through a gateway can have.

The gateway announces its fee, and the search prices amounts with it before
the fee is checked against its limit.  A sum that overflows wraps around or
panics, by the kind of build.
-/

import Picomint.Client.BundleAmounts
import Picomint.Client.MaxSend

namespace Picomint.Client

open Consensus

/-! ### The two kinds of builds -/

inductive Build where
  | release
  | debug
deriving DecidableEq, Repr

namespace Build

def add : Build → Nat → Nat → Attempt Nat
  | .release, left, right => .ok (amountAdd left right)
  | .debug, left, right => demand (checkedAdd left right)

/-- `Denomination::amount`. -/
def amount : Build → Denomination → Attempt Nat
  | .release, denomination => .ok denomination.amount
  | .debug, denomination => demand (checkedShift denomination)

/-- `note_value`, which expects every note of the account to be economical. -/
def noteValue (build : Build) (denomination : Denomination) : Attempt Nat := do
  let amount ← build.amount denomination
  demand (checkedSub amount ECASH_INPUT_FEE)

def maxSpendable (build : Build) (notes : List SpendableNote) : Attempt Nat :=
  notes.foldlM (fun total note => do build.add total (← build.noteValue note.denomination)) 0

/-- The loop of the search; the interval shrinks with every turn. -/
def searchAmount (total : Nat → Attempt Nat) (spendable : Nat) : Nat → Nat → Nat → Attempt Nat
  | 0, lo, _ => .ok lo
  | fuel + 1, lo, hi =>
      if lo < hi then do
        let mid := (lo + hi + 1) / 2
        let price ← total (amountFromSat mid)
        if price ≤ spendable then searchAmount total spendable fuel mid hi
        else searchAmount total spendable fuel lo (mid - 1)
      else .ok lo

/-- The price of an amount, which the search compares. -/
def total (build : Build) (railFees : Nat → Attempt Nat) (amount : Nat) : Attempt Nat := do
  let fees ← railFees amount
  build.add amount fees

def largestAffordableAmount (build : Build) (notes : List SpendableNote)
    (railFees : Nat → Attempt Nat) : Attempt Nat := do
  let spendable ← build.maxSpendable notes
  let least ← build.total railFees 0
  if spendable < least then return 0
  else do
    let lo ← searchAmount (build.total railFees) spendable (spendable / 1000) 0 (spendable / 1000)
    return amountFromSat lo

/-- The gateway's fee on a payment, if it goes through one. -/
def gatewayFee (gatewayInfo : Option PaymentFee) (amount : Nat) : Attempt Nat :=
  match gatewayInfo with
  | none => .ok 0
  | some sendFee => sendFee.absoluteFee amount

def railFees (build : Build) (gatewayInfo : Option PaymentFee) (amount : Nat) : Attempt Nat := do
  let fee ← gatewayFee gatewayInfo amount
  build.add fee LIGHTNING_OUTPUT_FEE

def sendMaxAmount (build : Build) (notes : List SpendableNote)
    (gatewayInfo : Option PaymentFee) : Attempt Nat :=
  build.largestAffordableAmount notes (build.railFees gatewayInfo)

end Build

/-! ### The exact amount -/

def deliverable (notes : List SpendableNote) : Nat :=
  (notes.map fun note => 2 ^ note.denomination - ECASH_INPUT_FEE).sum

def sendFees (gatewayInfo : Option PaymentFee) (amount : Nat) : Nat :=
  match gatewayInfo with
  | none => LIGHTNING_OUTPUT_FEE
  | some sendFee =>
      saturatingMul amount sendFee.ppm / 1000000 + sendFee.base + LIGHTNING_OUTPUT_FEE

def price (gatewayInfo : Option PaymentFee) (sat : Nat) : Nat :=
  fromSat sat + sendFees gatewayInfo (fromSat sat)

/-- The largest whole-sat amount that is paid for with its fees, zero if none
is. -/
def IsLargest (gatewayInfo : Option PaymentFee) (spendable amount : Nat) : Prop :=
  IsGreatest {amount | ∃ sat, amount = fromSat sat ∧ price gatewayInfo sat ≤ spendable} amount ∨
    amount = 0 ∧ ∀ sat, spendable < price gatewayInfo sat

/-- No sum overflows and no expectation fails, and the amount is the largest. -/
def SendsExactly (notes : List SpendableNote) (gatewayInfo : Option PaymentFee) : Prop :=
  ∃ amount, Build.sendMaxAmount .debug notes gatewayInfo = .ok amount ∧
    Build.sendMaxAmount .release notes gatewayInfo = .ok amount ∧
    IsLargest gatewayInfo (deliverable notes) amount

/-- The amounts the search tries as long as they fit. -/
def probe (top turn : Nat) : Nat := top - top / 2 ^ turn

/-- Every note is worth its fee, their sum fits, the fees on nothing fit, and
after every amount that is paid for so does the price of the next one tried. -/
def PricesFit (notes : List SpendableNote) (gatewayInfo : Option PaymentFee) : Prop :=
  (∀ note ∈ notes, note.denomination < 64 ∧ ECASH_INPUT_FEE ≤ 2 ^ note.denomination) ∧
    deliverable notes < U64_BOUND ∧ price gatewayInfo 0 < U64_BOUND ∧
    ∀ turn, price gatewayInfo (probe (deliverable notes / 1000) turn) ≤ deliverable notes →
      price gatewayInfo (probe (deliverable notes / 1000) (turn + 1)) < U64_BOUND

/-! ### Sums -/

/-- Where a build that checks goes through, one that wraps agrees. -/
theorem Build.add_debug {left right sum : Nat} :
    Build.debug.add left right = .ok sum ↔ sum = left + right ∧ sum < U64_BOUND := by
  unfold Build.add
  rw [demand_eq_ok, checkedAdd_eq_some]

theorem Build.add_release {left right : Nat} (fits : left + right < U64_BOUND) :
    Build.release.add left right = .ok (left + right) :=
  congrArg Except.ok (Nat.mod_eq_of_lt fits)

theorem Build.noteValue_debug {denomination : Denomination} {value : Nat} :
    Build.debug.noteValue denomination = .ok value ↔ denomination < 64 ∧
      ECASH_INPUT_FEE ≤ 2 ^ denomination ∧ value = 2 ^ denomination - ECASH_INPUT_FEE := by
  unfold Build.noteValue Build.amount checkedShift
  rw [attempt_bind_eq_ok]
  constructor
  · rintro ⟨amount, shifted, subtracted⟩
    rw [demand_eq_ok] at shifted subtracted
    split at shifted
    · rename_i small
      cases shifted
      rw [checkedSub_eq_some] at subtracted
      exact ⟨small, by omega, by omega⟩
    · cases shifted
  · rintro ⟨small, worth, rfl⟩
    refine ⟨2 ^ denomination, demand_eq_ok.mpr (if_pos small), ?_⟩
    rw [demand_eq_ok, checkedSub_eq_some]
    omega

theorem Build.noteValue_release {denomination : Denomination} (small : denomination < 64)
    (worth : ECASH_INPUT_FEE ≤ 2 ^ denomination) :
    Build.release.noteValue denomination = .ok (2 ^ denomination - ECASH_INPUT_FEE) := by
  unfold Build.noteValue Build.amount
  rw [attempt_bind_eq_ok]
  refine ⟨2 ^ denomination, congrArg Except.ok (amount_eq_face small), ?_⟩
  rw [demand_eq_ok, checkedSub_eq_some]
  omega

theorem deliverable_cons (note : SpendableNote) (notes : List SpendableNote) :
    deliverable (note :: notes) =
      2 ^ note.denomination - ECASH_INPUT_FEE + deliverable notes := rfl

/-- The sum of the notes goes through exactly if every one is economical and
they fit. -/
theorem Build.maxSpendable_debug {notes : List SpendableNote} {total : Nat} :
    Build.debug.maxSpendable notes = .ok total ↔
      (∀ note ∈ notes, note.denomination < 64 ∧ ECASH_INPUT_FEE ≤ 2 ^ note.denomination) ∧
        deliverable notes < U64_BOUND ∧ total = deliverable notes := by
  have from_start : ∀ (notes : List SpendableNote) (start : Nat), start < U64_BOUND →
      (notes.foldlM (fun total note => do
        Build.debug.add total (← Build.debug.noteValue note.denomination)) start = .ok total ↔
        (∀ note ∈ notes, note.denomination < 64 ∧ ECASH_INPUT_FEE ≤ 2 ^ note.denomination) ∧
          start + deliverable notes < U64_BOUND ∧ total = start + deliverable notes) := by
    intro notes
    induction notes with
    | nil =>
        intro start below
        have nothing : deliverable [] = 0 := rfl
        rw [List.foldlM_nil, nothing, Nat.add_zero]
        constructor
        · intro same
          cases same
          exact ⟨fun _ impossible => (List.not_mem_nil impossible).elim, below, rfl⟩
        · rintro ⟨_, _, rfl⟩
          rfl
    | cons note notes ih =>
        intro start below
        rw [List.foldlM_cons, List.forall_mem_cons, deliverable_cons, attempt_bind_eq_ok]
        constructor
        · rintro ⟨next, added, rest⟩
          rw [attempt_bind_eq_ok] at added
          obtain ⟨value, isValue, isSum⟩ := added
          obtain ⟨small, worth, rfl⟩ := Build.noteValue_debug.mp isValue
          obtain ⟨rfl, fits⟩ := Build.add_debug.mp isSum
          obtain ⟨economical, whole, isTotal⟩ := (ih _ fits).mp rest
          exact ⟨⟨⟨small, worth⟩, economical⟩, by omega, by omega⟩
        · rintro ⟨⟨⟨small, worth⟩, economical⟩, whole, isTotal⟩
          have fits : start + (2 ^ note.denomination - ECASH_INPUT_FEE) < U64_BOUND := by omega
          refine ⟨_, attempt_bind_eq_ok.mpr ⟨_, Build.noteValue_debug.mpr ⟨small, worth, rfl⟩,
            Build.add_debug.mpr ⟨rfl, fits⟩⟩, ?_⟩
          exact (ih _ fits).mpr ⟨economical, by omega, by omega⟩
  unfold Build.maxSpendable
  rw [from_start notes 0 (by decide), Nat.zero_add]

theorem Build.maxSpendable_release {notes : List SpendableNote}
    (economical : ∀ note ∈ notes,
      note.denomination < 64 ∧ ECASH_INPUT_FEE ≤ 2 ^ note.denomination)
    (fits : deliverable notes < U64_BOUND) :
    Build.release.maxSpendable notes = .ok (deliverable notes) := by
  have from_start : ∀ (notes : List SpendableNote) (start : Nat),
      (∀ note ∈ notes, note.denomination < 64 ∧ ECASH_INPUT_FEE ≤ 2 ^ note.denomination) →
      start + deliverable notes < U64_BOUND →
      notes.foldlM (fun total note => do
        Build.release.add total (← Build.release.noteValue note.denomination)) start =
          .ok (start + deliverable notes) := by
    intro notes
    induction notes with
    | nil => exact fun start _ _ => rfl
    | cons note notes ih =>
        intro start economical fits
        obtain ⟨⟨small, worth⟩, rest⟩ := List.forall_mem_cons.mp economical
        rw [deliverable_cons, ← Nat.add_assoc] at fits ⊢
        rw [List.foldlM_cons, attempt_bind_eq_ok]
        refine ⟨start + (2 ^ note.denomination - ECASH_INPUT_FEE), ?_, ih _ rest fits⟩
        rw [attempt_bind_eq_ok]
        exact ⟨_, Build.noteValue_release small worth, Build.add_release (by omega)⟩
  unfold Build.maxSpendable
  rw [from_start notes 0 economical (by rwa [Nat.zero_add]), Nat.zero_add]

/-! ### Prices -/

section Prices

variable {gatewayInfo : Option PaymentFee}

theorem absoluteFee_eq_ok {fee : PaymentFee} {msat result : Nat} :
    fee.absoluteFee msat = .ok result ↔
      result = saturatingMul msat fee.ppm / 1000000 + fee.base ∧ result < U64_BOUND := by
  unfold PaymentFee.absoluteFee
  rw [demand_eq_ok, checkedAdd_eq_some]

theorem outputFee_le_sendFees (gatewayInfo : Option PaymentFee) (amount : Nat) :
    LIGHTNING_OUTPUT_FEE ≤ sendFees gatewayInfo amount := by
  unfold sendFees
  cases gatewayInfo with
  | none => exact le_rfl
  | some fee => exact Nat.le_add_left _ _

theorem gatewayFee_eq_ok {amount fee : Nat} :
    Build.gatewayFee gatewayInfo amount = .ok fee ↔
      fee + LIGHTNING_OUTPUT_FEE = sendFees gatewayInfo amount ∧ fee < U64_BOUND := by
  unfold Build.gatewayFee sendFees
  cases gatewayInfo with
  | none =>
      simp only [Except.ok.injEq]
      constructor
      · rintro rfl
        exact ⟨Nat.zero_add _, by decide⟩
      · rintro ⟨sum, _⟩
        omega
  | some sendFee =>
      simp only [absoluteFee_eq_ok]
      omega

theorem Build.railFees_debug {amount fees : Nat} :
    Build.debug.railFees gatewayInfo amount = .ok fees ↔
      fees = sendFees gatewayInfo amount ∧ fees < U64_BOUND := by
  have part := outputFee_le_sendFees gatewayInfo amount
  unfold Build.railFees
  rw [attempt_bind_eq_ok]
  constructor
  · rintro ⟨fee, isFee, isSum⟩
    obtain ⟨sum, _⟩ := gatewayFee_eq_ok.mp isFee
    obtain ⟨rfl, fits⟩ := Build.add_debug.mp isSum
    exact ⟨sum, fits⟩
  · rintro ⟨rfl, fits⟩
    refine ⟨sendFees gatewayInfo amount - LIGHTNING_OUTPUT_FEE,
      gatewayFee_eq_ok.mpr ⟨by omega, by omega⟩, Build.add_debug.mpr ⟨by omega, fits⟩⟩

theorem Build.total_debug {amount result : Nat} :
    Build.debug.total (Build.debug.railFees gatewayInfo) amount = .ok result ↔
      result = amount + sendFees gatewayInfo amount ∧ result < U64_BOUND := by
  unfold Build.total
  rw [attempt_bind_eq_ok]
  constructor
  · rintro ⟨fees, isFees, isSum⟩
    obtain ⟨rfl, _⟩ := Build.railFees_debug.mp isFees
    exact Build.add_debug.mp isSum
  · rintro ⟨rfl, fits⟩
    exact ⟨_, Build.railFees_debug.mpr ⟨rfl, by omega⟩, Build.add_debug.mpr ⟨rfl, fits⟩⟩

theorem Build.total_release {amount : Nat}
    (fits : amount + sendFees gatewayInfo amount < U64_BOUND) :
    Build.release.total (Build.release.railFees gatewayInfo) amount =
      .ok (amount + sendFees gatewayInfo amount) := by
  have part := outputFee_le_sendFees gatewayInfo amount
  have isFees : Build.release.railFees gatewayInfo amount =
      .ok (sendFees gatewayInfo amount) := by
    unfold Build.railFees
    rw [attempt_bind_eq_ok]
    refine ⟨sendFees gatewayInfo amount - LIGHTNING_OUTPUT_FEE,
      gatewayFee_eq_ok.mpr ⟨by omega, by omega⟩, ?_⟩
    rw [Build.add_release (by omega), Nat.sub_add_cancel part]
  unfold Build.total
  rw [attempt_bind_eq_ok]
  exact ⟨_, isFees, Build.add_release fits⟩

theorem sendFees_mono {first second : Nat} (order : first ≤ second) :
    sendFees gatewayInfo first ≤ sendFees gatewayInfo second := by
  unfold sendFees
  cases gatewayInfo with
  | none => exact le_rfl
  | some fee =>
      have parts : saturatingMul first fee.ppm / 1000000 ≤ saturatingMul second fee.ppm / 1000000 :=
        Nat.div_le_div_right (saturatingMul_mono fee.ppm order)
      simp only
      omega

theorem price_mono {first second : Nat} (order : first ≤ second) :
    price gatewayInfo first ≤ price gatewayInfo second := by
  have scaled : fromSat first ≤ fromSat second := Nat.mul_le_mul_right 1000 order
  exact Nat.add_le_add scaled (sendFees_mono scaled)

theorem le_price (sat : Nat) : fromSat sat ≤ price gatewayInfo sat := Nat.le_add_right _ _

end Prices

/-! ### The search -/

section Search

variable {gatewayInfo : Option PaymentFee} {spendable : Nat}

/-- From the bounds of an interval on, every amount that is tried after paid
ones has a price that fits. -/
def SearchFits (gatewayInfo : Option PaymentFee) (spendable lo hi : Nat) : Prop :=
  ∀ turn, price gatewayInfo (hi - (hi - lo) / 2 ^ turn) ≤ spendable →
    price gatewayInfo (hi - (hi - lo) / 2 ^ (turn + 1)) < U64_BOUND

theorem amountFromSat_small {sat : Nat} (below : sat ≤ spendable / 1000)
    (bound : spendable < U64_BOUND) : amountFromSat sat = fromSat sat :=
  amountFromSat_of_le below bound

theorem middle_eq {lo hi : Nat} (ordered : lo ≤ hi) :
    hi - (hi - lo) / 2 = (lo + hi + 1) / 2 := by omega

theorem half_interval {lo hi : Nat} (ordered : lo ≤ hi) (turn : Nat) :
    hi - (hi - (lo + hi + 1) / 2) / 2 ^ turn = hi - (hi - lo) / 2 ^ (turn + 1) := by
  have half : hi - (lo + hi + 1) / 2 = (hi - lo) / 2 := by omega
  rw [half, Nat.div_div_eq_div_mul, ← Nat.pow_succ']

/-- The middle is the first amount tried, and the later ones are above it as
long as the search goes up. -/
theorem searchFits_iff {lo hi : Nat} (ordered : lo ≤ hi)
    (paid : price gatewayInfo lo ≤ spendable) :
    SearchFits gatewayInfo spendable lo hi ↔
      price gatewayInfo ((lo + hi + 1) / 2) < U64_BOUND ∧
        (price gatewayInfo ((lo + hi + 1) / 2) ≤ spendable →
          SearchFits gatewayInfo spendable ((lo + hi + 1) / 2) hi) := by
  have first : hi - (hi - lo) / 2 ^ 0 = lo := by
    rw [Nat.pow_zero, Nat.div_one]
    omega
  have second : hi - (hi - lo) / 2 ^ (0 + 1) = (lo + hi + 1) / 2 := by
    rw [Nat.zero_add, Nat.pow_one]
    exact middle_eq ordered
  constructor
  · intro fits
    have middle := fits 0 (first.symm ▸ paid)
    rw [second] at middle
    refine ⟨middle, fun _ turn small => ?_⟩
    rw [half_interval ordered] at small ⊢
    exact fits (turn + 1) small
  · rintro ⟨middle, later⟩ turn small
    cases turn with
    | zero => exact second.symm ▸ middle
    | succ turn =>
        rw [← half_interval ordered] at small
        have above : (lo + hi + 1) / 2 ≤ hi - (hi - (lo + hi + 1) / 2) / 2 ^ turn := by
          have part := Nat.div_le_self (hi - (lo + hi + 1) / 2) (2 ^ turn)
          omega
        have next := later ((price_mono above).trans small) turn small
        rw [half_interval ordered] at next
        exact next

theorem searchFits_of_eq {lo hi : Nat} (same : lo = hi) (bound : spendable < U64_BOUND) :
    SearchFits gatewayInfo spendable lo hi := by
  subst same
  intro turn small
  rw [Nat.sub_self, Nat.zero_div] at small ⊢
  exact small.trans_lt bound

theorem searchFits_of_lt {lo hi : Nat} (fits : price gatewayInfo hi < U64_BOUND) :
    SearchFits gatewayInfo spendable lo hi :=
  fun _ _ => (price_mono (Nat.sub_le _ _)).trans_lt fits

theorem searchAmount_of_fits (bound : spendable < U64_BOUND) (fuel : Nat) {lo hi : Nat}
    (ordered : lo ≤ hi) (top : hi ≤ spendable / 1000) (paid : price gatewayInfo lo ≤ spendable)
    (fits : SearchFits gatewayInfo spendable lo hi) :
    Build.searchAmount (Build.debug.total (Build.debug.railFees gatewayInfo)) spendable fuel lo hi =
        .ok (searchAmount (fun amount => amount + sendFees gatewayInfo amount) spendable fuel lo hi) ∧
      Build.searchAmount (Build.release.total (Build.release.railFees gatewayInfo)) spendable fuel
          lo hi =
        .ok (searchAmount (fun amount => amount + sendFees gatewayInfo amount) spendable fuel
          lo hi) := by
  induction fuel generalizing lo hi with
  | zero => exact ⟨rfl, rfl⟩
  | succ fuel ih =>
      unfold Build.searchAmount searchAmount
      by_cases interval : lo < hi
      · obtain ⟨middle, later⟩ := (searchFits_iff ordered paid).mp fits
        have isAmount : amountFromSat ((lo + hi + 1) / 2) = fromSat ((lo + hi + 1) / 2) :=
          amountFromSat_small (by omega) bound
        simp only [if_pos interval, isAmount]
        rw [Build.total_debug.mpr ⟨rfl, middle⟩, Build.total_release middle]
        change (if price gatewayInfo ((lo + hi + 1) / 2) ≤ spendable then _ else _) =
            Except.ok (if price gatewayInfo ((lo + hi + 1) / 2) ≤ spendable then _ else _) ∧
          (if price gatewayInfo ((lo + hi + 1) / 2) ≤ spendable then _ else _) =
            Except.ok (if price gatewayInfo ((lo + hi + 1) / 2) ≤ spendable then _ else _)
        by_cases affordable : price gatewayInfo ((lo + hi + 1) / 2) ≤ spendable
        · simp only [if_pos affordable]
          exact ih (by omega) top affordable (later affordable)
        · simp only [if_neg affordable]
          refine ih (by omega) (by omega) paid (searchFits_of_lt ?_)
          exact (price_mono (by omega)).trans_lt middle
      · simp only [if_neg interval]
        exact ⟨trivial, trivial⟩

/-- A build that checks fails at the first price that does not fit. -/
theorem searchFits_of_debug (bound : spendable < U64_BOUND) (fuel : Nat) {lo hi : Nat}
    (enough : hi - lo ≤ fuel) (ordered : lo ≤ hi) (top : hi ≤ spendable / 1000)
    (paid : price gatewayInfo lo ≤ spendable) {found : Nat}
    (searched : Build.searchAmount (Build.debug.total (Build.debug.railFees gatewayInfo)) spendable
      fuel lo hi = .ok found) : SearchFits gatewayInfo spendable lo hi := by
  induction fuel generalizing lo hi with
  | zero => exact searchFits_of_eq (by omega) bound
  | succ fuel ih =>
      by_cases interval : lo < hi
      · unfold Build.searchAmount at searched
        have isAmount : amountFromSat ((lo + hi + 1) / 2) = fromSat ((lo + hi + 1) / 2) :=
          amountFromSat_small (by omega) bound
        simp only [if_pos interval, isAmount, attempt_bind_eq_ok] at searched
        obtain ⟨value, isPrice, rest⟩ := searched
        obtain ⟨rfl, middle⟩ := Build.total_debug.mp isPrice
        refine (searchFits_iff ordered paid).mpr ⟨middle, fun affordable => ?_⟩
        unfold price at affordable
        rw [if_pos affordable] at rest
        exact ih (by omega) (by omega) top affordable rest
      · exact searchFits_of_eq (by omega) bound

end Search

/-! ### The amount -/

section Amount

variable {notes : List SpendableNote} {gatewayInfo : Option PaymentFee}

theorem price_zero : price gatewayInfo 0 = 0 + sendFees gatewayInfo 0 := rfl

theorem searchAmount_largest {spendable : Nat} (bound : spendable < U64_BOUND)
    (paid : price gatewayInfo 0 ≤ spendable) :
    IsLargest gatewayInfo spendable (amountFromSat (searchAmount
      (fun amount => amount + sendFees gatewayInfo amount) spendable (spendable / 1000) 0
        (spendable / 1000))) := by
  obtain ⟨below, covered, maximal⟩ := searchAmount_spec
    (fun amount => amount + sendFees gatewayInfo amount) (spendable / 1000) 0 (spendable / 1000)
    (by omega) (Nat.zero_le _) paid (Or.inl rfl)
  obtain ⟨found, isFound⟩ : ∃ found, searchAmount
    (fun amount => amount + sendFees gatewayInfo amount) spendable (spendable / 1000) 0
      (spendable / 1000) = found := ⟨_, rfl⟩
  rw [isFound] at below covered maximal ⊢
  have isAmount : amountFromSat found = fromSat found := amountFromSat_small below bound
  rw [isAmount] at covered ⊢
  refine Or.inl ⟨⟨found, rfl, covered⟩, ?_⟩
  rintro amount ⟨sat, rfl, affordable⟩
  have whole := (le_price sat).trans affordable
  refine Nat.mul_le_mul_right 1000 (not_lt.mp fun more => ?_)
  unfold fromSat at whole
  rcases maximal with isTop | dear
  · omega
  · have next : amountFromSat (found + 1) = fromSat (found + 1) :=
      amountFromSat_small (by omega) bound
    rw [next] at dear
    have order : price gatewayInfo (found + 1) ≤ price gatewayInfo sat := price_mono more
    exact absurd (order.trans affordable) (not_le.mpr dear)

end Amount

/-- A fee within the limit of the client fits every balance below `2^62`. -/
theorem pricesFit_of_within {notes : List SpendableNote} {sendFee : PaymentFee}
    (within : sendFee.isWithin PaymentFee.SEND_FEE_LIMIT)
    (economical : ∀ note ∈ notes,
      note.denomination < 64 ∧ ECASH_INPUT_FEE ≤ 2 ^ note.denomination)
    (small : deliverable notes < 2 ^ 62) : PricesFit notes (some sendFee) := by
  unfold PaymentFee.isWithin PaymentFee.SEND_FEE_LIMIT at within
  rw [Bool.and_eq_true, decide_eq_true_eq, decide_eq_true_eq] at within
  have base : sendFee.base ≤ 50000 := within.1
  have bound : U64_BOUND = 2 ^ 64 := rfl
  have fits : ∀ sat, sat ≤ deliverable notes / 1000 → price (some sendFee) sat < U64_BOUND := by
    intro sat below
    have part : saturatingMul (fromSat sat) sendFee.ppm ≤ fromSat sat * 10000 :=
      (min_le_left _ _).trans (Nat.mul_le_mul_left _ within.2)
    have output : LIGHTNING_OUTPUT_FEE = 1000 := rfl
    change fromSat sat + (saturatingMul (fromSat sat) sendFee.ppm / 1000000 + sendFee.base +
      LIGHTNING_OUTPUT_FEE) < U64_BOUND
    unfold fromSat at part ⊢
    omega
  refine ⟨economical, by omega, fits 0 (Nat.zero_le _), fun turn _ => fits _ (Nat.sub_le _ _)⟩

/-- The search neither overflows nor panics and finds the largest amount
exactly if the prices it meets fit. -/
theorem send_max_exact_iff (notes : List SpendableNote) (gatewayInfo : Option PaymentFee) :
    SendsExactly notes gatewayInfo ↔ PricesFit notes gatewayInfo := by
  unfold SendsExactly PricesFit Build.sendMaxAmount Build.largestAffordableAmount
  constructor
  · rintro ⟨amount, checked, _, _⟩
    simp only [attempt_bind_eq_ok] at checked
    obtain ⟨spendable, isSpendable, least, isLeast, rest⟩ := checked
    obtain ⟨economical, bound, rfl⟩ := Build.maxSpendable_debug.mp isSpendable
    obtain ⟨rfl, first⟩ := Build.total_debug.mp isLeast
    refine ⟨economical, bound, first, ?_⟩
    split at rest
    · rename_i dear
      intro turn affordable
      have order : price gatewayInfo 0 ≤
          price gatewayInfo (probe (deliverable notes / 1000) turn) := price_mono (Nat.zero_le _)
      rw [price_zero] at order
      exact absurd (order.trans affordable) (not_le.mpr dear)
    · rename_i affordable
      obtain ⟨found, searched, _⟩ := attempt_bind_eq_ok.mp rest
      have fits := searchFits_of_debug bound _ (by omega) (Nat.zero_le _) le_rfl
        (not_lt.mp affordable) searched
      intro turn
      exact fits turn
  · rintro ⟨economical, bound, first, fits⟩
    have spendableDebug := Build.maxSpendable_debug.mpr ⟨economical, bound, rfl⟩
    have spendableRelease := Build.maxSpendable_release economical bound
    have leastDebug : Build.debug.total (Build.debug.railFees gatewayInfo) 0 =
        .ok (price gatewayInfo 0) := Build.total_debug.mpr ⟨price_zero, first⟩
    have leastRelease : Build.release.total (Build.release.railFees gatewayInfo) 0 =
        .ok (price gatewayInfo 0) := Build.total_release first
    simp only [spendableDebug, spendableRelease, leastDebug, leastRelease, bind, Except.bind]
    by_cases dear : deliverable notes < price gatewayInfo 0
    · simp only [if_pos dear]
      refine ⟨0, rfl, rfl, Or.inr ⟨rfl, fun sat => ?_⟩⟩
      exact dear.trans_le (price_mono (Nat.zero_le sat))
    · simp only [if_neg dear]
      obtain ⟨debug, release⟩ := searchAmount_of_fits bound (deliverable notes / 1000)
        (Nat.zero_le _) le_rfl (not_lt.mp dear) fits
      rw [debug, release]
      exact ⟨_, rfl, rfl, searchAmount_largest bound (not_lt.mp dear)⟩

/-! A gateway that announces the largest base fee, and an account with a note of
2^20 msat. -/

def largestBase : PaymentFee :=
  { base := 2 ^ 64 - 1
    ppm := 10000 }

/-- The release build prices nothing at 999 msat and panics at 524 sat, the first
amount it tries. -/
theorem send_max_panics :
    Build.sendMaxAmount .release [sampleNoteOf 1 20] (some largestBase) = .error .panicked ∧
    Build.sendMaxAmount .debug [sampleNoteOf 1 20] (some largestBase) = .error .panicked ∧
    IsLargest (some largestBase) (deliverable [sampleNoteOf 1 20]) 0 := by
  refine ⟨by decide +kernel, by decide +kernel, Or.inr ⟨rfl, fun sat => ?_⟩⟩
  have order : price (some largestBase) 0 ≤ price (some largestBase) sat :=
    price_mono (Nat.zero_le sat)
  exact lt_of_lt_of_le (by decide) order

end Picomint.Client
