/-
What the decoder yields for fragments of any content.

It never panics, and a message has the announced length.  The announced
checksum is compared between fragments only: the message is the announced one
as far as the fragments are sums of its segments.
-/

import Picomint.Fountain.Decoder

namespace Picomint.Fountain

open Peeling

/-! ### Metadata -/

theorem divCeil_pos {value divisor : Nat} (positive : 0 < divisor) :
    divCeil value divisor = some ((value + divisor - 1) / divisor) :=
  if_neg positive.ne'

theorem le_divCeil {value divisor quotient : Nat} (divided : divCeil value divisor = some quotient) :
    value ≤ divisor * quotient := by
  unfold divCeil at divided
  split at divided
  · cases divided
  · rename_i nonzero
    cases divided
    have positive := Nat.pos_of_ne_zero nonzero
    have split := Nat.div_add_mod (value + divisor - 1) divisor
    have small := Nat.mod_lt (value + divisor - 1) positive
    omega

theorem EncodingMetadata.verify_isSome (metadata : EncodingMetadata) :
    ∃ valid, metadata.verify = some valid ∧ (valid = true → 0 < metadata.simpleFragments.toNat ∧
      ∃ length, metadata.fragmentLength = some length) := by
  unfold verify
  split
  · rename_i positive
    have nonzero : 0 < metadata.simpleFragments.toNat := UInt32.lt_iff_toNat_lt.mp positive.1
    refine ⟨_, by rw [fragmentLength, divCeil_pos nonzero]; rfl, fun _ => ⟨nonzero, ?_⟩⟩
    exact ⟨_, divCeil_pos nonzero⟩
  · exact ⟨false, rfl, fun impossible => by cases impossible⟩

def Fragment.Admits (choose : ChooseFragments)
    (good : EncodingMetadata → List Nat → Segment → Prop) (fragment : Fragment) : Prop :=
  ∀ length, fragment.metadata.fragmentLength = some length → fragment.data.length = length →
    good fragment.metadata (fragment.indexes choose) fragment.data

namespace Decoder

/-! ### Receiving -/

variable {choose : ChooseFragments}

/-- What every decoder is that has received fragments. -/
structure Standing (good : EncodingMetadata → List Nat → Segment → Prop)
    (history : List (Finset Nat)) (decoder : Decoder) : Prop where
  fresh : decoder.metadata = none → decoder = default ∧ history = []
  verified : ∀ metadata, decoder.metadata = some metadata → metadata.verify = some true
  reads : ∀ metadata, decoder.metadata = some metadata →
    Reads metadata.simpleFragments.toNat (good metadata) (· ∈ history) decoder

theorem Reads.start (count : Nat) (good : List Nat → Segment → Prop)
    (metadata : Option EncodingMetadata) :
    Reads count good (· ∈ []) { default with metadata := metadata } := by
  refine ⟨?_, ?_, ?_⟩
  · intro index data impossible
    cases impossible
  · intro indexes data impossible
    cases impossible
  · intro set impossible
    cases impossible

theorem Standing.start (good : EncodingMetadata → List Nat → Segment → Prop) :
    Standing good [] default := by
  refine ⟨fun _ => ⟨rfl, rfl⟩, ?_, ?_⟩
  · intro metadata impossible
    cases impossible
  · intro metadata impossible
    cases impossible

/-- A fragment is answered with a message that is there already, refused, or
worked in. -/
theorem receive_cases (choose : ChooseFragments) (decoder : Decoder) (fragment : Fragment) :
    (∃ message, decoder.message = some message ∧
      decoder.receive choose fragment = some (.ok (some message), decoder)) ∨
    (decoder.message = none ∧ ∃ error,
      decoder.receive choose fragment = some (.error error, decoder)) ∨
    (decoder.message = none ∧ fragment.metadata.verify = some true ∧
      fragment.metadata.fragmentLength = some fragment.data.length ∧
      (decoder.metadata = none ∨ decoder.metadata = some fragment.metadata) ∧
      decoder.receive choose fragment =
        (process choose { decoder with metadata := some fragment.metadata } fragment).map
          fun decoder => (.ok decoder.message, decoder)) := by
  unfold receive
  cases found : decoder.message with
  | some message => exact Or.inl ⟨message, rfl, rfl⟩
  | none =>
      refine Or.inr ?_
      obtain ⟨valid, verified, sized⟩ := fragment.metadata.verify_isSome
      rw [verified]
      cases valid with
      | false => exact Or.inl ⟨rfl, _, rfl⟩
      | true =>
          obtain ⟨_, length, isLength⟩ := sized rfl
          simp only [isLength]
          by_cases fits : fragment.data.length = length
          · rw [if_neg (not_not.mpr fits)]
            by_cases consistent :
                decoder.metadata = none ∨ decoder.metadata = some fragment.metadata
            · rw [if_pos consistent]
              refine Or.inr ⟨trivial, trivial, by rw [fits], consistent, ?_⟩
              cases process choose { decoder with metadata := some fragment.metadata } fragment <;>
                rfl
            · rw [if_neg consistent]
              exact Or.inl ⟨trivial, _, rfl⟩
          · rw [if_pos fits]
            exact Or.inl ⟨trivial, _, rfl⟩

/-- Sums for every metadata that passes its check. -/
def AllSums (good : EncodingMetadata → List Nat → Segment → Prop) : Prop :=
  ∀ metadata length, metadata.fragmentLength = some length → Sums length (good metadata)

variable {good : EncodingMetadata → List Nat → Segment → Prop} {history : List (Finset Nat)}
  {decoder : Decoder}

/-- An accepted fragment adds its set to what was received. -/
theorem Standing.process (standing : Standing good history decoder) (chooses : Chooses choose)
    (sums : AllSums good) {fragment : Fragment} (admits : fragment.Admits choose good)
    (verified : fragment.metadata.verify = some true)
    (sized : fragment.metadata.fragmentLength = some fragment.data.length)
    (consistent : decoder.metadata = none ∨ decoder.metadata = some fragment.metadata) :
    ∃ final, Decoder.process choose { decoder with metadata := some fragment.metadata } fragment =
        some final ∧
      Standing good ((fragment.indexes choose).toFinset :: history) final ∧
      final.metadata = some fragment.metadata ∧
      ((∀ index, decoder.decoded.contains index = true ↔ readOff history index) →
        ∀ index, final.decoded.contains index = true ↔
          readOff ((fragment.indexes choose).toFinset :: history) index) := by
  have reads : Reads fragment.metadata.simpleFragments.toNat (good fragment.metadata)
      (· ∈ history) { decoder with metadata := some fragment.metadata } := by
    rcases consistent with fresh | same
    · obtain ⟨rfl, rfl⟩ := standing.fresh fresh
      exact Reads.start _ _ _
    · rw [← same]
      exact standing.reads fragment.metadata same
  obtain ⟨final, processed, reads', unchanged, learns⟩ := process_spec chooses
    (sums _ _ sized) rfl reads (admits _ sized rfl)
  refine ⟨final, processed, ⟨?_, ?_, ?_⟩, unchanged, learns⟩
  · intro impossible
    rw [unchanged] at impossible
    cases impossible
  · intro metadata same
    rw [unchanged] at same
    cases same
    exact verified
  · intro metadata same
    rw [unchanged] at same
    cases same
    exact reads'

theorem Standing.receive (standing : Standing good history decoder) (chooses : Chooses choose)
    (sums : AllSums good) {fragment : Fragment} (admits : fragment.Admits choose good) :
    ∃ outcome final later, decoder.receive choose fragment = some (outcome, final) ∧
      Standing good later final ∧ (∀ found, outcome = .ok (some found) → final.message = some found) ∧
      (final.metadata = decoder.metadata ∨ final.metadata = some fragment.metadata) := by
  rcases receive_cases choose decoder fragment with
    ⟨found, isFound, received⟩ | ⟨unfinished, error, received⟩ |
      ⟨unfinished, verified, sized, consistent, received⟩
  · refine ⟨_, decoder, history, received, standing, ?_, Or.inl rfl⟩
    intro other same
    cases same
    exact isFound
  · refine ⟨_, decoder, history, received, standing, ?_, Or.inl rfl⟩
    intro other impossible
    cases impossible
  · obtain ⟨final, processed, standing', isMetadata, _⟩ :=
      standing.process chooses sums admits verified sized consistent
    exact ⟨.ok final.message, final, _, by rw [received, processed]; rfl, standing',
      fun found same => Except.ok.inj same, Or.inr isMetadata⟩

theorem run_finished {found : List UInt8} (finished : decoder.message = some found)
    (fragments : List Fragment) :
    decoder.run choose fragments =
      some (fragments.map fun _ => .ok (some found), decoder) := by
  induction fragments with
  | nil => rfl
  | cons fragment fragments ih =>
      have received : decoder.receive choose fragment = some (.ok (some found), decoder) := by
        unfold Decoder.receive
        rw [finished]
      unfold run
      simp only [received, ih, List.map_cons]

/-- A run goes through, and what it yields is the message of its end. -/
theorem Standing.run (standing : Standing good history decoder) (chooses : Chooses choose)
    (sums : AllSums good) (fragments : List Fragment)
    (admits : ∀ fragment ∈ fragments, fragment.Admits choose good) :
    ∃ outcomes final later, decoder.run choose fragments = some (outcomes, final) ∧
      Standing good later final ∧
      (∀ found, .ok (some found) ∈ outcomes → final.message = some found) ∧
      (final.metadata = decoder.metadata ∨
        ∃ fragment ∈ fragments, final.metadata = some fragment.metadata) := by
  induction fragments generalizing decoder history with
  | nil =>
      refine ⟨[], decoder, history, rfl, standing, ?_, Or.inl rfl⟩
      intro found impossible
      cases impossible
  | cons fragment fragments ih =>
      obtain ⟨first, rest⟩ := List.forall_mem_cons.mp admits
      obtain ⟨outcome, next, middle, received, standing', yields, from_first⟩ :=
        standing.receive chooses sums first
      obtain ⟨outcomes, final, later, ran, standing'', yieldsLater, from_rest⟩ := ih standing' rest
      refine ⟨outcome :: outcomes, final, later, ?_, standing'', ?_, ?_⟩
      · unfold Decoder.run
        simp only [received, ran]
      · intro found member
        rcases List.mem_cons.mp member with same | old
        · have isFound := yields found same.symm
          rw [run_finished isFound] at ran
          cases ran
          exact isFound
        · exact yieldsLater found old
      · rcases from_rest with same | ⟨other, member, isMetadata⟩
        · rcases from_first with kept | isMetadata
          · exact Or.inl (same.trans kept)
          · exact Or.inr ⟨fragment, List.mem_cons_self, same.trans isMetadata⟩
        · exact Or.inr ⟨other, List.mem_cons_of_mem _ member, isMetadata⟩

/-! ### Sums of segments -/

end Decoder

theorem xor_cancel : ∀ {left right : Segment}, left.length = right.length →
    List.zipWith (· ^^^ ·) (List.zipWith (· ^^^ ·) left right) right = left
  | [], [], _ => rfl
  | byte :: left, other :: right, same => by
      rw [List.zipWith_cons_cons, List.zipWith_cons_cons, xor_cancel (Nat.succ.inj same),
        UInt8.xor_assoc, UInt8.xor_self, UInt8.xor_zero]

theorem xor_swap : ∀ first second third : Segment,
    List.zipWith (· ^^^ ·) (List.zipWith (· ^^^ ·) first second) third =
      List.zipWith (· ^^^ ·) (List.zipWith (· ^^^ ·) first third) second
  | [], _, _ => by simp
  | _ :: _, [], _ => by simp
  | _ :: _, _ :: _, [] => by simp
  | byte :: first, other :: second, another :: third => by
      simp only [List.zipWith_cons_cons, xor_swap first second third]
      rw [UInt8.xor_assoc, UInt8.xor_comm other, ← UInt8.xor_assoc]

theorem xor_zeros : ∀ segment : Segment,
    List.zipWith (· ^^^ ·) (List.replicate segment.length 0) segment = segment
  | [] => rfl
  | byte :: segment => by
      rw [List.length_cons, List.replicate_succ, List.zipWith_cons_cons, xor_zeros segment,
        UInt8.zero_xor]

def plus (segments : Nat → Segment) (data : Segment) (indexes : List Nat) : Segment :=
  indexes.foldl (fun data index => List.zipWith (· ^^^ ·) data (segments index)) data

def sumOf (segments : Nat → Segment) (length : Nat) (indexes : List Nat) : Segment :=
  plus segments (List.replicate length 0) indexes

section Sums

variable {segments : Nat → Segment} {length : Nat}

theorem plus_xor (data simple : Segment) (indexes : List Nat) :
    plus segments (List.zipWith (· ^^^ ·) data simple) indexes =
      List.zipWith (· ^^^ ·) (plus segments data indexes) simple := by
  induction indexes generalizing data with
  | nil => rfl
  | cons index indexes ih =>
      unfold plus at ih ⊢
      rw [List.foldl_cons, List.foldl_cons, xor_swap, ih]

theorem sumOf_cons (index : Nat) (indexes : List Nat) :
    sumOf segments length (index :: indexes) =
      List.zipWith (· ^^^ ·) (sumOf segments length indexes) (segments index) :=
  plus_xor _ _ indexes

theorem sumOf_length {indexes : List Nat}
    (sized : ∀ index ∈ indexes, (segments index).length = length) :
    (sumOf segments length indexes).length = length := by
  induction indexes with
  | nil => exact List.length_replicate
  | cons index indexes ih =>
      obtain ⟨first, rest⟩ := List.forall_mem_cons.mp sized
      rw [sumOf_cons, List.length_zipWith, ih rest, first, min_self]

theorem sumOf_single {index : Nat} (sized : (segments index).length = length) :
    sumOf segments length [index] = segments index := by
  rw [← sized]
  exact xor_zeros (segments index)

theorem sumOf_remove {indexes : List Nat} (distinct : indexes.Nodup)
    (sized : ∀ index ∈ indexes, (segments index).length = length) {index : Nat}
    (listed : index ∈ indexes) :
    List.zipWith (· ^^^ ·) (sumOf segments length indexes) (segments index) =
      sumOf segments length (indexes.filter (· ≠ index)) := by
  induction indexes with
  | nil => cases listed
  | cons first indexes ih =>
      obtain ⟨fresh, distinctRest⟩ := List.nodup_cons.mp distinct
      obtain ⟨firstSized, rest⟩ := List.forall_mem_cons.mp sized
      rw [sumOf_cons]
      by_cases same : first = index
      · subst same
        have others : indexes.filter (· ≠ first) = indexes :=
          List.filter_eq_self.mpr fun other member => decide_eq_true (by
            rintro rfl
            exact fresh member)
        rw [List.filter_cons_of_neg (by simp), others, xor_cancel]
        rw [sumOf_length rest, firstSized]
      · rw [List.filter_cons_of_pos (by simpa using same), sumOf_cons, xor_swap,
          ih distinctRest rest ((List.mem_cons.mp listed).resolve_left (Ne.symm same))]

end Sums

def summed (metadata : EncodingMetadata) (segments : Nat → Segment) (other : EncodingMetadata)
    (indexes : List Nat) (data : Segment) : Prop :=
  (∀ length, other.fragmentLength = some length → data.length = length) ∧
    (other = metadata → (∀ index ∈ indexes, index < metadata.simpleFragments.toNat) ∧
      data = sumOf segments data.length indexes)

theorem summed_allSums {metadata : EncodingMetadata} {segments : Nat → Segment}
    (sized : ∀ length, metadata.fragmentLength = some length →
      ∀ index < metadata.simpleFragments.toNat, (segments index).length = length) :
    Decoder.AllSums (summed metadata segments) := by
  intro other length isLength
  refine ⟨fun isGood => isGood.1 length isLength, ?_⟩
  intro indexes index data simple distinct listed ⟨dataSized, dataSum⟩ ⟨simpleSized, simpleSum⟩
  have dataLength := dataSized length isLength
  have simpleLength := simpleSized length isLength
  have sumLength : (List.zipWith (· ^^^ ·) data simple).length = length := by
    rw [List.length_zipWith, dataLength, simpleLength, min_self]
  refine ⟨?_, ?_⟩
  · intro otherLength isOther
    rw [isLength] at isOther
    cases isOther
    exact sumLength
  · rintro rfl
    obtain ⟨small, isSum⟩ := dataSum rfl
    obtain ⟨indexSmall, isSimple⟩ := simpleSum rfl
    have segmentSized := fun inner inside => sized length isLength inner (small inner inside)
    refine ⟨fun inner inside => small inner (List.mem_of_mem_filter inside), ?_⟩
    rw [sumLength, ← sumOf_remove distinct segmentSized listed]
    rw [dataLength] at isSum
    rw [simpleLength, sumOf_single (segmentSized index listed)] at isSimple
    rw [← isSum, ← isSimple]

namespace Decoder

variable {choose : ChooseFragments} {good : EncodingMetadata → List Nat → Segment → Prop}
  {history : List (Finset Nat)} {decoder : Decoder}

/-- What is yielded are the decoded segments in order, cut at the announced
length. -/
theorem Standing.found (standing : Standing good history decoder) {found : List UInt8}
    (isFound : decoder.message = some found) :
    ∃ metadata, decoder.metadata = some metadata ∧
      (∀ index < metadata.simpleFragments.toNat, ∃ data, decoder.decoded.get? index = some data ∧
        good metadata [index] data) ∧
      found = ((List.range metadata.simpleFragments.toNat).flatMap
        fun index => (decoder.decoded.get? index).getD []).take metadata.messageLength.toNat := by
  cases isMetadata : decoder.metadata with
  | none =>
      unfold message at isFound
      rw [isMetadata] at isFound
      cases isFound
  | some metadata =>
      have reads := standing.reads metadata isMetadata
      obtain ⟨whole, missing⟩ := reads.message_eq isMetadata rfl
      have all : ∀ index < metadata.simpleFragments.toNat,
          decoder.decoded.contains index = true := by
        by_contra unknown
        push Not at unknown
        rw [missing unknown] at isFound
        cases isFound
      have keys : decoder.decoded.keys = List.range metadata.simpleFragments.toNat := by
        refine List.Perm.eq_of_pairwise ?_ decoder.decoded.keys_ascending List.pairwise_lt_range ?_
        · intro first second _ _ forward backward
          exact absurd (forward.trans backward) (lt_irrefl _)
        · refine (List.perm_ext_iff_of_nodup decoder.decoded.keys_nodup List.nodup_range).mpr ?_
          intro index
          rw [List.mem_range, decoder.decoded.mem_keys]
          exact ⟨fun ⟨data, stored⟩ => (reads.known index data stored).1,
            fun small => (SortedMap.contains_iff _ _).mp (all index small)⟩
      have values := decoder.decoded.map_values id []
      rw [List.map_id, keys] at values
      rw [whole all] at isFound
      refine ⟨metadata, rfl, fun index small => ?_, ?_⟩
      · obtain ⟨data, stored⟩ := (SortedMap.contains_iff _ _).mp (all index small)
        exact ⟨data, stored, (reads.known index data stored).2.1⟩
      · rw [← Option.some.inj isFound, values, List.flatMap_def]
        simp only [Option.map_id_fun, id]

def sized (metadata : EncodingMetadata) (_ : List Nat) (data : Segment) : Prop :=
  ∀ length, metadata.fragmentLength = some length → data.length = length

theorem sized_allSums : AllSums sized := by
  intro metadata length isLength
  refine ⟨fun isGood => isGood length isLength, ?_⟩
  intro indexes index data simple _ _ isGood isSimple other isOther
  rw [isLength] at isOther
  cases isOther
  rw [List.length_zipWith, isGood length isLength, isSimple length isLength, min_self]

theorem sum_lengths {segments : Nat → Segment} {count length : Nat}
    (sized : ∀ index < count, (segments index).length = length) :
    ((List.range count).flatMap segments).length = count * length := by
  rw [List.length_flatMap, List.map_congr_left (g := fun _ => length)]
  · simp
  · exact fun index member => sized index (List.mem_range.mp member)

/-- Fragments of any content are worked in or refused. -/
theorem run_total (chooses : Chooses choose) (fragments : List Fragment) :
    ∃ outcomes final later, Decoder.default.run choose fragments = some (outcomes, final) ∧
      Standing sized later final ∧
      (∀ found, .ok (some found) ∈ outcomes → final.message = some found) ∧
      (final.metadata = none ∨ ∃ fragment ∈ fragments, final.metadata = some fragment.metadata) :=
  (Standing.start sized).run chooses sized_allSums fragments
    fun fragment _ length isLength same other isOther => by
      rw [isLength] at isOther
      cases isOther
      exact same

section Found

variable {fragments : List Fragment} {outcomes : List (Except Error (Option (List UInt8)))}
  {final : Decoder} {found : List UInt8}

theorem found_announced (chooses : Chooses choose)
    (ran : Decoder.default.run choose fragments = some (outcomes, final))
    (member : .ok (some found) ∈ outcomes) :
    ∃ metadata, final.metadata = some metadata ∧
      (∃ fragment ∈ fragments, fragment.metadata = metadata) ∧
      found.length = metadata.messageLength.toNat := by
  obtain ⟨outcomes', final', later, ran', standing, yields, announced⟩ :=
    run_total chooses fragments
  rw [ran] at ran'
  cases ran'
  obtain ⟨metadata, isMetadata, known, isFound⟩ := standing.found (yields found member)
  obtain ⟨valid, verified, measured⟩ := metadata.verify_isSome
  rw [standing.verified metadata isMetadata] at verified
  obtain ⟨_, length, isLength⟩ := measured (Option.some.inj verified).symm
  refine ⟨metadata, isMetadata, ?_, ?_⟩
  · rcases announced with fresh | ⟨fragment, listed, same⟩
    · rw [fresh] at isMetadata
      cases isMetadata
    · rw [isMetadata] at same
      exact ⟨fragment, listed, (Option.some.inj same).symm⟩
  · have enough := le_divCeil isLength
    have total : ((List.range metadata.simpleFragments.toNat).flatMap
        fun index => (final.decoded.get? index).getD []).length =
          metadata.simpleFragments.toNat * length := by
      refine sum_lengths fun index small => ?_
      obtain ⟨data, stored, isGood⟩ := known index small
      rw [stored]
      exact isGood length isLength
    rw [isFound, List.length_take, total]
    omega

/-- Fragments that are sums of segments give these segments back. -/
theorem found_original (chooses : Chooses choose)
    (ran : Decoder.default.run choose fragments = some (outcomes, final))
    {metadata : EncodingMetadata} (isMetadata : final.metadata = some metadata)
    {segments : Nat → Segment}
    (segmentSized : ∀ index < metadata.simpleFragments.toNat,
      metadata.fragmentLength = some (segments index).length)
    (consistent : ∀ fragment ∈ fragments, fragment.metadata = metadata →
      fragment.data = sumOf segments fragment.data.length (fragment.indexes choose))
    (member : .ok (some found) ∈ outcomes) :
    found = ((List.range metadata.simpleFragments.toNat).flatMap segments).take
      metadata.messageLength.toNat := by
  obtain ⟨outcomes', final', later, ran', standing, yields, _⟩ :=
    (Standing.start (summed metadata segments)).run chooses
      (summed_allSums fun length isLength index small => by
        rw [segmentSized index small] at isLength
        exact Option.some.inj isLength)
      fragments fun fragment listed length isLength same => ⟨fun other isOther => by
          rw [isLength] at isOther
          cases isOther
          exact same,
        fun isMetadata => ⟨isMetadata ▸ chooses.below _ _ _, consistent fragment listed isMetadata⟩⟩
  rw [ran] at ran'
  cases ran'
  obtain ⟨other, isOther, known, isFound⟩ := standing.found (yields found member)
  rw [isMetadata] at isOther
  cases isOther
  rw [isFound]
  congr 1
  refine List.flatMap_congr fun index listed => ?_
  have small := List.mem_range.mp listed
  obtain ⟨data, stored, dataSized, isSum⟩ := known index small
  rw [stored, Option.getD_some, (isSum rfl).2, dataSized _ (segmentSized index small),
    sumOf_single rfl]

end Found

/-- The decoder never panics, and a message it yields has the announced length.
It is the announced message if the fragments are sums of its segments. -/
theorem decoder_sound (sha256 : Sha256) (chooses : Chooses choose) (fragments : List Fragment) :
    ∃ outcomes decoder, Decoder.default.run choose fragments = some (outcomes, decoder) ∧
      ∀ found, .ok (some found) ∈ outcomes → ∃ metadata, decoder.metadata = some metadata ∧
        (∃ fragment ∈ fragments, fragment.metadata = metadata) ∧
        found.length = metadata.messageLength.toNat ∧
        ∀ (segments : Nat → Segment) (original : List UInt8),
          (∀ index < metadata.simpleFragments.toNat,
            metadata.fragmentLength = some (segments index).length) →
          ((List.range metadata.simpleFragments.toNat).flatMap segments).take
            metadata.messageLength.toNat = original →
          (∀ fragment ∈ fragments, fragment.metadata = metadata →
            fragment.data = sumOf segments fragment.data.length (fragment.indexes choose)) →
          found = original ∧ (checksum sha256 original = metadata.checksum →
            checksum sha256 found = metadata.checksum) := by
  obtain ⟨outcomes, final, _, ran, _⟩ := run_total chooses fragments
  refine ⟨outcomes, final, ran, fun found member => ?_⟩
  obtain ⟨metadata, isMetadata, announced, isLength⟩ := found_announced chooses ran member
  refine ⟨metadata, isMetadata, announced, isLength, ?_⟩
  intro segments original segmentSized isOriginal consistent
  have same := (found_original chooses ran isMetadata segmentSized consistent member).trans isOriginal
  exact ⟨same, fun announced => same ▸ announced⟩

/-! Three segments out of two sums and one segment, and one segment announced by
another checksum than its own. -/

/-- Beyond the segments themselves, the last two of three or the first two. -/
def pairs : ChooseFragments := fun count _ index =>
  if index < count then [index]
  else if count < 3 then List.range count
  else if index = 3 then [1, 2]
  else [0, 1]

theorem pairs_chooses : Chooses pairs := by
  refine ⟨fun count _ index => ?_, fun count _ index item inside => ?_⟩
  · unfold pairs
    split
    · exact List.nodup_singleton index
    · split
      · exact List.nodup_range
      · split <;> decide
  · unfold pairs at inside
    split at inside
    · rename_i small
      exact List.mem_singleton.mp inside ▸ small
    · split at inside
      · exact List.mem_range.mp inside
      · split at inside <;> simp at inside <;> omega

/-- Only the fragments that are segments combine anything. -/
def ownSegment : ChooseFragments := fun count _ index => if index < count then [index] else []

theorem ownSegment_chooses : Chooses ownSegment := by
  refine ⟨fun count _ index => ?_, fun count _ index item inside => ?_⟩
  · unfold ownSegment
    split
    · exact List.nodup_singleton index
    · exact List.nodup_nil
  · unfold ownSegment at inside
    split at inside
    · rename_i small
      exact List.mem_singleton.mp inside ▸ small
    · cases inside

def constantHash : Sha256 := fun _ => List.Vector.replicate 32 1

def threeSegments (index : UInt32) (data : Segment) : Fragment :=
  { metadata := ⟨3, 3, checksum constantHash [1, 2, 3]⟩
    index := index
    data := data }

/-- The buffered sums give the segments away once the first one arrives. -/
theorem decoder_sound_sample : ∃ outcomes decoder,
    Decoder.default.run pairs [threeSegments 3 [1], threeSegments 4 [3], threeSegments 0 [1]] =
      some (outcomes, decoder) ∧
    .ok (some [1, 2, 3]) ∈ outcomes ∧
    ∃ metadata, decoder.metadata = some metadata ∧ metadata.messageLength.toNat = 3 ∧
      checksum constantHash [1, 2, 3] = metadata.checksum := by
  obtain ⟨outcomes, decoder, ran, sound⟩ := decoder_sound constantHash pairs_chooses
    [threeSegments 3 [1], threeSegments 4 [3], threeSegments 0 [1]]
  have observed : (Decoder.default.run pairs
      [threeSegments 3 [1], threeSegments 4 [3], threeSegments 0 [1]]).map Prod.fst =
        some [.ok none, .ok none, .ok (some [1, 2, 3])] := by decide +kernel
  rw [ran] at observed
  have member : .ok (some [1, 2, 3]) ∈ outcomes := by
    rw [show outcomes = [.ok none, .ok none, .ok (some [1, 2, 3])] from Option.some.inj observed]
    exact List.mem_cons_of_mem _ (List.mem_cons_of_mem _ List.mem_cons_self)
  obtain ⟨metadata, isMetadata, ⟨fragment, listed, announced⟩, length, integrity⟩ :=
    sound [1, 2, 3] member
  have alike : ∀ other ∈ [threeSegments 3 [1], threeSegments 4 [3], threeSegments 0 [1]],
      other.metadata = ⟨3, 3, checksum constantHash [1, 2, 3]⟩ := by
    intro other inside
    simp only [List.mem_cons, List.not_mem_nil, or_false] at inside
    rcases inside with rfl | rfl | rfl
    · rfl
    · rfl
    · rfl
  have same := announced.symm.trans (alike fragment listed)
  subst same
  refine ⟨outcomes, decoder, ran, member, _, isMetadata, rfl,
    (integrity (fun index => [UInt8.ofNat (index + 1)]) [1, 2, 3] (fun _ _ => rfl) (by decide)
      ?_).2 rfl⟩
  intro other inside _
  simp only [List.mem_cons, List.not_mem_nil, or_false] at inside
  rcases inside with rfl | rfl | rfl
  · decide
  · decide
  · decide

theorem run_oneSegment (announced : Checksum) :
    Decoder.default.run ownSegment [⟨⟨1, 1, announced⟩, 0, [7]⟩] = some ([.ok (some [7])],
      ⟨SortedMap.empty.insert 0 [7], SortedMap.empty, some ⟨1, 1, announced⟩⟩) := by
  with_unfolding_all rfl

/-- Under no hash function does every yielded message have the announced checksum. -/
theorem message_forged : ¬ ∃ sha256 : Sha256, ∀ choose fragment decoder, Chooses choose →
    Decoder.default.run choose [fragment] = some ([.ok (some [7])], decoder) →
    decoder.metadata = some fragment.metadata →
    checksum sha256 [7] = fragment.metadata.checksum := by
  rintro ⟨sha256, matching⟩
  have same := matching ownSegment _ _ ownSegment_chooses
    (run_oneSegment ((checksum sha256 [7]).map (· + 1))) rfl
  have heads := congrArg List.Vector.head same
  rw [List.Vector.head_map] at heads
  have numbers := congrArg UInt8.toNat heads
  rw [UInt8.toNat_add] at numbers
  have one : (1 : UInt8).toNat = 1 := rfl
  omega

end Decoder

end Picomint.Fountain
