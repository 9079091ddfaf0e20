/-
The decoder against the peeling closure of what it received.

For fragments of one announcement it knows what can be read off them in order
of arrival, with the closure taken only when a single segment arrives.  A
segment that a mixed fragment gives away is not taken out of the buffer.
-/

import Picomint.Fountain.Integrity

namespace Picomint.Fountain

open Peeling
open Fountain.Decoder (pairs pairs_chooses)

namespace Decoder

variable {choose : ChooseFragments} {good : EncodingMetadata → List Nat → Segment → Prop}
  {decoder : Decoder}

/-- The sets of the fragments, the latest first. -/
def arrivals (choose : ChooseFragments) (fragments : List Fragment) : List (Finset Nat) :=
  (fragments.map fun fragment => (fragment.indexes choose).toFinset).reverse

def Yields (outcomes : List (Except Error (Option (List UInt8)))) : Prop :=
  ∃ found, .ok (some found) ∈ outcomes

theorem readOff_append (later : List (Finset Nat)) {history : List (Finset Nat)} {index : Nat}
    (known : readOff history index) : readOff (later ++ history) index := by
  induction later with
  | nil => exact known
  | cons set later ih => exact readOff_mono set ih

/-- While the decoder knows what was read off, so it does to the end. -/
theorem Standing.yields_iff (chooses : Chooses choose) (sums : AllSums good)
    {metadata : EncodingMetadata} (verified : metadata.verify = some true) {length : Nat}
    (sized : metadata.fragmentLength = some length) (fragments : List Fragment)
    (alike : ∀ fragment ∈ fragments, fragment.metadata = metadata ∧
      fragment.data.length = length ∧ fragment.Admits choose good)
    {history : List (Finset Nat)} (standing : Standing good history decoder)
    (consistent : decoder.metadata = none ∨ decoder.metadata = some metadata)
    (knows : ∀ index, decoder.decoded.contains index = true ↔ readOff history index) :
    ∃ outcomes final, decoder.run choose fragments = some (outcomes, final) ∧
      (Yields outcomes ↔ fragments ≠ [] ∧ ∀ index < metadata.simpleFragments.toNat,
        readOff (arrivals choose fragments ++ history) index) := by
  induction fragments generalizing decoder history with
  | nil =>
      refine ⟨[], decoder, rfl, ⟨?_, fun impossible => absurd rfl impossible.1⟩⟩
      rintro ⟨found, impossible⟩
      cases impossible
  | cons fragment fragments ih =>
      obtain ⟨⟨rfl, isLength, admits⟩, rest⟩ := List.forall_mem_cons.mp alike
      subst isLength
      have order : arrivals choose (fragment :: fragments) ++ history =
          arrivals choose fragments ++ ((fragment.indexes choose).toFinset :: history) := by
        unfold arrivals
        rw [List.map_cons, List.reverse_cons, List.append_assoc]
        rfl
      rw [order]
      rcases receive_cases choose decoder fragment with
        ⟨found, isFound, received⟩ | ⟨unfinished, error, received⟩ |
          ⟨unfinished, _, _, _, received⟩
      · -- the message is there: nothing is worked in any more
        obtain ⟨other, isOther, known, _⟩ := standing.found isFound
        have same : other = fragment.metadata := by
          rcases consistent with fresh | same
          · rw [fresh] at isOther
            cases isOther
          · rw [same] at isOther
            exact (Option.some.inj isOther).symm
        subst same
        refine ⟨_, decoder, run_finished isFound _, ⟨fun _ => ⟨List.cons_ne_nil _ _, ?_⟩, fun _ => ?_⟩⟩
        · intro index small
          obtain ⟨data, stored, _⟩ := known index small
          exact readOff_append _ (readOff_mono _
            ((knows index).mp ((SortedMap.contains_iff _ _).mpr ⟨data, stored⟩)))
        · exact ⟨found, List.mem_map_of_mem List.mem_cons_self⟩
      · exact absurd received (by
          obtain ⟨final, processed, _⟩ :=
            standing.process chooses sums admits verified sized consistent
          unfold Decoder.receive
          rw [unfinished, verified, sized]
          simp only
          rw [if_neg (not_not.mpr rfl), if_pos consistent, processed]
          intro impossible
          cases impossible)
      · obtain ⟨next, processed, standing', isMetadata, learns⟩ :=
          standing.process chooses sums admits verified sized consistent
        have knows' := learns knows
        obtain ⟨outcomes, final, ran, iff⟩ := ih rest standing' (Or.inr isMetadata) knows'
        rw [processed] at received
        have steps : decoder.run choose (fragment :: fragments) =
            some (.ok next.message :: outcomes, final) := by
          unfold Decoder.run
          simp only [received, Option.map_some, ran]
        obtain ⟨whole, missing⟩ := (standing'.reads _ isMetadata).message_eq isMetadata rfl
        refine ⟨_, final, steps, ?_⟩
        by_cases complete : ∀ index < fragment.metadata.simpleFragments.toNat,
            next.decoded.contains index = true
        · refine ⟨fun _ => ⟨List.cons_ne_nil _ _, fun index small => ?_⟩, fun _ => ?_⟩
          · exact readOff_append _ ((knows' index).mp (complete index small))
          · exact ⟨_, by rw [whole complete]; exact List.mem_cons_self⟩
        · have unknown := complete
          push Not at unknown
          have nothing := missing unknown
          rw [nothing]
          constructor
          · rintro ⟨found, member⟩
            have later : Yields outcomes :=
              ⟨found, (List.mem_cons.mp member).resolve_left fun impossible => by cases impossible⟩
            exact ⟨List.cons_ne_nil _ _, (iff.mp later).2⟩
          · rintro ⟨_, all⟩
            have nonempty : fragments ≠ [] := by
              rintro rfl
              exact complete fun index small => (knows' index).mpr (all index small)
            obtain ⟨found, member⟩ := iff.mpr ⟨nonempty, all⟩
            exact ⟨found, List.mem_cons_of_mem _ member⟩

/-- A decoder that no fragment gets into. -/
theorem run_refused (fragments : List Fragment)
    (refused : ∀ fragment ∈ fragments, ¬ (fragment.metadata.verify = some true ∧
      fragment.metadata.fragmentLength = some fragment.data.length)) :
    ∃ outcomes, default.run choose fragments = some (outcomes, default) ∧ ¬ Yields outcomes := by
  induction fragments with
  | nil =>
      refine ⟨[], rfl, ?_⟩
      rintro ⟨found, impossible⟩
      cases impossible
  | cons fragment fragments ih =>
      obtain ⟨first, rest⟩ := List.forall_mem_cons.mp refused
      obtain ⟨outcomes, ran, nothing⟩ := ih rest
      rcases receive_cases choose default fragment with
        ⟨found, impossible, _⟩ | ⟨_, error, received⟩ | ⟨_, verified, sized, _⟩
      · cases impossible
      · refine ⟨.error error :: outcomes, ?_, ?_⟩
        · unfold run
          simp only [received, ran]
        · rintro ⟨found, member⟩
          exact nothing ⟨found, (List.mem_cons.mp member).resolve_left
            fun impossible => by cases impossible⟩
      · exact absurd ⟨verified, sized⟩ first

/-- Of fragments of one announcement and one length, the message is yielded if
the announcement is accepted and its segments are read off. -/
theorem yields_iff (chooses : Chooses choose) {metadata : EncodingMetadata} {length : Nat}
    (fragments : List Fragment)
    (alike : ∀ fragment ∈ fragments, fragment.metadata = metadata ∧
      fragment.data.length = length) :
    ∃ outcomes final, default.run choose fragments = some (outcomes, final) ∧
      (Yields outcomes ↔ metadata.verify = some true ∧ metadata.fragmentLength = some length ∧
        ∀ index < metadata.simpleFragments.toNat,
          readOff (arrivals choose fragments) index) := by
  by_cases accepted : metadata.verify = some true ∧ metadata.fragmentLength = some length
  · obtain ⟨verified, isLength⟩ := accepted
    obtain ⟨outcomes, final, ran, iff⟩ := (Standing.start sized).yields_iff chooses sized_allSums
      verified isLength fragments
      (fun fragment listed => by
        obtain ⟨same, fits⟩ := alike fragment listed
        refine ⟨same, fits, fun other isOther exact another isAnother => ?_⟩
        rw [isOther] at isAnother
        cases isAnother
        exact exact)
      (Or.inl rfl) (fun _ => Iff.intro (fun impossible => by cases impossible) False.elim)
    rw [List.append_nil] at iff
    refine ⟨outcomes, final, ran, iff.trans ⟨fun ⟨_, all⟩ => ⟨verified, isLength, all⟩, ?_⟩⟩
    rintro ⟨_, _, all⟩
    refine ⟨?_, all⟩
    rintro rfl
    obtain ⟨valid, verified', positive⟩ := metadata.verify_isSome
    rw [verified] at verified'
    exact all 0 (positive (Option.some.inj verified').symm).1
  · obtain ⟨outcomes, ran, nothing⟩ := run_refused fragments
      fun fragment listed => by
        obtain ⟨same, fits⟩ := alike fragment listed
        rw [same, fits]
        exact accepted
    exact ⟨outcomes, default, ran, fun yields => absurd yields nothing,
      fun ⟨verified, isLength, _⟩ => absurd ⟨verified, isLength⟩ accepted⟩

end Decoder

/-! ### What an encoder emits -/

def Encoder.segment (encoder : Encoder) (index : Nat) : Segment :=
  (encoder.fragments[index]?).getD []

inductive Encoder.Emits (choose : ChooseFragments) : Encoder → Fragment → Prop
  | now {encoder next : Encoder} {fragment : Fragment}
      (emitted : encoder.nextFragment choose = some (fragment, next)) : Emits choose encoder fragment
  | later {encoder next : Encoder} {first fragment : Fragment}
      (emitted : encoder.nextFragment choose = some (first, next))
      (rest : Emits choose next fragment) : Emits choose encoder fragment

/-- What `Encoder.new` makes of a message. -/
structure Encoder.Cut (encoder : Encoder) (message : List UInt8) (length : Nat) : Prop where
  positive : 0 < length
  nonempty : 0 < encoder.fragments.length
  few : encoder.fragments.length ≤ message.length
  quotient : divCeil message.length encoder.fragments.length = some length
  sized : ∀ index < encoder.fragments.length, (encoder.segment index).length = length
  joined : ((List.range encoder.fragments.length).flatMap encoder.segment).take message.length =
    message
  messageLength : encoder.messageLength = message.length

theorem chunks_join (length count : Nat) (data : List UInt8) (exact : data.length = count * length) :
    (List.range count).flatMap (fun chunk => (data.drop (chunk * length)).take length) = data := by
  induction count generalizing data with
  | zero =>
      rw [Nat.zero_mul] at exact
      rw [List.eq_nil_of_length_eq_zero exact]
      rfl
  | succ count ih =>
      have split : data.take (count * length) ++ data.drop (count * length) = data :=
        List.take_append_drop _ _
      have front : (data.take (count * length)).length = count * length := by
        rw [List.length_take, exact, Nat.succ_mul]
        omega
      have chunks : (List.range count).flatMap
          (fun chunk => (data.drop (chunk * length)).take length) = data.take (count * length) := by
        rw [← ih (data.take (count * length)) front]
        refine List.flatMap_congr fun chunk member => ?_
        have below := List.mem_range.mp member
        have room : chunk * length + length ≤ count * length := by
          rw [← Nat.succ_mul]
          exact Nat.mul_le_mul_right _ below
        rw [List.drop_take, List.take_take, min_eq_left (by omega)]
      have last : (data.drop (count * length)).take length = data.drop (count * length) := by
        refine List.take_of_length_le ?_
        rw [List.length_drop, exact, Nat.succ_mul]
        omega
      rw [List.range_succ, List.flatMap_append, chunks, List.flatMap_singleton, last, split]

/-- Filling up leaves as many chunks as the length needs. -/
theorem padded_length {length fragmentLength : Nat} (positive : 0 < fragmentLength) :
    ∃ count, length + (fragmentLength - length % fragmentLength) % fragmentLength =
        count * fragmentLength ∧
      length ≤ count * fragmentLength ∧ count * fragmentLength < length + fragmentLength := by
  have small := Nat.mod_lt length positive
  have split := Nat.div_add_mod' length fragmentLength
  by_cases whole : length % fragmentLength = 0
  · refine ⟨length / fragmentLength, ?_, ?_, ?_⟩
    · rw [whole, Nat.sub_zero, Nat.mod_self]
      omega
    · omega
    · omega
  · have rest : (fragmentLength - length % fragmentLength) % fragmentLength =
        fragmentLength - length % fragmentLength := Nat.mod_eq_of_lt (by omega)
    refine ⟨length / fragmentLength + 1, ?_, ?_, ?_⟩
    · rw [rest, Nat.succ_mul]
      omega
    · rw [Nat.succ_mul]
      omega
    · rw [Nat.succ_mul]
      omega

theorem Encoder.new_cut {sha256 : Sha256} {message : List UInt8} {maxFragmentLength : Nat}
    {encoder : Encoder} (made : Encoder.new sha256 message maxFragmentLength = some encoder) :
    ∃ length, encoder.Cut message length := by
  unfold Encoder.new at made
  split at made
  · cases made
  · rename_i valid
    obtain ⟨notEmpty, maxPositive⟩ := not_or.mp valid
    have messagePositive : 0 < message.length := List.length_pos_iff.mpr notEmpty
    obtain ⟨length, isLength, rfl⟩ := Option.map_eq_some_iff.mp made
    unfold fragmentLength at isLength
    rw [divCeil_pos (Nat.pos_of_ne_zero maxPositive), Option.bind_some] at isLength
    obtain ⟨pieces, isPieces⟩ : ∃ pieces,
      (message.length + maxFragmentLength - 1) / maxFragmentLength = pieces := ⟨_, rfl⟩
    rw [isPieces] at isLength
    have pieces_pos : 0 < pieces := by
      rw [← isPieces]
      exact Nat.div_pos (by omega) (Nat.pos_of_ne_zero maxPositive)
    have enough := le_divCeil isLength
    rw [divCeil_pos pieces_pos] at isLength
    have isQuotient := Option.some.inj isLength
    have atMost : pieces * length ≤ message.length + pieces - 1 := by
      rw [← isQuotient]
      exact Nat.mul_div_le _ _
    have positive : 0 < length := by
      rw [← isQuotient]
      exact Nat.div_pos (by omega) pieces_pos
    obtain ⟨count, exact, covers, tight⟩ := @padded_length message.length length positive
    have count_pos : 0 < count := by
      rcases Nat.eq_zero_or_pos count with rfl | some
      · omega
      · exact some
    have count_le : count ≤ pieces := by
      by_contra more
      have many := Nat.mul_le_mul_right length (Nat.succ_le_of_lt (not_le.mp more))
      rw [Nat.succ_mul] at many
      omega
    have total : (message ++ List.replicate ((length - message.length % length) % length) 0).length =
        count * length := by
      rw [List.length_append, List.length_replicate]
      exact exact
    obtain ⟨padded, isPadded⟩ : ∃ padded,
      message ++ List.replicate ((length - message.length % length) % length) 0 = padded := ⟨_, rfl⟩
    rw [isPadded] at total
    have parts : partition message length = (List.range count).map fun chunk =>
        (padded.drop (chunk * length)).take length := by
      unfold partition
      simp only [isPadded, total, Nat.mul_div_cancel _ positive]
    have partCount : (partition message length).length = count := by
      rw [parts, List.length_map, List.length_range]
    have part : ∀ index < count, ((partition message length)[index]?).getD [] =
        (padded.drop (index * length)).take length := by
      intro index small
      rw [parts, List.getElem?_map, List.getElem?_range small]
      rfl
    refine ⟨length, positive, ?_, ?_, ?_, ?_, ?_, rfl⟩
    · exact partCount.symm ▸ count_pos
    · change (partition message length).length ≤ message.length
      rw [partCount]
      by_contra more
      have many := Nat.mul_le_mul_right length (Nat.succ_le_of_lt (not_le.mp more))
      have large := Nat.le_mul_of_pos_right message.length positive
      rw [Nat.succ_mul] at many
      omega
    · change divCeil message.length (partition message length).length = some length
      rw [partCount, divCeil_pos count_pos]
      obtain ⟨extra, rfl⟩ := Nat.exists_eq_add_of_le count_le
      have spare := Nat.le_mul_of_pos_right extra positive
      rw [Nat.add_mul] at atMost
      refine congrArg some (Nat.div_eq_of_lt_le ?_ ?_)
      · rw [Nat.mul_comm]
        omega
      · rw [Nat.mul_comm, Nat.mul_succ]
        omega
    · intro index small
      change index < (partition message length).length at small
      rw [partCount] at small
      change (((partition message length)[index]?).getD []).length = length
      have room := Nat.mul_le_mul_right length (Nat.succ_le_of_lt small)
      rw [Nat.succ_mul] at room
      rw [part index small, List.length_take, List.length_drop, total]
      omega
    · change ((List.range (partition message length).length).flatMap
        fun index => ((partition message length)[index]?).getD []).take message.length = message
      have whole : (List.range count).flatMap
          (fun index => ((partition message length)[index]?).getD []) = padded := by
        rw [List.flatMap_congr fun index member => part index (List.mem_range.mp member)]
        exact chunks_join length count padded total
      rw [partCount, whole, ← isPadded, List.take_left']
      rfl

theorem combine_eq {fragments : List Segment} {length : Nat} (items : List Nat) {data : Segment}
    (isLength : data.length = length) (valid : ∀ item ∈ items, item < fragments.length)
    (sized : ∀ item < fragments.length, ((fragments[item]?).getD []).length = length) :
    combine fragments items data = some (plus (fun item => (fragments[item]?).getD []) data items) := by
  induction items generalizing data with
  | nil => rfl
  | cons item items ih =>
      obtain ⟨small, rest⟩ := List.forall_mem_cons.mp valid
      obtain ⟨segment, found⟩ : ∃ segment, fragments[item]? = some segment :=
        ⟨_, List.getElem?_eq_getElem small⟩
      have isSized := sized item small
      rw [found, Option.getD_some] at isSized
      unfold combine xor
      simp only [found]
      rw [if_pos (isLength.trans isSized.symm)]
      simp only
      rw [ih (by rw [List.length_zipWith, isLength, isSized, min_self]) rest]
      unfold plus
      simp only [List.foldl_cons, found, Option.getD_some]

def Encoder.announced (encoder : Encoder) : EncodingMetadata :=
  .new encoder.fragments.length encoder.messageLength encoder.checksum

theorem Encoder.Emits.spec {choose : ChooseFragments} (chooses : Chooses choose) {length : Nat}
    {encoder : Encoder} {fragment : Fragment} (emits : encoder.Emits choose fragment)
    (nonempty : 0 < encoder.fragments.length)
    (sized : ∀ index < encoder.fragments.length, (encoder.segment index).length = length) :
    fragment.metadata = encoder.announced ∧ fragment.data.length = length ∧
      fragment.data = sumOf encoder.segment length
        (choose encoder.fragments.length encoder.checksum fragment.index.toNat) := by
  have emitted_eq : ∀ {encoder next : Encoder} {fragment : Fragment},
      encoder.nextFragment choose = some (fragment, next) →
      (0 < encoder.fragments.length) →
      (∀ index < encoder.fragments.length, (encoder.segment index).length = length) →
      next = { encoder with index := encoder.index + 1 } ∧
        fragment.metadata = encoder.announced ∧
        fragment.data = sumOf encoder.segment length
          (choose encoder.fragments.length encoder.checksum fragment.index.toNat) := by
    intro encoder next fragment emitted nonempty sized
    unfold Encoder.nextFragment at emitted
    split at emitted
    · obtain ⟨first, isFirst⟩ : ∃ first, encoder.fragments[0]? = some first :=
        ⟨_, List.getElem?_eq_getElem nonempty⟩
      have firstSized := sized 0 nonempty
      unfold Encoder.segment at firstSized
      rw [isFirst, Option.getD_some] at firstSized
      simp only [isFirst, firstSized] at emitted
      rw [combine_eq _ List.length_replicate (chooses.below _ _ _) sized] at emitted
      cases emitted
      exact ⟨rfl, rfl, rfl⟩
    · cases emitted
  have both : fragment.metadata = encoder.announced ∧ fragment.data = sumOf encoder.segment length
      (choose encoder.fragments.length encoder.checksum fragment.index.toNat) := by
    induction emits with
    | now emitted => exact (emitted_eq emitted nonempty sized).2
    | later emitted _ ih =>
        obtain ⟨rfl, _⟩ := emitted_eq emitted nonempty sized
        exact ih nonempty sized
  refine ⟨both.1, ?_, both.2⟩
  rw [both.2]
  exact sumOf_length fun index inside => sized index (chooses.below _ _ _ index inside)

/-! ### The closure of what was received -/

namespace Encoder

/-- The sets of the fragments as the encoder chose them, the latest first. -/
def arrivals (choose : ChooseFragments) (encoder : Encoder) (fragments : List Fragment) :
    List (Finset Nat) :=
  (fragments.map fun fragment =>
    (choose encoder.fragments.length encoder.checksum fragment.index.toNat).toFinset).reverse

/-- The closure of the received sets covers the message. -/
def Covered (choose : ChooseFragments) (encoder : Encoder) (fragments : List Fragment) : Prop :=
  ∀ index < encoder.fragments.length, Peeled (· ∈ encoder.arrivals choose fragments) index

/-- The order of arrival does not matter. -/
theorem Covered.mono {choose : ChooseFragments} {encoder : Encoder} {fragments more : List Fragment}
    (covered : encoder.Covered choose fragments)
    (grows : ∀ fragment, fragment ∈ fragments → fragment ∈ more) :
    encoder.Covered choose more := by
  intro index small
  refine (covered index small).mono fun set member => ?_
  unfold arrivals at member ⊢
  rw [List.mem_reverse, List.mem_map] at member ⊢
  obtain ⟨fragment, listed, isSet⟩ := member
  exact ⟨fragment, grows fragment listed, isSet⟩

/-- Every segment that is announced is read off in order of arrival. -/
def Read (choose : ChooseFragments) (encoder : Encoder) (fragments : List Fragment) : Prop :=
  encoder.announced.verify = some true ∧
    encoder.announced.fragmentLength = some (encoder.segment 0).length ∧
    ∀ index < encoder.announced.simpleFragments.toNat,
      readOff (Decoder.arrivals choose fragments) index

/-- When the decoder keeps up with the closure.  What does not fit the 32 bits
of its announcement is never found. -/
def Follows (choose : ChooseFragments) (encoder : Encoder) (fragments : List Fragment) : Prop :=
  if encoder.messageLength < 2 ^ 32 then
    encoder.Covered choose fragments →
      ∀ index < encoder.fragments.length, readOff (encoder.arrivals choose fragments) index
  else ¬ encoder.Covered choose fragments ∧ ¬ encoder.Read choose fragments

variable {choose : ChooseFragments} {encoder : Encoder} {message : List UInt8} {length : Nat}

/-- The announcement of a message that fits it. -/
theorem Cut.announced (cut : encoder.Cut message length) (short : message.length < 2 ^ 32) :
    encoder.announced.simpleFragments.toNat = encoder.fragments.length ∧
      encoder.announced.messageLength.toNat = message.length ∧
      encoder.announced.fragmentLength = some length ∧ encoder.announced.verify = some true := by
  have few := cut.few
  have nonempty := cut.nonempty
  have count : encoder.announced.simpleFragments.toNat = encoder.fragments.length :=
    UInt32.toNat_ofNat_of_lt' (lt_of_le_of_lt few short)
  have whole : encoder.announced.messageLength.toNat = message.length := by
    unfold Encoder.announced EncodingMetadata.new
    rw [cut.messageLength]
    exact UInt32.toNat_ofNat_of_lt' short
  have sized : encoder.announced.fragmentLength = some length := by
    unfold EncodingMetadata.fragmentLength
    rw [count, whole, cut.quotient]
  refine ⟨count, whole, sized, ?_⟩
  unfold EncodingMetadata.verify
  rw [if_pos, sized]
  · exact congrArg some (decide_eq_true cut.positive)
  · rw [UInt32.lt_iff_toNat_lt, UInt32.lt_iff_toNat_lt, count, whole]
    exact ⟨nonempty, lt_of_lt_of_le nonempty few⟩

theorem arrivals_eq (short : encoder.announced.simpleFragments.toNat = encoder.fragments.length)
    {fragments : List Fragment}
    (alike : ∀ fragment ∈ fragments, fragment.metadata = encoder.announced) :
    Decoder.arrivals choose fragments = encoder.arrivals choose fragments := by
  refine congrArg List.reverse (List.map_congr_left fun fragment listed => ?_)
  unfold Fragment.indexes
  rw [alike fragment listed, short]
  rfl

theorem Read.covered (short : encoder.announced.simpleFragments.toNat = encoder.fragments.length)
    {fragments : List Fragment}
    (alike : ∀ fragment ∈ fragments, fragment.metadata = encoder.announced)
    (read : encoder.Read choose fragments) : encoder.Covered choose fragments := by
  intro index small
  rw [← arrivals_eq short alike]
  exact readOff_peeled (read.2.2 index (short ▸ small))

end Encoder

/-- The decoder yields the message when the closure of the received fragments
covers it, and nothing else ever, exactly if it keeps up with the closure. -/
theorem decoder_follows_closure_iff (sha256 : Sha256) {choose : ChooseFragments}
    (chooses : Chooses choose) {message : List UInt8} {maxFragmentLength : Nat} {encoder : Encoder}
    (made : Encoder.new sha256 message maxFragmentLength = some encoder)
    (fragments : List Fragment) (emitted : ∀ fragment ∈ fragments, encoder.Emits choose fragment) :
    ∃ outcomes decoder, Decoder.default.run choose fragments = some (outcomes, decoder) ∧
      (((Decoder.Yields outcomes ↔ encoder.Covered choose fragments) ∧
        ∀ found, .ok (some found) ∈ outcomes → found = message) ↔
          encoder.Follows choose fragments) := by
  obtain ⟨length, cut⟩ := Encoder.new_cut made
  have spec := fun fragment listed =>
    (emitted fragment listed).spec chooses cut.nonempty cut.sized
  have alike : ∀ fragment ∈ fragments, fragment.metadata = encoder.announced :=
    fun fragment listed => (spec fragment listed).1
  have alikeSized : ∀ fragment ∈ fragments,
      fragment.metadata = encoder.announced ∧ fragment.data.length = length :=
    fun fragment listed => ⟨(spec fragment listed).1, (spec fragment listed).2.1⟩
  obtain ⟨outcomes, decoder, ran, yields⟩ := Decoder.yields_iff chooses fragments alikeSized
  rw [← cut.sized 0 cut.nonempty] at yields
  change Decoder.Yields outcomes ↔ encoder.Read choose fragments at yields
  refine ⟨outcomes, decoder, ran, ?_⟩
  unfold Encoder.Follows
  rw [cut.messageLength, yields]
  by_cases short : message.length < 2 ^ 32
  · obtain ⟨count, whole, sized, verified⟩ := cut.announced short
    have original : ∀ found, .ok (some found) ∈ outcomes → found = message := by
      intro found member
      obtain ⟨metadata, isMetadata, ⟨fragment, listed, rfl⟩, _⟩ :=
        Decoder.found_announced chooses ran member
      rw [alike fragment listed] at isMetadata
      have segmentSized : ∀ index < encoder.announced.simpleFragments.toNat,
          encoder.announced.fragmentLength = some (encoder.segment index).length :=
        fun index small => by rw [sized, cut.sized index (count ▸ small)]
      have consistent : ∀ other ∈ fragments, other.metadata = encoder.announced →
          other.data = sumOf encoder.segment other.data.length (other.indexes choose) := by
        intro other otherListed _
        obtain ⟨_, fits, isSum⟩ := spec other otherListed
        unfold Fragment.indexes
        rw [fits, alike other otherListed, count]
        exact isSum
      rw [Decoder.found_original chooses ran isMetadata segmentSized consistent member, count, whole]
      exact cut.joined
    rw [if_pos short, and_iff_left original]
    have same : Decoder.arrivals choose fragments = encoder.arrivals choose fragments :=
      Encoder.arrivals_eq count alike
    constructor
    · intro iff covered
      have read := (iff.mpr covered).2.2
      rw [same, count] at read
      exact read
    · intro follows
      refine ⟨fun read => read.covered count alike, fun covered => ⟨verified, ?_, ?_⟩⟩
      · rw [sized, cut.sized 0 cut.nonempty]
      · rw [same, count]
        exact follows covered
  · rw [if_neg short]
    constructor
    · rintro ⟨iff, original⟩
      have unread : ¬ encoder.Read choose fragments := by
        intro read
        obtain ⟨found, member⟩ := yields.mpr read
        obtain ⟨metadata, _, _, isLength⟩ := Decoder.found_announced chooses ran member
        have bound := metadata.messageLength.toNat_lt
        rw [original found member] at isLength
        omega
      exact ⟨fun covered => unread (iff.mpr covered), unread⟩
    · rintro ⟨uncovered, unread⟩
      refine ⟨⟨fun read => absurd read unread, fun covered => absurd covered uncovered⟩, ?_⟩
      intro found member
      exact absurd (yields.mp ⟨found, member⟩) unread

/-! Three bytes in three segments. After the first segment and the sum of the
other two, the sum of the first two gives the second away, and the third stays
in the buffer. -/

theorem pairs_nonempty {count : Nat} (positive : 0 < count) (checksum : Checksum) (index : Nat) :
    pairs count checksum index ≠ [] := by
  unfold pairs
  split
  · exact List.cons_ne_nil _ _
  · split
    · exact fun empty => positive.ne' (List.range_eq_nil.mp empty)
    · split <;> exact List.cons_ne_nil _ _

def threeBytes : Encoder :=
  { fragments := [[1], [2], [3]]
    messageLength := 3
    checksum := checksum Decoder.constantHash [1, 2, 3]
    index := 0 }

theorem threeBytes_new : Encoder.new Decoder.constantHash [1, 2, 3] 1 = some threeBytes := by
  with_unfolding_all rfl

def threeBytesFragment (index : UInt32) (data : Segment) : Fragment :=
  { metadata := threeBytes.announced
    index := index
    data := data }

theorem threeBytes_emits : threeBytes.Emits pairs (threeBytesFragment 0 [1]) ∧
    threeBytes.Emits pairs (threeBytesFragment 3 [1]) ∧
    threeBytes.Emits pairs (threeBytesFragment 4 [3]) := by
  have step : ∀ index data, ({ threeBytes with index := index }).nextFragment pairs =
      some (threeBytesFragment index data, { threeBytes with index := index + 1 }) →
      Encoder.Emits pairs { threeBytes with index := index } (threeBytesFragment index data) ∧
      ∀ fragment, Encoder.Emits pairs { threeBytes with index := index + 1 } fragment →
        Encoder.Emits pairs { threeBytes with index := index } fragment :=
    fun _ _ emitted => ⟨.now emitted, fun _ rest => .later emitted rest⟩
  have first := step 0 [1] (by with_unfolding_all rfl)
  have second := step 1 [2] (by with_unfolding_all rfl)
  have third := step 2 [3] (by with_unfolding_all rfl)
  have fourth := step 3 [1] (by with_unfolding_all rfl)
  have fifth := step 4 [3] (by with_unfolding_all rfl)
  have after : ∀ fragment, Encoder.Emits pairs { threeBytes with index := 3 } fragment →
      threeBytes.Emits pairs fragment :=
    fun fragment rest => first.2 _ (second.2 _ (third.2 _ rest))
  exact ⟨first.1, after _ fourth.1, after _ (fourth.2 _ fifth.1)⟩

theorem threeBytes_covered : threeBytes.Covered pairs
    [threeBytesFragment 0 [1], threeBytesFragment 3 [1], threeBytesFragment 4 [3]] := by
  have sets : threeBytes.arrivals pairs [threeBytesFragment 0 [1], threeBytesFragment 3 [1],
      threeBytesFragment 4 [3]] = [{0, 1}, {1, 2}, {0}] := by with_unfolding_all rfl
  unfold Encoder.Covered
  rw [sets]
  have zero : Peeled (· ∈ ([{0, 1}, {1, 2}, {0}] : List (Finset Nat))) 0 := by
    refine .peel (show {0} ∈ _ by simp) (by decide) fun other inside different => ?_
    exact absurd (Finset.mem_singleton.mp inside) different
  have one : Peeled (· ∈ ([{0, 1}, {1, 2}, {0}] : List (Finset Nat))) 1 := by
    refine .peel (show {0, 1} ∈ _ by simp) (by decide) fun other inside different => ?_
    rcases Finset.mem_insert.mp inside with rfl | last
    · exact zero
    · exact absurd (Finset.mem_singleton.mp last) different
  have two : Peeled (· ∈ ([{0, 1}, {1, 2}, {0}] : List (Finset Nat))) 2 := by
    refine .peel (show {1, 2} ∈ _ by simp) (by decide) fun other inside different => ?_
    rcases Finset.mem_insert.mp inside with rfl | last
    · exact one
    · exact absurd (Finset.mem_singleton.mp last) different
  intro index small
  change index < 3 at small
  interval_cases index
  · exact zero
  · exact one
  · exact two

/-- The same three fragments in two orders. -/
theorem closure_missed :
    (∀ count checksum index, 0 < count → pairs count checksum index ≠ []) ∧
    (∀ count checksum index, index < count → pairs count checksum index = [index]) ∧
    Chooses pairs ∧
    Encoder.new Decoder.constantHash [1, 2, 3] 1 = some threeBytes ∧
    (∀ fragment ∈ [threeBytesFragment 0 [1], threeBytesFragment 3 [1], threeBytesFragment 4 [3]],
      threeBytes.Emits pairs fragment) ∧
    threeBytes.Covered pairs
      [threeBytesFragment 0 [1], threeBytesFragment 3 [1], threeBytesFragment 4 [3]] ∧
    (Decoder.default.run pairs [threeBytesFragment 0 [1], threeBytesFragment 3 [1],
      threeBytesFragment 4 [3]]).map Prod.fst = some [.ok none, .ok none, .ok none] ∧
    (Decoder.default.run pairs [threeBytesFragment 3 [1], threeBytesFragment 4 [3],
      threeBytesFragment 0 [1]]).map Prod.fst = some [.ok none, .ok none, .ok (some [1, 2, 3])] := by
  obtain ⟨first, second, third⟩ := threeBytes_emits
  refine ⟨fun _ checksum index positive => pairs_nonempty positive checksum index,
    fun _ _ _ small => if_pos small, pairs_chooses, threeBytes_new, ?_,
    threeBytes_covered, by with_unfolding_all rfl,
    by with_unfolding_all rfl⟩
  intro fragment listed
  simp only [List.mem_cons, List.not_mem_nil, or_false] at listed
  rcases listed with rfl | rfl | rfl
  · exact first
  · exact second
  · exact third

/-- In the other order the decoder follows. -/
theorem decoder_follows_closure_iff_sample : ∃ outcomes decoder,
    Decoder.default.run pairs [threeBytesFragment 3 [1], threeBytesFragment 4 [3],
      threeBytesFragment 0 [1]] = some (outcomes, decoder) ∧
      .ok (some [1, 2, 3]) ∈ outcomes ∧
      threeBytes.Follows pairs
        [threeBytesFragment 3 [1], threeBytesFragment 4 [3], threeBytesFragment 0 [1]] := by
  obtain ⟨first, second, third⟩ := threeBytes_emits
  have emitted : ∀ fragment ∈ [threeBytesFragment 3 [1], threeBytesFragment 4 [3],
      threeBytesFragment 0 [1]], threeBytes.Emits pairs fragment := by
    intro fragment listed
    simp only [List.mem_cons, List.not_mem_nil, or_false] at listed
    rcases listed with rfl | rfl | rfl
    · exact second
    · exact third
    · exact first
  obtain ⟨outcomes, decoder, ran, follows⟩ :=
    decoder_follows_closure_iff Decoder.constantHash pairs_chooses threeBytes_new _ emitted
  have observed : (Decoder.default.run pairs [threeBytesFragment 3 [1], threeBytesFragment 4 [3],
      threeBytesFragment 0 [1]]).map Prod.fst = some [.ok none, .ok none, .ok (some [1, 2, 3])] := by
    with_unfolding_all rfl
  rw [ran] at observed
  have yields : outcomes = [.ok none, .ok none, .ok (some [1, 2, 3])] := Option.some.inj observed
  have member : .ok (some [1, 2, 3]) ∈ outcomes := by
    rw [yields]
    exact List.mem_cons_of_mem _ (List.mem_cons_of_mem _ List.mem_cons_self)
  refine ⟨outcomes, decoder, ran, member, follows.mp ⟨⟨fun _ => ?_, fun _ => ⟨_, member⟩⟩, ?_⟩⟩
  · exact threeBytes_covered.mono fun fragment => by
      simp only [List.mem_cons, List.not_mem_nil, or_false]
      tauto
  · intro found isFound
    rw [yields] at isFound
    simp only [List.mem_cons, reduceCtorEq, Except.ok.injEq, Option.some.injEq,
      List.not_mem_nil, or_false, false_or] at isFound
    exact isFound

end Picomint.Fountain
