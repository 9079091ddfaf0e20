/-
Programs that read a stream of symbols, and what they read exactly.

A decoder asks for up to a number of symbols at a time, as a reader of a byte
slice does, and decides from what it got.  The grammar of a decoder relates a
value to the symbols it is read from; the rules below compute the grammar of
a composed decoder from those of its parts.
-/

import Mathlib.Data.List.Basic
import Mathlib.Tactic

universe u

inductive Decoder (σ ε α : Type u) : Type u where
  | done (value : α)
  | fail (fault : ε)
  | read (count : Nat) (next : List σ → Decoder σ ε α)

namespace Decoder

variable {σ ε α β : Type u}

/-- A read near the end of the stream returns the symbols that are left. -/
def run : Decoder σ ε α → List σ → Except ε (α × List σ)
  | done value, input => .ok (value, input)
  | fail fault, _ => .error fault
  | read count next, input => run (next (input.take count)) (input.drop count)

protected def bind : Decoder σ ε α → (α → Decoder σ ε β) → Decoder σ ε β
  | done value, next => next value
  | fail fault, _ => fail fault
  | read count resume, next => read count fun chunk => (resume chunk).bind next

instance : Monad (Decoder σ ε) where
  pure := done
  bind := Decoder.bind

def readExact (count : Nat) (endOfStream : ε) : Decoder σ ε (List σ) :=
  read count fun chunk => if chunk.length = count then done chunk else fail endOfStream

theorem run_pure (value : α) (input : List σ) :
    (pure value : Decoder σ ε α).run input = .ok (value, input) := rfl

theorem run_bind_eq_ok {decoder : Decoder σ ε α} {next : α → Decoder σ ε β} {input : List σ}
    {result : β} {rest : List σ} :
    (decoder >>= next).run input = .ok (result, rest) ↔
      ∃ value middle, decoder.run input = .ok (value, middle) ∧
        (next value).run middle = .ok (result, rest) := by
  change (decoder.bind next).run input = _ ↔ _
  induction decoder generalizing input with
  | done value =>
      constructor
      · exact fun found => ⟨value, input, rfl, found⟩
      · rintro ⟨other, middle, same, found⟩
        cases same
        exact found
  | fail fault => simp [Decoder.bind, run]
  | read count resume ih => exact ih (input.take count)

theorem run_readExact_eq_ok {count : Nat} {endOfStream : ε} {input chunk rest : List σ} :
    (readExact count endOfStream).run input = .ok (chunk, rest) ↔
      chunk.length = count ∧ input = chunk ++ rest := by
  simp only [readExact, run]
  constructor
  · intro found
    split at found
    · rename_i full
      simp only [run, Except.ok.injEq, Prod.mk.injEq] at found
      obtain ⟨rfl, rfl⟩ := found
      exact ⟨full, (List.take_append_drop count input).symm⟩
    · cases found
  · rintro ⟨full, rfl⟩
    rw [List.take_left' full, List.drop_left' full, if_pos full, run]

theorem run_consumed {decoder : Decoder σ ε α} {input rest : List σ} {value : α}
    (found : decoder.run input = .ok (value, rest)) :
    ∃ used, input = used ++ rest ∧ decoder.run used = .ok (value, []) := by
  induction decoder generalizing input with
  | done other =>
      simp only [run, Except.ok.injEq, Prod.mk.injEq] at found
      obtain ⟨rfl, rfl⟩ := found
      exact ⟨[], rfl, rfl⟩
  | fail fault => cases found
  | read count next ih =>
      obtain ⟨used, split, alone⟩ := ih (input.take count) found
      have whole : input = (input.take count ++ used) ++ rest := by
        rw [List.append_assoc, ← split, List.take_append_drop]
      refine ⟨input.take count ++ used, whole, ?_⟩
      by_cases enough : count ≤ input.length
      · have full : (input.take count).length = count := List.length_take_of_le enough
        rw [run, List.take_left' full, List.drop_left' full]
        exact alone
      · -- A short read has emptied the stream.
        have short : input.length ≤ count := by omega
        rw [List.drop_eq_nil_of_le short] at split
        obtain ⟨rfl, -⟩ := List.append_eq_nil_iff.mp split.symm
        rw [List.take_of_length_le short] at alone ⊢
        rw [List.append_nil, run, List.take_of_length_le short, List.drop_eq_nil_of_le short]
        exact alone

/-! ### Grammars -/

/-- The decoder returns a value exactly where the input starts with symbols
the grammar relates to it, and leaves what follows them. -/
def Reads (decoder : Decoder σ ε α) (grammar : α → List σ → Prop) : Prop :=
  ∀ input value rest,
    decoder.run input = .ok (value, rest) ↔ ∃ used, grammar value used ∧ input = used ++ rest

theorem Reads.of_iff {decoder : Decoder σ ε α} {grammar other : α → List σ → Prop}
    (reads : decoder.Reads grammar) (same : ∀ value used, grammar value used ↔ other value used) :
    decoder.Reads other := by
  intro input value rest
  rw [reads]
  exact exists_congr fun used => and_congr_left fun _ => same value used

theorem Reads.pure (value : α) :
    (pure value : Decoder σ ε α).Reads fun result used => result = value ∧ used = [] := by
  intro input result rest
  rw [run_pure]
  constructor
  · intro found
    simp only [Except.ok.injEq, Prod.mk.injEq] at found
    exact ⟨[], ⟨found.1.symm, rfl⟩, found.2⟩
  · rintro ⟨used, ⟨rfl, rfl⟩, rfl⟩
    rfl

theorem Reads.fail (fault : ε) :
    (Decoder.fail fault : Decoder σ ε α).Reads fun _ _ => False := by
  intro input value rest
  constructor
  · intro found
    cases found
  · rintro ⟨used, impossible, -⟩
    exact impossible.elim

theorem Reads.readExact (count : Nat) (endOfStream : ε) :
    (readExact count endOfStream : Decoder σ ε (List σ)).Reads
      fun chunk used => chunk = used ∧ used.length = count := by
  intro input chunk rest
  rw [run_readExact_eq_ok]
  constructor
  · rintro ⟨full, split⟩
    exact ⟨chunk, ⟨rfl, full⟩, split⟩
  · rintro ⟨used, ⟨rfl, full⟩, split⟩
    exact ⟨full, split⟩

/-- The continuation is needed only at values the first decoder can return. -/
theorem Reads.bind {decoder : Decoder σ ε α} {next : α → Decoder σ ε β}
    {first : α → List σ → Prop} {second : α → β → List σ → Prop}
    (reads : decoder.Reads first)
    (nextReads : ∀ value used, first value used → (next value).Reads (second value)) :
    (decoder >>= next).Reads fun result used =>
      ∃ value front back, first value front ∧ second value result back ∧ used = front ++ back := by
  intro input result rest
  rw [run_bind_eq_ok]
  constructor
  · rintro ⟨value, middle, found, foundNext⟩
    obtain ⟨front, firstRead, rfl⟩ := (reads _ _ _).mp found
    obtain ⟨back, secondRead, rfl⟩ := (nextReads value front firstRead _ _ _).mp foundNext
    exact ⟨front ++ back, ⟨value, front, back, firstRead, secondRead, rfl⟩,
      (List.append_assoc _ _ _).symm⟩
  · rintro ⟨used, ⟨value, front, back, firstRead, secondRead, rfl⟩, rfl⟩
    refine ⟨value, back ++ rest, (reads _ _ _).mpr ⟨front, firstRead, List.append_assoc _ _ _⟩, ?_⟩
    exact (nextReads value front firstRead _ _ _).mpr ⟨back, secondRead, rfl⟩

/-- A decoder reads exactly the encodings when it returns every encoded value
in front of any rest, and accepts as a whole input only encodings. -/
theorem reads_encode_iff {decoder : Decoder σ ε α} {encode : α → Option (List σ)} :
    (decoder.Reads fun value used => encode value = some used) ↔
      (∀ value used rest, encode value = some used →
        decoder.run (used ++ rest) = .ok (value, rest)) ∧
      ∀ input value, decoder.run input = .ok (value, []) → encode value = some input := by
  constructor
  · intro reads
    refine ⟨fun value used rest encoded => (reads _ _ _).mpr ⟨used, encoded, rfl⟩, ?_⟩
    intro input value found
    obtain ⟨used, encoded, rfl⟩ := (reads _ _ _).mp found
    rw [List.append_nil]
    exact encoded
  · rintro ⟨roundTrip, whole⟩ input value rest
    constructor
    · intro found
      obtain ⟨used, split, alone⟩ := run_consumed found
      exact ⟨used, whole used value alone, split⟩
    · rintro ⟨used, encoded, rfl⟩
      exact roundTrip value used rest encoded

/-! ### Sequences -/

/-- The items are read one after the other from the symbols. -/
def Sequence (grammar : α → List σ → Prop) : List α → List σ → Prop
  | [], used => used = []
  | item :: items, used =>
      ∃ front back, grammar item front ∧ Sequence grammar items back ∧ used = front ++ back

/-- Fold a decoding step over a counter, the loop of a counted collection.
The invariant relates the accumulator to the items read so far. -/
def repeatInto (step : β → Decoder σ ε β) : Nat → β → Decoder σ ε β
  | 0, state => pure state
  | count + 1, state => do
      let next ← step state
      repeatInto step count next

/-- If a step extends the state by one item, the loop extends it by as many
items as it counts. -/
theorem Reads.repeatInto {step : β → Decoder σ ε β} (grammar : α → List σ → Prop)
    (extend : β → List α → β → Prop)
    (nothing : ∀ state result, extend state [] result ↔ result = state)
    (more : ∀ state item items result,
      extend state (item :: items) result ↔
        ∃ middle, extend state [item] middle ∧ extend middle items result)
    (stepReads : ∀ state, (step state).Reads fun result used =>
      ∃ item, grammar item used ∧ extend state [item] result)
    (count : Nat) (state : β) :
    (repeatInto step count state).Reads fun result used =>
      ∃ items, items.length = count ∧ Sequence grammar items used ∧ extend state items result := by
  induction count generalizing state with
  | zero =>
      refine (Reads.pure state).of_iff fun result used => ?_
      constructor
      · rintro ⟨rfl, rfl⟩
        exact ⟨[], rfl, rfl, (nothing _ _).mpr rfl⟩
      · rintro ⟨items, empty, sequence, extended⟩
        obtain rfl := List.length_eq_zero_iff.mp empty
        exact ⟨(nothing _ _).mp extended, sequence⟩
  | succ count ih =>
      refine ((stepReads state).bind fun middle _ _ => ih middle).of_iff fun result used => ?_
      constructor
      · rintro ⟨middle, front, back, ⟨item, read, first⟩, ⟨items, counted, sequence, later⟩, rfl⟩
        exact ⟨item :: items, congrArg (· + 1) counted, ⟨front, back, read, sequence, rfl⟩,
          (more _ _ _ _).mpr ⟨middle, first, later⟩⟩
      · rintro ⟨items, counted, sequence, extended⟩
        cases items with
        | nil => cases counted
        | cons item items =>
            obtain ⟨front, back, read, later, rfl⟩ := sequence
            obtain ⟨middle, first, rest⟩ := (more _ _ _ _).mp extended
            exact ⟨middle, front, back, ⟨item, read, first⟩,
              ⟨items, Nat.succ.inj counted, later, rest⟩, rfl⟩

theorem Sequence.of_iff {grammar other : α → List σ → Prop}
    (same : ∀ value used, grammar value used ↔ other value used) {items : List α}
    {used : List σ} : Sequence grammar items used ↔ Sequence other items used := by
  induction items generalizing used with
  | nil => exact Iff.rfl
  | cons item items ih =>
      simp only [Sequence, same, ih]

end Decoder
