/-
The fountain code: a message cut into segments, the fragments an encoder emits
over them, and the decoder that recombines fragments.

A result that is absent stands for a panic: a failed assertion, a missing
entry, an overflow or a division by zero.
-/

import Mathlib.Data.UInt
import Mathlib.Data.Vector.Basic
import Picomint.Lib.SortedMap

namespace Picomint.Fountain

abbrev Segment : Type := List UInt8

abbrev Checksum : Type := List.Vector UInt8 4

inductive Error where
  | invalidFragment
  | inconsistentFragment
  deriving DecidableEq, Repr

/-- The hash of the library, of which a checksum is the first four bytes. -/
abbrev Sha256 : Type := List UInt8 → List.Vector UInt8 32

def checksum (sha256 : Sha256) (data : List UInt8) : Checksum :=
  ⟨(sha256 data).toList.take 4, by simp⟩

/-- The segments a fragment combines, from the number of segments, the checksum
and the index of the fragment. -/
abbrev ChooseFragments : Type := Nat → Checksum → Nat → List Nat

/-- `div_ceil`. -/
def divCeil (value divisor : Nat) : Option Nat :=
  if divisor = 0 then none else some ((value + divisor - 1) / divisor)

def xor (v1 v2 : Segment) : Option Segment :=
  if v1.length = v2.length then some (List.zipWith (· ^^^ ·) v1 v2) else none

structure EncodingMetadata where
  simpleFragments : UInt32
  messageLength : UInt32
  checksum : Checksum
  deriving DecidableEq

namespace EncodingMetadata

/-- Both counts are truncated to 32 bits. -/
def new (simpleFragments messageLength : Nat) (checksum : Checksum) : EncodingMetadata :=
  { simpleFragments := UInt32.ofNat simpleFragments
    messageLength := UInt32.ofNat messageLength
    checksum := checksum }

def fragmentLength (metadata : EncodingMetadata) : Option Nat :=
  divCeil metadata.messageLength.toNat metadata.simpleFragments.toNat

def verify (metadata : EncodingMetadata) : Option Bool :=
  if 0 < metadata.simpleFragments ∧ 0 < metadata.messageLength then
    metadata.fragmentLength.map fun length => 0 < length
  else some false

end EncodingMetadata

structure Fragment where
  metadata : EncodingMetadata
  index : UInt32
  data : Segment
  deriving DecidableEq

def Fragment.indexes (choose : ChooseFragments) (fragment : Fragment) : List Nat :=
  choose fragment.metadata.simpleFragments.toNat fragment.metadata.checksum fragment.index.toNat

/-! ### The encoder -/

structure Encoder where
  fragments : List Segment
  messageLength : Nat
  checksum : Checksum
  index : UInt32

def fragmentLength (dataLength maxFragmentLength : Nat) : Option Nat :=
  (divCeil dataLength maxFragmentLength).bind (divCeil dataLength)

/-- The last fragment is filled up with zeros. -/
def partition (data : List UInt8) (fragmentLength : Nat) : List Segment :=
  let padded := data ++
    List.replicate ((fragmentLength - data.length % fragmentLength) % fragmentLength) 0
  (List.range (padded.length / fragmentLength)).map fun chunk =>
    (padded.drop (chunk * fragmentLength)).take fragmentLength

def Encoder.new (sha256 : Sha256) (message : List UInt8) (maxFragmentLength : Nat) :
    Option Encoder :=
  if message = [] ∨ maxFragmentLength = 0 then none
  else (fragmentLength message.length maxFragmentLength).map fun length =>
    { fragments := partition message length
      messageLength := message.length
      checksum := Fountain.checksum sha256 message
      index := 0 }

/-- Add the chosen segments to the data one after the other. -/
def combine (fragments : List Segment) : List Nat → Segment → Option Segment
  | [], data => some data
  | item :: items, data =>
      match fragments[item]? with
      | none => none
      | some segment =>
          match xor data segment with
          | none => none
          | some data => combine fragments items data

/-- At the last index the increment overflows: a debug build panics, and a
release build starts over at zero with the fragments sent before. -/
def Encoder.nextFragment (choose : ChooseFragments) (encoder : Encoder) :
    Option (Fragment × Encoder) :=
  if encoder.index.toNat + 1 < 2 ^ 32 then
    match encoder.fragments[0]? with
    | none => none
    | some first =>
        match combine encoder.fragments
            (choose encoder.fragments.length encoder.checksum encoder.index.toNat)
            (List.replicate first.length 0) with
        | none => none
        | some data =>
            some
              ({ metadata :=
                  .new encoder.fragments.length encoder.messageLength encoder.checksum
                 index := encoder.index
                 data := data },
                { encoder with index := encoder.index + 1 })
  else none

/-! ### The decoder -/

structure Decoder where
  decoded : SortedMap Nat Segment
  buffer : SortedMap (List Nat) Segment
  metadata : Option EncodingMetadata

namespace Decoder

def default : Decoder :=
  { decoded := SortedMap.empty
    buffer := SortedMap.empty
    metadata := none }

/-- If the message is available, returns it. -/
def message (decoder : Decoder) : Option (List UInt8) :=
  match decoder.metadata with
  | none => none
  | some metadata =>
      if decoder.decoded.size < metadata.simpleFragments.toNat then none
      else some (decoder.decoded.values.flatten.take metadata.messageLength.toNat)

/-- Take a known segment out of the listed entries of the buffer.  A segment
that is learned so goes on top of the queue. -/
def reduce (index : Nat) (simple : Segment) :
    List (List Nat × Segment) → Decoder → List (Nat × Segment) →
      Option (Decoder × List (Nat × Segment))
  | [], decoder, queue => some (decoder, queue)
  | (indexes, data) :: entries, decoder, queue =>
      match decoder.buffer.get? indexes with
      | none => none
      | some _ =>
          let buffer := decoder.buffer.erase indexes
          match xor data simple with
          | none => none
          | some data =>
              match indexes.filter (· ≠ index) with
              | [last] =>
                  reduce index simple entries
                    { decoder with decoded := decoder.decoded.insert last data, buffer := buffer }
                    ((last, data) :: queue)
              | remaining =>
                  reduce index simple entries
                    { decoder with buffer := buffer.insert remaining data } queue

/-- The loop over the queue, whose top comes first. -/
def drain : Nat → Decoder → List (Nat × Segment) → Option Decoder
  | 0, _, _ => none
  | _ + 1, decoder, [] => some decoder
  | steps + 1, decoder, (index, simple) :: queue =>
      match reduce index simple
          (decoder.buffer.rows.filter fun entry => entry.1.contains index) decoder queue with
      | none => none
      | some (decoder, queue) => drain steps decoder queue

/-- One more than the loop can run: every turn takes an entry off the queue,
and a new one costs the indexes of an entry of the buffer. -/
def stepBound (decoder : Decoder) : Nat :=
  decoder.decoded.size + (decoder.buffer.keys.map List.length).sum + 1

def processSimple (decoder : Decoder) (index : Nat) (data : Segment) : Option Decoder :=
  let decoder := { decoder with decoded := decoder.decoded.insert index data }
  drain decoder.stepBound decoder decoder.decoded.rows.reverse

def removeKnown (decoded : SortedMap Nat Segment) : List Nat → Segment → Option Segment
  | [], data => some data
  | remove :: toRemove, data =>
      match decoded.get? remove with
      | none => none
      | some simple =>
          match xor data simple with
          | none => none
          | some data => removeKnown decoded toRemove data

def processComplex (decoder : Decoder) (indexes : List Nat) (data : Segment) : Option Decoder :=
  let toRemove := indexes.filter decoder.decoded.contains
  if indexes.length = toRemove.length then some decoder
  else match removeKnown decoder.decoded toRemove data with
    | none => none
    | some data =>
        match indexes.filter (fun index => !toRemove.contains index) with
        | [index] => some { decoder with decoded := decoder.decoded.insert index data }
        | remaining => some { decoder with buffer := decoder.buffer.insert remaining data }

def process (choose : ChooseFragments) (decoder : Decoder) (fragment : Fragment) :
    Option Decoder :=
  match fragment.indexes choose with
  | [index] => decoder.processSimple index fragment.data
  | indexes => decoder.processComplex indexes fragment.data

def receive (choose : ChooseFragments) (decoder : Decoder) (fragment : Fragment) :
    Option (Except Error (Option (List UInt8)) × Decoder) :=
  match decoder.message with
  | some message => some (.ok (some message), decoder)
  | none =>
      match fragment.metadata.verify with
      | none => none
      | some false => some (.error .invalidFragment, decoder)
      | some true =>
          match fragment.metadata.fragmentLength with
          | none => none
          | some length =>
              if fragment.data.length ≠ length then some (.error .invalidFragment, decoder)
              else if decoder.metadata = none ∨ decoder.metadata = some fragment.metadata then
                match process choose { decoder with metadata := some fragment.metadata }
                    fragment with
                | none => none
                | some decoder => some (.ok decoder.message, decoder)
              else some (.error .inconsistentFragment, decoder)

/-- Receive one fragment after the other. -/
def run (choose : ChooseFragments) (decoder : Decoder) :
    List Fragment → Option (List (Except Error (Option (List UInt8))) × Decoder)
  | [] => some ([], decoder)
  | fragment :: fragments =>
      match decoder.receive choose fragment with
      | none => none
      | some (outcome, decoder) =>
          match run choose decoder fragments with
          | none => none
          | some (outcomes, decoder) => some (outcome :: outcomes, decoder)

end Decoder

end Picomint.Fountain
