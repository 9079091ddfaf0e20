/-
What the decoder holds, and what one fragment does to it.

Every entry stands for a received set of segments, less those that are known.
The data may be any sums that survive the removal of a known segment: sums of
one length, or the sums of given segments.
-/

import Picomint.Fountain.Fragments
import Picomint.Lib.Peeling

namespace Picomint.Fountain

open Peeling

/-- Data for lists of indexes, all of one length and closed under taking a
known segment out. -/
structure Sums (length : Nat) (good : List Nat → Segment → Prop) : Prop where
  size : ∀ {indexes data}, good indexes data → data.length = length
  remove : ∀ {indexes : List Nat} {index : Nat} {data simple}, indexes.Nodup → index ∈ indexes →
    good indexes data → good [index] simple →
      good (indexes.filter (· ≠ index)) (List.zipWith (· ^^^ ·) data simple)

theorem Sums.xor_eq {length : Nat} {good : List Nat → Segment → Prop} (sums : Sums length good)
    {indexes others : List Nat} {data simple : Segment} (isGood : good indexes data)
    (isSimple : good others simple) : xor data simple = some (List.zipWith (· ^^^ ·) data simple) :=
  if_pos ((sums.size isGood).trans (sums.size isSimple).symm)

namespace Decoder

/-- Of the set, the listed indexes are left once what is known is taken out. -/
structure Rest (decoded : SortedMap Nat Segment) (set : Finset Nat) (indexes : List Nat) :
    Prop where
  within : ∀ index ∈ indexes, index ∈ set
  outside : ∀ index ∈ set, index ∉ indexes → decoded.contains index = true

structure Reads (count : Nat) (good : List Nat → Segment → Prop) (received : Finset Nat → Prop)
    (decoder : Decoder) : Prop where
  known : ∀ index data, decoder.decoded.get? index = some data →
    index < count ∧ good [index] data ∧ Peeled received index
  mixed : ∀ indexes data, decoder.buffer.get? indexes = some data →
    indexes.Nodup ∧ 2 ≤ indexes.length ∧ (∀ index ∈ indexes, index < count) ∧
      good indexes data ∧ ∃ set, received set ∧ Rest decoder.decoded set indexes
  kept : ∀ set, received set → ∃ indexes, Rest decoder.decoded set indexes ∧
    (indexes = [] ∨ decoder.buffer.contains indexes = true)

def Free (decoder : Decoder) (index : Nat) : Prop :=
  ∀ indexes data, decoder.buffer.get? indexes = some data → index ∉ indexes

def Settled (decoder : Decoder) : Prop :=
  ∀ index, decoder.decoded.contains index = true → decoder.Free index

def weight (decoder : Decoder) : Nat := decoder.buffer.total fun indexes _ => indexes.length

variable {count length : Nat} {good : List Nat → Segment → Prop} {received : Finset Nat → Prop}
  {decoder : Decoder}

theorem Rest.mono {decoded grown : SortedMap Nat Segment} {set : Finset Nat} {indexes : List Nat}
    (rest : Rest decoded set indexes)
    (grows : ∀ index, decoded.contains index = true → grown.contains index = true) :
    Rest grown set indexes :=
  ⟨rest.within, fun index inside out => grows index (rest.outside index inside out)⟩

theorem Reads.peeled (reads : Reads count good received decoder) {index : Nat}
    (contained : decoder.decoded.contains index = true) : Peeled received index := by
  obtain ⟨data, found⟩ := (decoder.decoded.contains_iff index).mp contained
  exact (reads.known index data found).2.2

theorem Rest.peeled {decoded : SortedMap Nat Segment} {set : Finset Nat} {index : Nat}
    (rest : Rest decoded set [index]) (member : received set)
    (known : ∀ other, decoded.contains other = true → Peeled received other) :
    Peeled received index := by
  refine .peel member (rest.within index List.mem_cons_self) ?_
  intro other inside different
  exact known other (rest.outside other inside fun same => different (List.mem_singleton.mp same))

theorem exists_other {indexes : List Nat} (distinct : indexes.Nodup) (two : 2 ≤ indexes.length)
    (index : Nat) : ∃ other ∈ indexes, other ≠ index := by
  by_contra only
  push Not at only
  have replicated := List.eq_replicate_of_mem only
  rw [replicated] at distinct
  have short := List.nodup_replicate.mp distinct
  omega

/-- Once the buffer lists nothing known, the decoder knows the closure. -/
theorem Reads.closed (reads : Reads count good received decoder) (settled : decoder.Settled) :
    Closed received fun index => decoder.decoded.contains index = true := by
  intro set member index inside others
  by_contra unknown
  obtain ⟨indexes, rest, empty | listed⟩ := reads.kept set member
  · exact unknown (rest.outside index inside (by rw [empty]; exact List.not_mem_nil))
  · obtain ⟨data, found⟩ := (decoder.buffer.contains_iff indexes).mp listed
    obtain ⟨distinct, two, _⟩ := reads.mixed indexes data found
    obtain ⟨other, inEntry, different⟩ := exists_other distinct two index
    exact settled other (others other (rest.within other inEntry) different) indexes data found
      inEntry

theorem Reads.knows_iff (reads : Reads count good received decoder) (settled : decoder.Settled)
    (index : Nat) : decoder.decoded.contains index = true ↔ Peeled received index := by
  constructor
  · exact reads.peeled
  · exact fun peeled => peeled.within (reads.closed settled)

/-! ### Taking a known segment out of the buffer -/

theorem total_erase_le (map : SortedMap (List Nat) Segment) (key : List Nat) :
    (map.erase key).total (fun indexes _ => indexes.length) ≤
      map.total fun indexes _ => indexes.length := by
  cases found : map.get? key with
  | none => rw [map.erase_of_get?_none found]
  | some value =>
      have split := map.total_erase_of_some (fun indexes _ => indexes.length) found
      omega

theorem total_insert_le (map : SortedMap (List Nat) Segment) (key : List Nat) (value : Segment) :
    (map.insert key value).total (fun indexes _ => indexes.length) ≤
      map.total (fun indexes _ => indexes.length) + key.length := by
  have permuted := (map.rows_insert_perm key value).map fun row => row.1.length
  have erased := total_erase_le map key
  unfold SortedMap.total at erased ⊢
  simp only at erased ⊢
  rw [permuted.sum_eq, List.map_cons, List.sum_cons]
  simp only
  omega

/-- What a step of the loop keeps, besides the entries that are still listed. -/
structure Step (count : Nat) (good : List Nat → Segment → Prop) (received : Finset Nat → Prop)
    (index : Nat) (decoder : Decoder) (queue : List (Nat × Segment)) : Prop where
  reads : Reads count good received decoder
  present : decoder.decoded.contains index = true
  valid : ∀ entry ∈ queue, decoder.decoded.contains entry.1 = true ∧ good [entry.1] entry.2
  pending : ∀ other, decoder.decoded.contains other = true →
    other ∈ queue.map Prod.fst ∨ other = index ∨ decoder.Free other

/-- The decoder after an entry is taken out and its remainder put back. -/
theorem Step.putBack {index : Nat} {queue : List (Nat × Segment)}
    (step : Step count good received index decoder queue) {length : Nat} (sums : Sums length good)
    {indexes : List Nat} {data simple : Segment} (isSimple : good [index] simple)
    (found : decoder.buffer.get? indexes = some data) (listed : index ∈ indexes)
    (long : 2 ≤ (indexes.filter (· ≠ index)).length) :
    Step count good received index
      { decoder with
        buffer := (decoder.buffer.erase indexes).insert (indexes.filter (· ≠ index))
          (List.zipWith (· ^^^ ·) data simple) } queue := by
  obtain ⟨distinct, _, small, isGood, set, member, rest⟩ := step.reads.mixed indexes data found
  have restLess : Rest decoder.decoded set (indexes.filter (· ≠ index)) := by
    refine ⟨fun other inside => rest.within other (List.mem_of_mem_filter inside), ?_⟩
    intro other inside out
    by_cases same : other = index
    · exact same ▸ step.present
    · refine rest.outside other inside fun inEntry => out ?_
      exact List.mem_filter.mpr ⟨inEntry, decide_eq_true same⟩
  have origin : ∀ others sum, ((decoder.buffer.erase indexes).insert
      (indexes.filter (· ≠ index)) (List.zipWith (· ^^^ ·) data simple)).get? others = some sum →
      (others = indexes.filter (· ≠ index) ∧ sum = List.zipWith (· ^^^ ·) data simple) ∨
        decoder.buffer.get? others = some sum := by
    intro others sum stored
    rw [SortedMap.get?_insert, SortedMap.get?_erase] at stored
    split at stored
    · rename_i same
      exact Or.inl ⟨same.symm, (Option.some.inj stored).symm⟩
    · split at stored
      · cases stored
      · exact Or.inr stored
  refine ⟨⟨step.reads.known, ?_, ?_⟩, step.present, step.valid, ?_⟩
  · intro others sum stored
    rcases origin others sum stored with ⟨rfl, rfl⟩ | old
    · exact ⟨distinct.filter _, long,
        fun other inside => small other (List.mem_of_mem_filter inside),
        sums.remove distinct listed isGood isSimple, set, member, restLess⟩
    · exact step.reads.mixed others sum old
  · intro other isReceived
    obtain ⟨others, restOther, empty | stored⟩ := step.reads.kept other isReceived
    · exact ⟨others, restOther, Or.inl empty⟩
    · by_cases same : others = indexes
      · subst same
        refine ⟨others.filter (· ≠ index), ⟨fun inner inside =>
          restOther.within inner (List.mem_of_mem_filter inside), ?_⟩, Or.inr ?_⟩
        · intro inner inside out
          by_cases isIndex : inner = index
          · exact isIndex ▸ step.present
          · refine restOther.outside inner inside fun inEntry => out ?_
            exact List.mem_filter.mpr ⟨inEntry, decide_eq_true isIndex⟩
        · exact (SortedMap.contains_iff _ _).mpr ⟨_, SortedMap.get?_insert_self _ _ _⟩
      · refine ⟨others, restOther, Or.inr ?_⟩
        refine (SortedMap.contains_insert _ _ _ _).mpr (Or.inr ?_)
        unfold SortedMap.contains at stored ⊢
        rw [SortedMap.get?_erase_of_ne _ (Ne.symm same)]
        exact stored
  · intro other contained
    rcases step.pending other contained with waits | same | free
    · exact Or.inl waits
    · exact Or.inr (Or.inl same)
    · refine Or.inr (Or.inr ?_)
      intro others sum stored
      rcases origin others sum stored with ⟨rfl, _⟩ | old
      · exact fun inside => free indexes data found (List.mem_of_mem_filter inside)
      · exact free others sum old

/-- The decoder after an entry is taken out that leaves one segment. -/
theorem Step.learn {index : Nat} {queue : List (Nat × Segment)}
    (step : Step count good received index decoder queue) {length : Nat} (sums : Sums length good)
    {indexes : List Nat} {data simple : Segment} (isSimple : good [index] simple)
    (found : decoder.buffer.get? indexes = some data) (listed : index ∈ indexes) {last : Nat}
    (single : indexes.filter (· ≠ index) = [last]) :
    Step count good received index
      { decoder with
        decoded := decoder.decoded.insert last (List.zipWith (· ^^^ ·) data simple)
        buffer := decoder.buffer.erase indexes }
      ((last, List.zipWith (· ^^^ ·) data simple) :: queue) := by
  obtain ⟨distinct, _, small, isGood, set, member, rest⟩ := step.reads.mixed indexes data found
  have isSum := sums.remove distinct listed isGood isSimple
  rw [single] at isSum
  have inEntry : last ∈ indexes := by
    have member : last ∈ indexes.filter (· ≠ index) := by
      rw [single]
      exact List.mem_cons_self
    exact List.mem_of_mem_filter member
  have peeled : Peeled received last := by
    refine Rest.peeled ⟨?_, ?_⟩ member fun other => step.reads.peeled
    · intro other inside
      rw [List.mem_singleton.mp inside]
      exact rest.within last inEntry
    · intro other inside out
      by_cases same : other = index
      · exact same ▸ step.present
      · refine rest.outside other inside fun present => out ?_
        rw [← single]
        exact List.mem_filter.mpr ⟨present, decide_eq_true same⟩
  have grows : ∀ other, decoder.decoded.contains other = true →
      (decoder.decoded.insert last (List.zipWith (· ^^^ ·) data simple)).contains other = true :=
    fun other contained => (SortedMap.contains_insert _ _ _ _).mpr (Or.inr contained)
  have origin : ∀ others sum, (decoder.buffer.erase indexes).get? others = some sum →
      others ≠ indexes ∧ decoder.buffer.get? others = some sum := by
    intro others sum stored
    rw [SortedMap.get?_erase] at stored
    split at stored
    · cases stored
    · rename_i different
      exact ⟨Ne.symm different, stored⟩
  refine ⟨⟨?_, ?_, ?_⟩, grows index step.present, ?_, ?_⟩
  · intro other sum stored
    rw [SortedMap.get?_insert] at stored
    split at stored
    · rename_i same
      cases stored
      exact same ▸ ⟨small last inEntry, isSum, peeled⟩
    · exact step.reads.known other sum stored
  · intro others sum stored
    obtain ⟨distinctOther, two, smallOther, goodOther, setOther, memberOther, restOther⟩ :=
      step.reads.mixed others sum (origin others sum stored).2
    exact ⟨distinctOther, two, smallOther, goodOther, setOther, memberOther,
      restOther.mono grows⟩
  · intro other isReceived
    obtain ⟨others, restOther, empty | stored⟩ := step.reads.kept other isReceived
    · exact ⟨others, restOther.mono grows, Or.inl empty⟩
    · by_cases same : others = indexes
      · subst same
        -- the entry is gone, and with it everything the set was missing
        refine ⟨[], ⟨fun _ => by simp, ?_⟩, Or.inl rfl⟩
        intro inner inside _
        by_cases isIndex : inner = index
        · exact isIndex ▸ grows index step.present
        · by_cases isLast : inner = last
          · exact isLast ▸ (SortedMap.contains_insert _ _ _ _).mpr (Or.inl rfl)
          · refine grows inner (restOther.outside inner inside fun present => isLast ?_)
            have left : inner ∈ others.filter (· ≠ index) :=
              List.mem_filter.mpr ⟨present, decide_eq_true isIndex⟩
            rw [single] at left
            exact List.mem_singleton.mp left
      · refine ⟨others, restOther.mono grows, Or.inr ?_⟩
        unfold SortedMap.contains at stored ⊢
        rw [SortedMap.get?_erase_of_ne _ (Ne.symm same)]
        exact stored
  · intro entry member
    rcases List.mem_cons.mp member with rfl | old
    · exact ⟨(SortedMap.contains_insert _ _ _ _).mpr (Or.inl rfl), isSum⟩
    · exact ⟨grows entry.1 (step.valid entry old).1, (step.valid entry old).2⟩
  · intro other contained
    rcases (SortedMap.contains_insert _ _ _ _).mp contained with rfl | old
    · exact Or.inl List.mem_cons_self
    · rcases step.pending other old with waits | same | free
      · exact Or.inl (List.mem_cons_of_mem _ waits)
      · exact Or.inr (Or.inl same)
      · exact Or.inr (Or.inr fun others sum stored => free others sum (origin others sum stored).2)

theorem filter_ne_length {indexes : List Nat} (distinct : indexes.Nodup) {index : Nat}
    (listed : index ∈ indexes) :
    (indexes.filter (· ≠ index)).length + 1 = indexes.length := by
  have erased : indexes.filter (· ≠ index) = indexes.erase index := by
    rw [distinct.erase_eq_filter]
    refine List.filter_congr fun other _ => ?_
    rw [Bool.eq_iff_iff, decide_eq_true_iff, bne_iff_ne]
  rw [erased, List.length_erase_of_mem listed]
  have positive := List.length_pos_of_mem listed
  omega

theorem reduce_spec {length : Nat} (sums : Sums length good) {index : Nat} {simple : Segment}
    (isSimple : good [index] simple) (entries : List (List Nat × Segment)) {decoder : Decoder}
    {queue : List (Nat × Segment)} (step : Step count good received index decoder queue)
    (stored : ∀ entry ∈ entries, decoder.buffer.get? entry.1 = some entry.2 ∧ index ∈ entry.1)
    (distinct : (entries.map Prod.fst).Nodup)
    (all : ∀ indexes data, decoder.buffer.get? indexes = some data → index ∈ indexes →
      indexes ∈ entries.map Prod.fst) :
    ∃ final later, reduce index simple entries decoder queue = some (final, later) ∧
      Step count good received index final later ∧ final.Free index ∧
      final.weight + later.length ≤ decoder.weight + queue.length ∧
      final.metadata = decoder.metadata ∧
      ∀ other, decoder.decoded.contains other = true → final.decoded.contains other = true := by
  induction entries generalizing decoder queue with
  | nil =>
      refine ⟨decoder, queue, rfl, step, ?_, le_rfl, rfl, fun _ => id⟩
      intro indexes data found listed
      cases all indexes data found listed
  | cons entry entries ih =>
      obtain ⟨indexes, data⟩ := entry
      obtain ⟨⟨found, listed⟩, rest⟩ := List.forall_mem_cons.mp stored
      obtain ⟨fresh, distinctRest⟩ := List.nodup_cons.mp distinct
      simp only at found listed fresh
      obtain ⟨nodup, two, _, isGood, _⟩ := step.reads.mixed indexes data found
      have shorter := filter_ne_length nodup listed
      have erased := decoder.buffer.total_erase_of_some (fun indexes _ => indexes.length) found
      -- a remainder does not list the index, so it is none of the entries that follow
      have fresh_remainder : indexes.filter (· ≠ index) ∉ entries.map Prod.fst := by
        intro inside
        obtain ⟨entry, member, same⟩ := List.mem_map.mp inside
        have impossible := (rest entry member).2
        rw [same] at impossible
        exact of_decide_eq_true (List.mem_filter.mp impossible).2 rfl
      unfold reduce
      simp only [found, sums.xor_eq isGood isSimple]
      split
      · rename_i last single
        have next := step.learn sums isSimple found listed single
        obtain ⟨final, later, reduced, step', free, lighter, same, grows⟩ := ih next
          (by
            intro other member
            obtain ⟨otherFound, otherListed⟩ := rest other member
            refine ⟨?_, otherListed⟩
            rw [SortedMap.get?_erase_of_ne, otherFound]
            rintro rfl
            exact fresh (List.mem_map_of_mem member))
          distinctRest
          (by
            intro others sum otherFound otherListed
            rw [SortedMap.get?_erase] at otherFound
            split at otherFound
            · cases otherFound
            · rename_i different
              have old := all others sum otherFound otherListed
              rcases List.mem_cons.mp old with isFirst | later
              · exact absurd isFirst.symm different
              · exact later)
        refine ⟨final, later, reduced, step', free, ?_, same, fun other contained =>
          grows other ((SortedMap.contains_insert _ _ _ _).mpr (Or.inr contained))⟩
        unfold weight at lighter ⊢
        simp only [List.length_cons] at lighter
        omega
      · rename_i many
        have long : 2 ≤ (indexes.filter (· ≠ index)).length := by
          have notOne : (indexes.filter (· ≠ index)).length ≠ 1 := by
            intro one
            obtain ⟨last, single⟩ := List.length_eq_one_iff.mp one
            exact many last single
          omega
        have next := step.putBack sums isSimple found listed long
        have origin : ∀ others, others ≠ indexes → others ≠ indexes.filter (· ≠ index) →
            ((decoder.buffer.erase indexes).insert (indexes.filter (· ≠ index))
              (List.zipWith (· ^^^ ·) data simple)).get? others = decoder.buffer.get? others := by
          intro others notEntry notRemainder
          rw [SortedMap.get?_insert_of_ne _ _ (Ne.symm notRemainder),
            SortedMap.get?_erase_of_ne _ (Ne.symm notEntry)]
        obtain ⟨final, later, reduced, step', free, lighter, same, grows⟩ := ih next
          (by
            intro other member
            obtain ⟨otherFound, otherListed⟩ := rest other member
            refine ⟨?_, otherListed⟩
            rw [origin, otherFound]
            · rintro rfl
              exact fresh (List.mem_map_of_mem member)
            · intro isRemainder
              exact fresh_remainder (isRemainder ▸ List.mem_map_of_mem member))
          distinctRest
          (by
            intro others sum otherFound otherListed
            have notRemainder : others ≠ indexes.filter (· ≠ index) := by
              rintro rfl
              exact of_decide_eq_true (List.mem_filter.mp otherListed).2 rfl
            by_cases isEntry : others = indexes
            · subst isEntry
              rw [SortedMap.get?_insert_of_ne _ _ (Ne.symm notRemainder),
                SortedMap.get?_erase_self] at otherFound
              cases otherFound
            · rw [origin others isEntry notRemainder] at otherFound
              exact (List.mem_cons.mp (all others sum otherFound otherListed)).resolve_left isEntry)
        refine ⟨final, later, reduced, step', free, ?_, same, grows⟩
        have put := total_insert_le (decoder.buffer.erase indexes) (indexes.filter (· ≠ index))
          (List.zipWith (· ^^^ ·) data simple)
        unfold weight at lighter ⊢
        simp only at lighter
        omega

/-- The loop ends, with nothing known left in the buffer. -/
theorem drain_spec {length : Nat} (sums : Sums length good) (steps : Nat) {decoder : Decoder}
    {queue : List (Nat × Segment)} (reads : Reads count good received decoder)
    (valid : ∀ entry ∈ queue, decoder.decoded.contains entry.1 = true ∧ good [entry.1] entry.2)
    (pending : ∀ other, decoder.decoded.contains other = true →
      other ∈ queue.map Prod.fst ∨ decoder.Free other)
    (enough : decoder.weight + queue.length < steps) :
    ∃ final, drain steps decoder queue = some final ∧ Reads count good received final ∧
      final.Settled ∧ final.metadata = decoder.metadata := by
  induction steps generalizing decoder queue with
  | zero => omega
  | succ steps ih =>
      cases queue with
      | nil =>
          refine ⟨decoder, rfl, reads, fun other contained => ?_, rfl⟩
          exact (pending other contained).resolve_left List.not_mem_nil
      | cons entry queue =>
          obtain ⟨index, simple⟩ := entry
          obtain ⟨⟨present, isSimple⟩, restValid⟩ := List.forall_mem_cons.mp valid
          have step : Step count good received index decoder queue := by
            refine ⟨reads, present, restValid, fun other contained => ?_⟩
            rcases pending other contained with waits | free
            · rcases List.mem_cons.mp waits with same | later
              · exact Or.inr (Or.inl same)
              · exact Or.inl later
            · exact Or.inr (Or.inr free)
          obtain ⟨next, later, reduced, step', free, lighter, same, _⟩ := reduce_spec sums isSimple
            (decoder.buffer.rows.filter fun entry => entry.1.contains index) step
            (by
              intro entry member
              obtain ⟨inBuffer, listed⟩ := List.mem_filter.mp member
              exact ⟨(decoder.buffer.mem_rows _ _).mp inBuffer, List.contains_iff_mem.mp listed⟩)
            (decoder.buffer.keys_nodup.sublist (List.filter_sublist.map Prod.fst))
            (by
              intro indexes data found listed
              refine List.mem_map.mpr ⟨(indexes, data), List.mem_filter.mpr ⟨?_, ?_⟩, rfl⟩
              · exact (decoder.buffer.mem_rows _ _).mpr found
              · exact List.contains_iff_mem.mpr listed)
          obtain ⟨final, drained, reads', settled, unchanged⟩ := ih step'.reads step'.valid
            (by
              intro other contained
              rcases step'.pending other contained with waits | rfl | isFree
              · exact Or.inl waits
              · exact Or.inr free
              · exact Or.inr isFree)
            (by
              simp only [List.length_cons] at enough
              omega)
          refine ⟨final, ?_, reads', settled, unchanged.trans same⟩
          unfold drain
          simp only [reduced]
          exact drained

/-! ### One fragment -/

variable {history : List (Finset Nat)}

theorem contains_insert_self (map : SortedMap Nat Segment) (index : Nat) (data : Segment) :
    (map.insert index data).contains index = true :=
  (SortedMap.contains_insert _ _ _ _).mpr (Or.inl rfl)

theorem contains_insert_of (map : SortedMap Nat Segment) {index other : Nat} (data : Segment)
    (contained : map.contains other = true) : (map.insert index data).contains other = true :=
  (SortedMap.contains_insert _ _ _ _).mpr (Or.inr contained)

/-- A new set of which nothing is left, once its last segment is known. -/
theorem Reads.learn (reads : Reads count good (· ∈ history) decoder) {set : Finset Nat}
    {index : Nat} {data : Segment} (rest : Rest decoder.decoded set [index]) (small : index < count)
    (isGood : good [index] data) :
    Reads count good (· ∈ set :: history)
      { decoder with decoded := decoder.decoded.insert index data } := by
  have later : ∀ other, Peeled (· ∈ history) other → Peeled (· ∈ set :: history) other :=
    fun other peeled => peeled.mono fun _ => List.mem_cons_of_mem set
  refine ⟨?_, ?_, ?_⟩
  · intro other sum stored
    rw [SortedMap.get?_insert] at stored
    split at stored
    · rename_i same
      cases stored
      exact same ▸ ⟨small, isGood, rest.peeled List.mem_cons_self
        fun other contained => later other (reads.peeled contained)⟩
    · obtain ⟨otherSmall, isSum, peeled⟩ := reads.known other sum stored
      exact ⟨otherSmall, isSum, later other peeled⟩
  · intro indexes sum stored
    obtain ⟨distinct, two, inRange, isSum, from_set, member, left⟩ :=
      reads.mixed indexes sum stored
    exact ⟨distinct, two, inRange, isSum, from_set, List.mem_cons_of_mem set member,
      left.mono fun _ => contains_insert_of _ _⟩
  · intro other member
    rcases List.mem_cons.mp member with rfl | old
    · refine ⟨[], ⟨fun _ => by simp, fun inner inside _ => ?_⟩, Or.inl rfl⟩
      by_cases isIndex : inner = index
      · exact isIndex ▸ contains_insert_self _ _ _
      · exact contains_insert_of _ _ (rest.outside inner inside
          fun single => isIndex (List.mem_singleton.mp single))
    · obtain ⟨indexes, left, stored⟩ := reads.kept other old
      exact ⟨indexes, left.mono fun _ => contains_insert_of _ _, stored⟩

theorem processSimple_spec {length : Nat} (sums : Sums length good)
    (reads : Reads count good (· ∈ history) decoder) {index : Nat} {data : Segment}
    (small : index < count) (isGood : good [index] data) :
    ∃ final, decoder.processSimple index data = some final ∧
      Reads count good (· ∈ {index} :: history) final ∧ final.Settled ∧
      final.metadata = decoder.metadata := by
  have rest : Rest decoder.decoded {index} [index] := by
    refine ⟨fun other inside => ?_, fun other inside out => ?_⟩
    · exact Finset.mem_singleton.mpr (List.mem_singleton.mp inside)
    · exact absurd (List.mem_singleton.mpr (Finset.mem_singleton.mp inside)) out
  have learned := reads.learn rest small isGood
  refine drain_spec sums _ learned ?_ ?_ ?_
  · intro entry member
    have found := (SortedMap.mem_rows _ _ _).mp (List.mem_reverse.mp member)
    exact ⟨(SortedMap.contains_iff _ _).mpr ⟨_, found⟩, (learned.known _ _ found).2.1⟩
  · intro other contained
    obtain ⟨sum, found⟩ := (SortedMap.contains_iff _ _).mp contained
    refine Or.inl (List.mem_map.mpr ⟨(other, sum), List.mem_reverse.mpr ?_, rfl⟩)
    exact (SortedMap.mem_rows _ _ _).mpr found
  · unfold stepBound weight SortedMap.total SortedMap.keys SortedMap.size
    rw [List.length_reverse, List.map_map]
    simp only [Function.comp_def]
    omega

theorem removeKnown_spec {length : Nat} (sums : Sums length good)
    {decoded : SortedMap Nat Segment} (toRemove : List Nat) {indexes : List Nat} {data : Segment}
    (distinct : indexes.Nodup) (isGood : good indexes data) (once : toRemove.Nodup)
    (known : ∀ index ∈ toRemove, index ∈ indexes ∧
      ∃ simple, decoded.get? index = some simple ∧ good [index] simple) :
    ∃ sum, removeKnown decoded toRemove data = some sum ∧
      good (indexes.filter fun index => !toRemove.contains index) sum := by
  induction toRemove generalizing indexes data with
  | nil => exact ⟨data, rfl, by simpa using isGood⟩
  | cons index toRemove ih =>
      obtain ⟨⟨listed, simple, found, isSimple⟩, rest⟩ := List.forall_mem_cons.mp known
      obtain ⟨fresh, onceRest⟩ := List.nodup_cons.mp once
      obtain ⟨sum, removed, isSum⟩ := ih (distinct.filter _)
        (sums.remove distinct listed isGood isSimple) onceRest (by
          intro other member
          obtain ⟨otherListed, stored⟩ := rest other member
          refine ⟨List.mem_filter.mpr ⟨otherListed, decide_eq_true ?_⟩, stored⟩
          rintro rfl
          exact fresh member)
      refine ⟨sum, ?_, ?_⟩
      · unfold removeKnown
        simp only [found, sums.xor_eq isGood isSimple]
        exact removed
      · rw [List.filter_filter] at isSum
        convert isSum using 2
        funext other
        simp [Bool.and_comm]

/-- A mixed fragment gives away its last unknown segment, and is kept if it
has more of them. -/
theorem processComplex_spec {length : Nat} (sums : Sums length good)
    (reads : Reads count good (· ∈ history) decoder) {indexes : List Nat} {data : Segment}
    (distinct : indexes.Nodup) (small : ∀ index ∈ indexes, index < count)
    (isGood : good indexes data) :
    ∃ final, decoder.processComplex indexes data = some final ∧
      Reads count good (· ∈ indexes.toFinset :: history) final ∧
      final.metadata = decoder.metadata ∧
      ∀ index, final.decoded.contains index = true ↔
        decoder.decoded.contains index = true ∨ (index ∈ indexes ∧
          ∀ other ∈ indexes, other ≠ index → decoder.decoded.contains other = true) := by
  have later : ∀ other, Peeled (· ∈ history) other →
      Peeled (· ∈ indexes.toFinset :: history) other :=
    fun other peeled => peeled.mono fun _ => List.mem_cons_of_mem _
  obtain ⟨toRemove, isRemoved⟩ : ∃ toRemove,
    indexes.filter decoder.decoded.contains = toRemove := ⟨_, rfl⟩
  obtain ⟨remaining, isRemaining⟩ : ∃ remaining,
    indexes.filter (fun index => !toRemove.contains index) = remaining := ⟨_, rfl⟩
  have removed : ∀ index, index ∈ toRemove ↔
      index ∈ indexes ∧ decoder.decoded.contains index = true := by
    intro index
    rw [← isRemoved, List.mem_filter]
  have left : ∀ index, index ∈ remaining ↔
      index ∈ indexes ∧ ¬ decoder.decoded.contains index = true := by
    intro index
    rw [← isRemaining, List.mem_filter, Bool.not_eq_true', Bool.eq_false_iff, Ne,
      List.contains_iff_mem, removed]
    tauto
  have rest : Rest decoder.decoded indexes.toFinset remaining := by
    refine ⟨fun index inside => List.mem_toFinset.mpr ((left index).mp inside).1, ?_⟩
    intro index inside out
    by_contra unknown
    exact out ((left index).mpr ⟨List.mem_toFinset.mp inside, unknown⟩)
  have lengths : indexes.length = toRemove.length + remaining.length := by
    have split := List.length_eq_length_filter_add (l := indexes) decoder.decoded.contains
    have same : indexes.filter (fun index => !decoder.decoded.contains index) = remaining := by
      rw [← isRemaining, ← isRemoved]
      refine List.filter_congr fun index inside => ?_
      rw [Bool.eq_iff_iff, Bool.not_eq_true', Bool.not_eq_true', Bool.eq_false_iff,
        Bool.eq_false_iff, Ne, Ne, List.contains_iff_mem, List.mem_filter]
      tauto
    rw [isRemoved, same] at split
    exact split
  have distinctLeft : remaining.Nodup := isRemaining ▸ distinct.filter _
  unfold processComplex
  simp only [isRemoved]
  by_cases whole : indexes.length = toRemove.length
  · -- nothing is left, so the fragment is redundant
    have nothing : remaining = [] := List.eq_nil_of_length_eq_zero (by omega)
    rw [if_pos whole]
    refine ⟨decoder, rfl, ⟨?_, ?_, ?_⟩, rfl, fun index => ⟨Or.inl, ?_⟩⟩
    · intro index sum stored
      obtain ⟨inRange, isSum, peeled⟩ := reads.known index sum stored
      exact ⟨inRange, isSum, later index peeled⟩
    · intro others sum stored
      obtain ⟨nodup, two, inRange, isSum, set, member, restOld⟩ := reads.mixed others sum stored
      exact ⟨nodup, two, inRange, isSum, set, List.mem_cons_of_mem _ member, restOld⟩
    · intro set member
      rcases List.mem_cons.mp member with rfl | old
      · exact ⟨[], nothing ▸ rest, Or.inl rfl⟩
      · exact reads.kept set old
    · rintro (contained | ⟨inside, _⟩)
      · exact contained
      · exact rest.outside index (List.mem_toFinset.mpr inside)
          (by rw [nothing]; exact List.not_mem_nil)
  · rw [if_neg whole]
    obtain ⟨sum, sumEq, isSum⟩ := removeKnown_spec sums toRemove distinct isGood
      (isRemoved ▸ distinct.filter _) (fun index member => by
        obtain ⟨listed, contained⟩ := (removed index).mp member
        obtain ⟨simple, found⟩ := (SortedMap.contains_iff _ _).mp contained
        exact ⟨listed, simple, found, (reads.known index simple found).2.1⟩)
    rw [isRemaining] at isSum
    simp only [sumEq, isRemaining]
    split
    · rename_i last
      have lastLeft := (left last).mp List.mem_cons_self
      refine ⟨_, rfl, reads.learn rest (small last lastLeft.1) isSum, rfl, fun index => ?_⟩
      rw [SortedMap.contains_insert]
      constructor
      · rintro (rfl | contained)
        · refine Or.inr ⟨lastLeft.1, fun other inside different => ?_⟩
          exact rest.outside other (List.mem_toFinset.mpr inside)
            fun single => different (List.mem_singleton.mp single)
        · exact Or.inl contained
      · rintro (contained | ⟨inside, others⟩)
        · exact Or.inr contained
        · by_cases isLast : last = index
          · exact Or.inl isLast
          · exact absurd (others last lastLeft.1 isLast) lastLeft.2
    · rename_i many
      have two : 2 ≤ remaining.length := by
        have notOne : remaining.length ≠ 1 := by
          intro one
          obtain ⟨last, single⟩ := List.length_eq_one_iff.mp one
          exact many last single
        omega
      refine ⟨_, rfl, ⟨?_, ?_, ?_⟩, rfl, fun index => ⟨Or.inl, ?_⟩⟩
      · intro index simple stored
        obtain ⟨inRange, isSimple, peeled⟩ := reads.known index simple stored
        exact ⟨inRange, isSimple, later index peeled⟩
      · intro others other stored
        rw [SortedMap.get?_insert] at stored
        split at stored
        · rename_i same
          cases stored
          subst same
          exact ⟨distinctLeft, two, fun index inside => small index ((left index).mp inside).1,
            isSum, indexes.toFinset, List.mem_cons_self, rest⟩
        · obtain ⟨nodup, twoOther, inRange, isOther, set, member, restOld⟩ :=
            reads.mixed others other stored
          exact ⟨nodup, twoOther, inRange, isOther, set, List.mem_cons_of_mem _ member, restOld⟩
      · intro set member
        rcases List.mem_cons.mp member with rfl | old
        · exact ⟨remaining, rest, Or.inr ((SortedMap.contains_insert _ _ _ _).mpr (Or.inl rfl))⟩
        · obtain ⟨others, restOld, empty | stored⟩ := reads.kept set old
          · exact ⟨others, restOld, Or.inl empty⟩
          · exact ⟨others, restOld,
              Or.inr ((SortedMap.contains_insert _ _ _ _).mpr (Or.inr stored))⟩
      · rintro (contained | ⟨inside, others⟩)
        · exact contained
        · obtain ⟨other, otherLeft, different⟩ := exists_other distinctLeft two index
          have unknown := (left other).mp otherLeft
          exact absurd (others other unknown.1 different) unknown.2

end Decoder

/-- The choice is of distinct segments that exist. -/
structure Chooses (choose : ChooseFragments) : Prop where
  distinct : ∀ count checksum index, (choose count checksum index).Nodup
  below : ∀ count checksum index, ∀ item ∈ choose count checksum index, item < count

namespace Decoder

variable {choose : ChooseFragments}

theorem process_spec (chooses : Chooses choose) {length : Nat} (sums : Sums length good)
    {fragment : Fragment} (same : fragment.metadata.simpleFragments.toNat = count)
    (reads : Reads count good (· ∈ history) decoder)
    (isGood : good (fragment.indexes choose) fragment.data) :
    ∃ final, decoder.process choose fragment = some final ∧
      Reads count good (· ∈ (fragment.indexes choose).toFinset :: history) final ∧
      final.metadata = decoder.metadata ∧
      ((∀ index, decoder.decoded.contains index = true ↔ readOff history index) →
        ∀ index, final.decoded.contains index = true ↔
          readOff ((fragment.indexes choose).toFinset :: history) index) := by
  have distinct : (fragment.indexes choose).Nodup := chooses.distinct _ _ _
  have small : ∀ index ∈ fragment.indexes choose, index < count := same ▸ chooses.below _ _ _
  have card := List.toFinset_card_of_nodup distinct
  unfold process
  generalize fragment.indexes choose = indexes at distinct small card isGood ⊢
  split
  · rename_i index
    obtain ⟨final, processed, reads', settled, unchanged⟩ :=
      processSimple_spec sums reads (small index List.mem_cons_self) isGood
    have single : ([index].toFinset : Finset Nat) = {index} := rfl
    rw [single]
    refine ⟨final, processed, reads', unchanged, fun _ other => ?_⟩
    rw [reads'.knows_iff settled]
    exact ⟨fun peeled => Or.inl ⟨Finset.card_singleton index, peeled⟩,
      fun known => known.elim And.right fun many => absurd (Finset.card_singleton index) many.1⟩
  · rename_i many
    obtain ⟨final, processed, reads', unchanged, learns⟩ :=
      processComplex_spec sums reads distinct small isGood
    have notOne : indexes.toFinset.card ≠ 1 := by
      rw [card]
      intro one
      obtain ⟨index, single⟩ := List.length_eq_one_iff.mp one
      exact many index single
    refine ⟨final, processed, reads', unchanged, fun knows index => ?_⟩
    rw [learns]
    constructor
    · rintro (contained | ⟨inside, others⟩)
      · exact Or.inr ⟨notOne, Or.inl ((knows index).mp contained)⟩
      · exact Or.inr ⟨notOne, Or.inr ⟨List.mem_toFinset.mpr inside, fun other member different =>
          (knows other).mp (others other (List.mem_toFinset.mp member) different)⟩⟩
    · rintro (⟨one, _⟩ | ⟨_, old | ⟨inside, others⟩⟩)
      · exact absurd one notOne
      · exact Or.inl ((knows index).mpr old)
      · exact Or.inr ⟨List.mem_toFinset.mp inside, fun other member different =>
          (knows other).mpr (others other (List.mem_toFinset.mpr member) different)⟩

/-! ### The message -/

theorem Reads.complete_iff (reads : Reads count good received decoder) :
    count ≤ decoder.decoded.size ↔
      ∀ index < count, decoder.decoded.contains index = true := by
  have inRange : ∀ index ∈ decoder.decoded.keys, index < count := by
    intro index member
    obtain ⟨data, found⟩ := (decoder.decoded.mem_keys index).mp member
    exact (reads.known index data found).1
  have within : decoder.decoded.keys.toFinset ⊆ Finset.range count := by
    intro index member
    exact Finset.mem_range.mpr (inRange index (List.mem_toFinset.mp member))
  have card : decoder.decoded.keys.toFinset.card = decoder.decoded.size := by
    rw [List.toFinset_card_of_nodup decoder.decoded.keys_nodup, decoder.decoded.keys_length]
  constructor
  · intro large index small
    have whole := Finset.eq_of_subset_of_card_le within (by rw [Finset.card_range, card]; exact large)
    have member : index ∈ decoder.decoded.keys.toFinset := by
      rw [whole]
      exact Finset.mem_range.mpr small
    exact (SortedMap.contains_iff _ _).mpr
      ((decoder.decoded.mem_keys index).mp (List.mem_toFinset.mp member))
  · intro all
    have covers : Finset.range count ⊆ decoder.decoded.keys.toFinset := by
      intro index member
      exact List.mem_toFinset.mpr ((decoder.decoded.mem_keys index).mpr
        ((SortedMap.contains_iff _ _).mp (all index (Finset.mem_range.mp member))))
    have atMost := Finset.card_le_card covers
    rwa [Finset.card_range, card] at atMost

/-- The message is there once every segment is known. -/
theorem Reads.message_eq (reads : Reads count good received decoder)
    {metadata : EncodingMetadata} (isMetadata : decoder.metadata = some metadata)
    (same : metadata.simpleFragments.toNat = count) :
    ((∀ index < count, decoder.decoded.contains index = true) →
      decoder.message = some (decoder.decoded.values.flatten.take metadata.messageLength.toNat)) ∧
    ((∃ index < count, ¬ decoder.decoded.contains index = true) → decoder.message = none) := by
  have complete := reads.complete_iff
  unfold message
  simp only [isMetadata, same]
  constructor
  · intro all
    rw [if_neg (not_lt.mpr (complete.mpr all))]
  · rintro ⟨index, small, unknown⟩
    rw [if_pos]
    by_contra large
    exact unknown (complete.mp (not_lt.mp large) index small)

end Decoder

end Picomint.Fountain
