import ShardCoding.Proofs.Code.Recoverability

/-!
# Decoding what was encoded

* `decode_encode` : what decoding any `k` shards of some data yields, byte for byte;
* `decode_lossless_iff` : when it is the data itself, for one selection and for all of them;
  `decode_singular_four_three` : a selection of which it is not;
* `decode_of_parity_le_two` : with one or two parity shards it always is;
* `decode_of_recoverable` : from exactly `k` recoverable shards it is, in any order; `decode_of_burst` : with a block of
  data shards missing and any parity shards in their place it always is.
-/

namespace ShardCoding.Code

/-- **Decoding is never silently wrong**: from any `k` different shards of some data it yields the data filled up with
zeros to the full capacity, cut to the requested size, when the named rows of the generator have an inverse, and
refuses the selection as singular when they have none. -/
theorem decode_encode (code : Code) (data : Bytes) (hdata : data.length < bufferLimit) :
    ∃ e, (code.encode data).result = .ok e ∧
      ∀ (slots : Slots) (present : List Nat) (dataSize : Nat),
        code.Selects present → code.Holds e slots (present.take code.scheme.data) →
        dataSize ≤ code.scheme.data * e.shardSize →
        (code.Recoverable (present.take code.scheme.data) ∧
          (code.decode slots present dataSize e.shardSize).result =
            .ok ((data ++ List.replicate (code.scheme.data * e.shardSize - data.length) 0).take dataSize)) ∨
        (¬ code.Recoverable (present.take code.scheme.data) ∧
          (code.decode slots present dataSize e.shardSize).result = .error .singularMatrix) := by
  refine ⟨_, result_encode code data, fun slots present dataSize hsel hhold hsize => ?_⟩
  exact decode_cases hdata (result_encode code data) hsel hhold hsize

/-- A parity shard in the place of a data shard, with the data and one byte of the filling asked for. -/
theorem decode_encode_two_one : ∃ e, ((ofValid ⟨2, 1⟩ (by decide)).encode [1, 2, 3]).result = .ok e ∧
    ((ofValid ⟨2, 1⟩ (by decide)).decode (slotsOf e [2, 0]) [2, 0] 4 e.shardSize).result = .ok [1, 2, 3, 0] := by
  obtain ⟨e, he, h⟩ := decode_encode (ofValid ⟨2, 1⟩ (by decide)) [1, 2, 3] (by decide)
  have hsize : e.shardSize = 2 := (congrArg Encoded.shardSize (Except.ok.inj he)).symm
  refine ⟨e, he, ?_⟩
  rcases h (slotsOf e [2, 0]) [2, 0] 4 ⟨by decide, by decide, by decide⟩ (holds_slotsOf he [2, 0])
    (by rw [hsize]; decide) with ⟨-, hok⟩ | ⟨hsingular, -⟩
  · rw [hok, hsize]
    rfl
  · exact absurd (recoverable_of_few (Or.inr (by decide)) (by decide) (by decide) (by decide)) hsingular

/-- The data itself, exactly when the rows are recoverable. -/
theorem decode_dataSize_cases {code : Code} {data : Bytes} (hdata : data.length < bufferLimit) {e : Encoded}
    (he : (code.encode data).result = .ok e) {slots : Slots} {present : List Nat} (hsel : code.Selects present)
    (hhold : code.Holds e slots (present.take code.scheme.data)) :
    (code.Recoverable (present.take code.scheme.data) ∧
      (code.decode slots present data.length e.shardSize).result = .ok data) ∨
    (¬ code.Recoverable (present.take code.scheme.data) ∧
      (code.decode slots present data.length e.shardSize).result = .error .singularMatrix) := by
  have hsize : data.length ≤ code.scheme.data * e.shardSize := by
    rw [shardSize_encode he]
    exact Scheme.le_mul_shardSizeFor code.valid _
  rcases decode_cases hdata he hsel hhold hsize with ⟨hrec, hok⟩ | herr
  · rw [List.take_left] at hok
    exact Or.inl ⟨hrec, hok⟩
  · exact Or.inr herr

/-- **Loss tolerance**: any `k` different shards give the data back exactly when no polynomial obstructs the selection,
and are refused as singular otherwise; no selection at all is obstructed exactly when there are at most three data
shards or at most two parity shards. -/
theorem decode_lossless_iff (code : Code) :
    (∀ data : Bytes, data.length < bufferLimit →
      ∃ e, (code.encode data).result = .ok e ∧
        ∀ (slots : Slots) (present : List Nat),
          code.Selects present → code.Holds e slots (present.take code.scheme.data) →
          ((¬ ∃ f, code.Obstruction (present.take code.scheme.data) f) →
            (code.decode slots present data.length e.shardSize).result = .ok data) ∧
          ((∃ f, code.Obstruction (present.take code.scheme.data) f) →
            (code.decode slots present data.length e.shardSize).result = .error .singularMatrix)) ∧
    ((∀ present, code.Selects present → ¬ ∃ f, code.Obstruction (present.take code.scheme.data) f) ↔
      code.scheme.data ≤ 3 ∨ code.scheme.parity ≤ 2) := by
  refine ⟨fun data hdata => ⟨_, result_encode code data, fun slots present hsel hhold => ?_⟩, fun h => ?_, fun h => ?_⟩
  · rw [← recoverable_iff hsel.length_take hsel.lt_total, ← not_not (a := ∃ f, _),
      ← recoverable_iff hsel.length_take hsel.lt_total]
    rcases decode_dataSize_cases hdata (result_encode code data) hsel hhold with ⟨hrec, hok⟩ | ⟨hrec, herr⟩
    · exact ⟨fun _ => hok, fun h => absurd hrec h⟩
    · exact ⟨fun h => absurd h hrec, fun _ => herr⟩
  · by_contra hmany
    have hsel : code.Selects code.wideSelection := selects_wideSelection (by omega) (by omega)
    have hnone := h _ hsel
    rw [← recoverable_iff hsel.length_take hsel.lt_total, take_wideSelection (by omega)] at hnone
    exact not_recoverable_wideSelection (by omega) (by omega) hnone
  · intro present hsel
    rw [← recoverable_iff hsel.length_take hsel.lt_total]
    exact recoverable_of_few h hsel.length_take hsel.lt_total hsel.nodup

/-- The parity shards alone, in another order. -/
theorem decode_lossless_three_three : ∃ e, ((ofValid ⟨3, 3⟩ (by decide)).encode [1, 2, 3, 4]).result = .ok e ∧
    ((ofValid ⟨3, 3⟩ (by decide)).decode (slotsOf e [5, 3, 4]) [5, 3, 4] 4 e.shardSize).result = .ok [1, 2, 3, 4] := by
  obtain ⟨hdecode, hnone⟩ := decode_lossless_iff (ofValid ⟨3, 3⟩ (by decide))
  have hsel : (ofValid ⟨3, 3⟩ (by decide)).Selects [5, 3, 4] := ⟨by decide, by decide, by decide⟩
  obtain ⟨e, he, h⟩ := hdecode [1, 2, 3, 4] (by decide)
  exact ⟨e, he, (h (slotsOf e [5, 3, 4]) [5, 3, 4] hsel (holds_slotsOf he _)).1 (hnone.2 (Or.inl (by decide)) _ hsel)⟩

/-- Four of seven shards that do not give the data back. -/
theorem decode_singular_four_three : ∃ e, ((ofValid ⟨4, 3⟩ (by decide)).encode [1, 2, 3, 4]).result = .ok e ∧
    (ofValid ⟨4, 3⟩ (by decide)).Selects [2, 4, 5, 6] ∧
    (ofValid ⟨4, 3⟩ (by decide)).Holds e (slotsOf e [2, 4, 5, 6]) [2, 4, 5, 6] ∧
    ((ofValid ⟨4, 3⟩ (by decide)).decode (slotsOf e [2, 4, 5, 6]) [2, 4, 5, 6] 4 e.shardSize).result =
      .error .singularMatrix := by
  have hsel : (ofValid ⟨4, 3⟩ (by decide)).Selects [2, 4, 5, 6] := selects_wideSelection (by decide) (by decide)
  have hrec : ¬ (ofValid ⟨4, 3⟩ (by decide)).Recoverable [2, 4, 5, 6] :=
    not_recoverable_wideSelection (by decide) (by decide)
  have he := result_encode (ofValid ⟨4, 3⟩ (by decide)) [1, 2, 3, 4]
  have hhold := holds_slotsOf he [2, 4, 5, 6]
  refine ⟨_, he, hsel, hhold, ?_⟩
  rcases decode_dataSize_cases (by decide) he hsel hhold with ⟨h, -⟩ | ⟨-, herr⟩
  · exact absurd h hrec
  · exact herr

/-- **One or two parity shards**: every choice and order of `k` different shards gives the data back. -/
theorem decode_of_parity_le_two (code : Code) (hm : code.scheme.parity ≤ 2) (data : Bytes)
    (hdata : data.length < bufferLimit) :
    ∃ e, (code.encode data).result = .ok e ∧
      ∀ selected : List Nat, selected.length = code.scheme.data → selected.Nodup →
        (∀ i ∈ selected, i < code.scheme.total) →
        (code.decode (slotsOf e selected) selected e.dataSize e.shardSize).result = .ok data := by
  refine ⟨_, result_encode code data, fun selected hlen hnodup hlt => ?_⟩
  have htake : selected.take code.scheme.data = selected := List.take_of_length_le hlen.le
  have hsel : code.Selects selected := ⟨hlen.ge, by rwa [htake], by rwa [htake]⟩
  have hhold := holds_slotsOf (result_encode code data) selected
  rcases decode_dataSize_cases hdata (result_encode code data) hsel hhold with ⟨-, hok⟩ | ⟨hrec, -⟩
  · exact hok
  · rw [htake] at hrec
    exact absurd (recoverable_of_few (Or.inr hm) hlen hlt hnodup) hrec

/-- Both parity shards and one data shard. -/
theorem decode_three_two : ∃ e, ((ofValid ⟨3, 2⟩ (by decide)).encode [1, 2, 3, 4]).result = .ok e ∧
    ((ofValid ⟨3, 2⟩ (by decide)).decode (slotsOf e [4, 1, 3]) [4, 1, 3] e.dataSize e.shardSize).result =
      .ok [1, 2, 3, 4] := by
  obtain ⟨e, he, h⟩ := decode_of_parity_le_two (ofValid ⟨3, 2⟩ (by decide)) (by decide) [1, 2, 3, 4] (by decide)
  exact ⟨e, he, h [4, 1, 3] (by decide) (by decide) (by decide)⟩

/-- Exactly `k` shards whose rows are independent, in any order. -/
theorem decode_of_recoverable {code : Code} {data : Bytes} (hdata : data.length < bufferLimit) {e : Encoded}
    (he : (code.encode data).result = .ok e) {selected : List Nat} (hlen : selected.length = code.scheme.data)
    (hlt : ∀ i ∈ selected, i < code.scheme.total) (hnodup : selected.Nodup) (hrec : code.Recoverable selected)
    {slots : Slots} (hhold : code.Holds e slots selected) :
    (code.decode slots selected e.dataSize e.shardSize).result = .ok data := by
  have htake : selected.take code.scheme.data = selected := List.take_of_length_le hlen.le
  have hsel : code.Selects selected := by
    refine ⟨hlen.ge, ?_, ?_⟩
    · rw [htake]
      exact hnodup
    · rw [htake]
      exact hlt
  have hdataSize : e.dataSize = data.length := (congrArg Encoded.dataSize (Except.ok.inj he)).symm
  rw [← htake] at hhold hrec
  rw [hdataSize]
  rcases decode_dataSize_cases hdata he hsel hhold with ⟨-, hok⟩ | ⟨hsingular, -⟩
  · exact hok
  · exact absurd hrec hsingular

/-- **Bursts**: when a block of data shards is missing, the other data shards and any parity shards, one for each that is
missing, give the data back, in whatever order they are listed. -/
theorem decode_of_burst (code : Code) (data : Bytes) (hdata : data.length < bufferLimit) :
    ∃ e, (code.encode data).result = .ok e ∧
      ∀ (first t : Nat) (parity selected : List Nat), parity.length = t → code.BurstSelection first parity selected →
        ∀ slots, code.Holds e slots selected →
          (code.decode slots selected e.dataSize e.shardSize).result = .ok data := by
  refine ⟨_, result_encode code data, ?_⟩
  intro first t parity selected ht hburst slots hhold
  exact decode_of_recoverable hdata (result_encode code data) hburst.length_eq hburst.lt_total hburst.nodup_selected
    hburst.recoverable hhold

/-- Three of five data shards in a row made up for by the parity shards 5, 6 and 8. -/
theorem decode_burst_five_four : ∃ e, ((ofValid ⟨5, 4⟩ (by decide)).encode [1, 2, 3, 4, 5, 6, 7]).result = .ok e ∧
    ((ofValid ⟨5, 4⟩ (by decide)).decode (slotsOf e [8, 0, 6, 4, 5]) [8, 0, 6, 4, 5] e.dataSize e.shardSize).result =
      .ok [1, 2, 3, 4, 5, 6, 7] := by
  obtain ⟨e, he, h⟩ := decode_of_burst (ofValid ⟨5, 4⟩ (by decide)) [1, 2, 3, 4, 5, 6, 7] (by decide)
  have hburst : (ofValid ⟨5, 4⟩ (by decide)).BurstSelection 1 [8, 6, 5] [8, 0, 6, 4, 5] :=
    ⟨by decide, by decide, by decide, by decide⟩
  exact ⟨e, he, h 1 3 [8, 6, 5] [8, 0, 6, 4, 5] rfl hburst _ (holds_slotsOf he _)⟩

end ShardCoding.Code
