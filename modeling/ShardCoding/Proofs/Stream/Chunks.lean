import ShardCoding.Proofs.Code.Codeword
import ShardCoding.Stream.Options

/-!
# The chunks of a stream

The encoder cuts its chunks from what its reads bring and the decoder from the number of bytes still to come; both are
compared with one description.

* `StreamOptions.chunks` : the chunks of what is left of a stream; `Valid.length_le_sum_chunks` : they hold all of it;
* `Code.segment` : a shard of one chunk; `Code.streamShard`, `Code.streamSize` : the same shard of all chunks, and its
  length.
-/

namespace ShardCoding

namespace StreamOptions

theorem check_eq_ok {o : StreamOptions} (ho : o.Valid) : o.check = .ok () := by
  unfold check
  rw [fault?_eq_none_iff.2 ho]

/-- The chunks of `rest`, the first of them after the bytes `carry` of the chunk before. -/
def chunks (o : StreamOptions) (carry rest : Bytes) : List Bytes :=
  if _ : rest = [] ∨ o.chunk ≤ carry.length then []
  else
    let chunk := carry ++ rest.take (o.chunk - carry.length)
    chunk :: chunks o (chunk.drop (chunk.length - o.overlap)) (rest.drop (o.chunk - carry.length))
termination_by rest.length
decreasing_by
  have hrest : rest ≠ [] := by tauto
  have := List.length_pos_iff.2 hrest
  rw [List.length_drop]
  omega

@[simp] theorem chunks_nil (o : StreamOptions) (carry : Bytes) : o.chunks carry [] = [] := by
  rw [chunks, dif_pos (Or.inl rfl)]

theorem chunks_of_ne_nil {o : StreamOptions} {carry rest : Bytes} (hrest : rest ≠ [])
    (hcarry : carry.length < o.chunk) : o.chunks carry rest = (carry ++ rest.take (o.chunk - carry.length)) ::
      o.chunks ((carry ++ rest.take (o.chunk - carry.length)).drop
        ((carry ++ rest.take (o.chunk - carry.length)).length - o.overlap)) (rest.drop (o.chunk - carry.length)) := by
  rw [chunks, dif_neg (by rw [not_or]; exact ⟨hrest, Nat.not_le.2 hcarry⟩)]

/-- The first chunk takes from a stream what a read of the front of it brings, which is all of it if it comes short. -/
theorem chunks_eq_cons {o : StreamOptions} {carry fresh input : Bytes} (hcarry : carry.length < o.chunk)
    (hne : fresh ≠ []) (hle : fresh.length ≤ o.chunk - carry.length) (hfront : fresh <+: input)
    (hshort : fresh.length < o.chunk - carry.length → input = fresh) :
    o.chunks carry input = (carry ++ fresh) ::
      o.chunks ((carry ++ fresh).drop ((carry ++ fresh).length - o.overlap)) (input.drop fresh.length) := by
  obtain ⟨later, rfl⟩ := hfront
  have hnil : fresh ++ later ≠ [] := by simp [hne]
  rw [chunks_of_ne_nil hnil hcarry]
  rcases Nat.lt_or_eq_of_le hle with hlt | heq
  · have hlater : later = [] := by simpa using hshort hlt
    rw [hlater, List.append_nil, List.take_of_length_le hle, List.drop_of_length_le hle, List.drop_length]
  · rw [← heq, List.take_left, List.drop_left]

/-- With valid options the bytes that a chunk repeats never fill the next. -/
theorem Valid.length_carry_lt {o : StreamOptions} (ho : o.Valid) (chunk : Bytes) :
    (chunk.drop (chunk.length - o.overlap)).length < o.chunk := by
  unfold Valid at ho
  rw [List.length_drop]
  omega

/-- A buffer that fits in one chunk is that chunk. -/
theorem chunks_of_length_le {o : StreamOptions} {data : Bytes} (hdata : data ≠ []) (hle : data.length ≤ o.chunk) :
    o.chunks [] data = [data] := by
  have hpos := List.length_pos_iff.2 hdata
  rw [chunks_of_ne_nil hdata (by rw [List.length_nil]; omega), List.length_nil, Nat.sub_zero, List.nil_append,
    List.take_of_length_le hle, List.drop_of_length_le hle, chunks_nil]

/-- Every byte is in a chunk; with an overlap some are in two. -/
theorem Valid.length_le_sum_chunks {o : StreamOptions} (ho : o.Valid) {carry : Bytes} (hcarry : carry.length < o.chunk)
    (rest : Bytes) : rest.length ≤ ((o.chunks carry rest).map List.length).sum := by
  induction hn : rest.length using Nat.strong_induction_on generalizing carry rest with
  | _ n ih =>
    by_cases hnil : rest = []
    · rw [← hn, hnil]
      exact Nat.zero_le _
    have hpos := List.length_pos_iff.2 hnil
    have htake := List.length_take (i := o.chunk - carry.length) (l := rest)
    have hdrop := List.length_drop (i := o.chunk - carry.length) (l := rest)
    have hlater := ih (rest.drop (o.chunk - carry.length)).length (by omega)
      (ho.length_carry_lt (carry ++ rest.take (o.chunk - carry.length))) _ rfl
    rw [chunks_of_ne_nil hnil hcarry, List.map_cons, List.sum_cons]
    have hchunk : (carry ++ rest.take (o.chunk - carry.length)).length = _ := List.length_append
    omega

end StreamOptions

namespace Code

variable (code : Code)

/-- Shard `i` of one chunk, at the least shard length. -/
def segment (i : Nat) (chunk : Bytes) : Bytes :=
  (code.shardsOf (code.scheme.shardSizeFor chunk.length) chunk).getD i []

/-- The segments of shard `i`, one after another. -/
def streamShard (chunks : List Bytes) (i : Nat) : Bytes := chunks.flatMap (code.segment i)

def streamSize (chunks : List Bytes) : Nat := (chunks.map fun chunk => code.scheme.shardSizeFor chunk.length).sum

theorem length_segment {i : Nat} (hi : i < code.scheme.total) (chunk : Bytes) :
    (code.segment i chunk).length = code.scheme.shardSizeFor chunk.length :=
  length_getD_shardsOf code hi

theorem length_streamShard {i : Nat} (hi : i < code.scheme.total) (chunks : List Bytes) :
    (code.streamShard chunks i).length = code.streamSize chunks := by
  simp only [streamShard, streamSize, List.length_flatMap, length_segment code hi]

theorem streamShard_append (front back : List Bytes) :
    code.streamShard (front ++ back) = fun i => code.streamShard front i ++ code.streamShard back i := by
  funext i
  exact List.flatMap_append

theorem streamSize_append (front back : List Bytes) :
    code.streamSize (front ++ back) = code.streamSize front + code.streamSize back := by
  rw [streamSize, List.map_append, List.sum_append]
  rfl

end Code

end ShardCoding
