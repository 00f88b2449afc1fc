import ShardCoding.Proofs.Code.Strict

/-!
# The contract of decoding

Decoding refuses with the first check that fails, in one order of all its checks, and yields data of the size asked for
where none fails.

* `Check` : a condition with the refusal where it fails; `Refused checks e` : the first check that fails refuses with
  `e`; `Decides checks x` : `x` is a value where all checks hold, and else this refusal;
* `Code.decodeChecks` : the checks of a decode; `Code.decides_decodeShards` : they decide it;
* `Code.decodeShards_congr` : what the outcome depends on;
* `decode_contract` : no fault, the first refusal, the size of the data, and what the outcome depends on.
-/

namespace ShardCoding

/-! ## Checks in a row -/

/-- A condition, and the refusal where it fails. -/
structure Check where
  holds : Prop
  refusal : CodingError

/-- The first of the checks that fails refuses with the given error. -/
inductive Refused : List Check → CodingError → Prop where
  | here {c : Check} {rest : List Check} (failed : ¬ c.holds) : Refused (c :: rest) c.refusal
  | later {c : Check} {rest : List Check} {e : CodingError} (passed : c.holds) (refused : Refused rest e) :
      Refused (c :: rest) e

namespace Refused

variable {checks passed rest : List Check} {e : CodingError}

theorem append_right (h : Refused checks e) (rest : List Check) : Refused (checks ++ rest) e := by
  induction h with
  | here failed => exact .here failed
  | later passed _ ih => exact .later passed ih

theorem append_left (hpassed : ∀ c ∈ passed, c.holds) (h : Refused rest e) : Refused (passed ++ rest) e := by
  induction passed with
  | nil => exact h
  | cons c passed ih =>
    exact .later (hpassed c List.mem_cons_self) (ih fun d hd => hpassed d (List.mem_cons_of_mem _ hd))

theorem exists_failed (h : Refused checks e) : ∃ c ∈ checks, ¬ c.holds := by
  induction h with
  | here failed => exact ⟨_, List.mem_cons_self, failed⟩
  | later _ _ ih =>
    obtain ⟨c, hc, hfailed⟩ := ih
    exact ⟨c, List.mem_cons_of_mem _ hc, hfailed⟩

/-- Where checks hold up to one that fails, it is the one that refuses. -/
theorem eq_refusal {c : Check} (h : Refused (passed ++ c :: rest) e) (hpassed : ∀ p ∈ passed, p.holds)
    (hc : ¬ c.holds) : e = c.refusal := by
  induction passed with
  | nil =>
    cases h with
    | here _ => rfl
    | later hholds _ => exact absurd hholds hc
  | cons p passed ih =>
    cases h with
    | here hfailed => exact absurd (hpassed p List.mem_cons_self) hfailed
    | later _ hrest => exact ih hrest fun q hq => hpassed q (List.mem_cons_of_mem _ hq)

end Refused

variable {α β : Type}

/-- A value where all checks hold, and else the refusal of the first one that fails. -/
def Decides (checks : List Check) : Except CodingError α → Prop
  | .ok _ => ∀ c ∈ checks, c.holds
  | .error e => Refused checks e

namespace Decides

variable {checks checks' : List Check}

theorem nil (a : α) : Decides [] (.ok a : Except CodingError α) := fun _ hc => absurd hc List.not_mem_nil

theorem single {p : Prop} [Decidable p] {e : CodingError} {a : α} :
    Decides [⟨p, e⟩] (if p then .ok a else .error e) := by
  split
  · next hp => exact fun c hc => by rwa [List.mem_singleton.1 hc]
  · next hp => exact .here hp

theorem of_not_iff {p q : Prop} [Decidable q] (h : ¬ p ↔ q) {e : CodingError} {a : α} :
    Decides [⟨p, e⟩] (if q then .error e else .ok a) := by
  split
  · next hq => exact .here (h.2 hq)
  · next hq => exact fun c hc => by rw [List.mem_singleton.1 hc]; exact not_not.1 fun hp => hq (h.1 hp)

/-- The checks of what follows come after those of what it follows on. -/
theorem bind {x : Except CodingError α} {f : α → Except CodingError β} (hx : Decides checks x)
    (hf : ∀ a, x = .ok a → Decides checks' (f a)) : Decides (checks ++ checks') (x >>= f) := by
  cases x with
  | error e => exact Refused.append_right hx checks'
  | ok a =>
    have ha := hf a rfl
    show Decides _ (f a)
    cases hfa : f a with
    | ok b =>
      rw [hfa] at ha
      exact fun c hc => (List.mem_append.1 hc).elim (hx c) (ha c)
    | error e =>
      rw [hfa] at ha
      exact Refused.append_left hx ha

theorem bind_cons {c : Check} {x : Except CodingError α} {f : α → Except CodingError β} (hx : Decides [c] x)
    (hf : ∀ a, x = .ok a → Decides checks (f a)) : Decides (c :: checks) (x >>= f) :=
  hx.bind hf

theorem map {x : Except CodingError α} (hx : Decides checks x) (f : α → β) :
    Decides checks (x >>= fun a => .ok (f a)) := by
  have h := hx.bind (f := fun a => .ok (f a)) fun a _ => nil (f a)
  rwa [List.append_nil] at h

theorem mapM {l : List α} {f : α → Except CodingError β} {checksOf : α → List Check}
    (h : ∀ a ∈ l, Decides (checksOf a) (f a)) : Decides (l.flatMap checksOf) (l.mapM f) := by
  induction l with
  | nil => exact nil _
  | cons a l ih =>
    rw [List.flatMap_cons, List.mapM_cons]
    exact (h a List.mem_cons_self).bind fun b _ => (ih fun b hb => h b (List.mem_cons_of_mem _ hb)).map _

theorem eq_error {x : Except CodingError α} (hx : Decides checks x) {passed rest : List Check} {c : Check}
    (hsplit : checks = passed ++ c :: rest) (hpassed : ∀ p ∈ passed, p.holds) (hc : ¬ c.holds) :
    x = .error c.refusal := by
  subst hsplit
  cases x with
  | ok a => exact absurd (hx c (List.mem_append_right _ List.mem_cons_self)) hc
  | error e => rw [Refused.eq_refusal hx hpassed hc]

theorem exists_eq_ok {x : Except CodingError α} (hx : Decides checks x) (h : ∀ c ∈ checks, c.holds) :
    ∃ a, x = .ok a := by
  cases x with
  | ok a => exact ⟨a, rfl⟩
  | error e =>
    obtain ⟨c, hc, hfailed⟩ := Refused.exists_failed hx
    exact absurd (h c hc) hfailed

end Decides

/-! ## The checks of a decode -/

/-- Entry after entry: it is in range, and it has not been listed before. -/
def indexChecks (n : Nat) (selected : List Nat) : List Check :=
  selected.zipIdx.flatMap fun (i, place) => [
    ⟨i < n, .shardIndex i (n - 1)⟩,
    ⟨i ∉ selected.take place, .argument (.listedTwice i)⟩]

/-- The slot holds a shard, and the shard has `size` bytes. -/
def shardChecks (slots : Slots) (size i : Nat) : List Check := [
  ⟨∃ shard, slots[i]? = some (some shard), .missingShard i⟩,
  ⟨storedLength slots i = size, .shardSize size (storedLength slots i)⟩]

/-- The entries before the current one are those that have been seen. -/
theorem decides_checkIndices {n : Nat} {seen earlier : List Nat} (hseen : ∀ i, i ∈ seen ↔ i ∈ earlier)
    (l : List Nat) :
    Decides ((l.zipIdx earlier.length).flatMap fun (i, place) => [
      ⟨i < n, .shardIndex i (n - 1)⟩,
      ⟨i ∉ (earlier ++ l).take place, .argument (.listedTwice i)⟩]) (checkIndices n seen l) := by
  induction l generalizing seen earlier with
  | nil => exact Decides.nil ()
  | cons i l ih =>
    rw [List.zipIdx_cons, List.flatMap_cons]
    dsimp only
    rw [List.take_left]
    unfold checkIndices
    by_cases hi : n ≤ i
    · rw [if_pos hi]
      exact .here (Nat.not_lt.2 hi)
    have hlt : i < n := Nat.lt_of_not_le hi
    rw [if_neg hi]
    by_cases hmem : i ∈ seen
    · rw [if_pos hmem]
      exact .later hlt (.here (not_not.2 ((hseen i).1 hmem)))
    rw [if_neg hmem]
    have hhead : ∀ c ∈ [(⟨i < n, .shardIndex i (n - 1)⟩ : Check), ⟨i ∉ earlier, .argument (.listedTwice i)⟩],
        c.holds := by
      simpa using ⟨hlt, fun h => hmem ((hseen i).2 h)⟩
    have hseen' : ∀ j, j ∈ i :: seen ↔ j ∈ earlier ++ [i] := fun j => by simp [hseen, or_comm]
    have hrest := ih hseen'
    rw [List.length_append, List.length_singleton, List.append_assoc, List.singleton_append] at hrest
    have hboth : Decides _ (Except.ok () >>= fun _ => checkIndices n (i :: seen) l) :=
      Decides.bind (x := .ok ()) hhead fun _ _ => hrest
    exact hboth

theorem decides_presentShard (slots : Slots) (size i : Nat) :
    Decides (shardChecks slots size i) (presentShard slots size i) := by
  unfold presentShard shardChecks
  split
  · next shard hslot =>
    have hlength : storedLength slots i = shard.length := by rw [storedLength, hslot]; rfl
    rw [hlength]
    have hpresent : Decides [⟨∃ shard, slots[i]? = some (some shard), .missingShard i⟩]
        (.ok shard : Except CodingError _) := by
      intro c hc
      rw [List.mem_singleton.1 hc]
      exact ⟨shard, hslot⟩
    exact hpresent.bind fun _ _ => Decides.single
  · next hslot => exact .here fun hpresent => hpresent.elim hslot

namespace Code

variable {code : Code} {slots slots' : Slots} {present present' : List Nat} {dataSize shardSize : Nat}

/-- What decoding checks, in its order. -/
def decodeChecks (code : Code) (slots : Slots) (present : List Nat) (dataSize shardSize : Nat) : List Check :=
  let selected := present.take code.scheme.data
  ⟨slots.length = code.scheme.total, .shardCount code.scheme.total slots.length⟩ ::
  ⟨shardSize * code.scheme.data < wordLimit ∧ dataSize ≤ shardSize * code.scheme.data,
    .argument (.capacity shardSize code.scheme.data dataSize)⟩ ::
  ⟨code.scheme.data ≤ present.length, .insufficientShards present.length code.scheme.data⟩ ::
  (indexChecks code.scheme.total selected ++
    selected.flatMap (shardChecks slots shardSize) ++
    [⟨code.Recoverable selected, .singularMatrix⟩])

theorem decides_select (code : Code) (present : List Nat) :
    Decides (⟨code.scheme.data ≤ present.length, .insufficientShards present.length code.scheme.data⟩ ::
      indexChecks code.scheme.total (present.take code.scheme.data)) (code.select present) := by
  unfold select
  by_cases henough : present.length < code.scheme.data
  · rw [if_pos henough]
    exact .here (Nat.not_le.2 henough)
  have hindices : Decides (indexChecks code.scheme.total (present.take code.scheme.data)) _ :=
    @decides_checkIndices _ [] [] (fun _ => Iff.rfl) _
  rw [if_neg henough]
  dsimp only
  cases hcheck : checkIndices code.scheme.total [] (present.take code.scheme.data) with
  | error e =>
    rw [hcheck] at hindices
    exact .later (Nat.le_of_not_lt henough) hindices
  | ok u =>
    rw [hcheck] at hindices
    exact List.forall_mem_cons.2 ⟨Nat.le_of_not_lt henough, hindices⟩

theorem decides_inverseFor {selected : List Nat} (hlen : selected.length = code.scheme.data)
    (hlt : ∀ i ∈ selected, i < code.scheme.total) :
    Decides [⟨code.Recoverable selected, .singularMatrix⟩] (code.inverseFor selected) := by
  rcases inverseFor_cases hlen hlt with ⟨hrec, inverse, hok, -⟩ | ⟨hrec, herr⟩
  · rw [hok]
    exact fun c hc => by rwa [List.mem_singleton.1 hc]
  · rw [herr]
    exact .here hrec

/-- The checks stand in the order in which decoding makes them. -/
theorem decides_decodeShards (code : Code) (slots : Slots) (present : List Nat) (dataSize shardSize : Nat) :
    Decides (code.decodeChecks slots present dataSize shardSize)
      (code.decodeShards slots present dataSize shardSize) := by
  have hslots : Decides [⟨slots.length = code.scheme.total, .shardCount code.scheme.total slots.length⟩]
      (code.checkSlotCount slots) := Decides.single
  have hcapacity : Decides [⟨shardSize * code.scheme.data < wordLimit ∧ dataSize ≤ shardSize * code.scheme.data,
      .argument (.capacity shardSize code.scheme.data dataSize)⟩] (code.checkCapacity dataSize shardSize) :=
    Decides.of_not_iff (by omega)
  refine hslots.bind_cons fun _ _ => hcapacity.bind_cons fun _ _ => ?_
  rw [List.append_assoc, ← List.cons_append]
  refine (code.decides_select present).bind fun selected hselect => ?_
  obtain ⟨hsel, rfl⟩ := selects_of_select hselect
  exact (Decides.mapM fun i _ => decides_presentShard slots shardSize i).bind fun inputs _ =>
    (decides_inverseFor hsel.length_take hsel.lt_total).map _

theorem length_decodeShards {data : Bytes} (h : code.decodeShards slots present dataSize shardSize = .ok data) :
    data.length = dataSize := by
  obtain ⟨hslots, hword, hcapacity, hsel, inputs, hin⟩ := checks_of_decodeShards h
  obtain ⟨hcount, huniform⟩ := length_of_mem_inputs hin
  rcases decodeShards_cases hslots hword hcapacity hsel hin with ⟨-, inverse, hsolves, hok⟩ | ⟨-, herr⟩
  · obtain ⟨pieces, hsolution, hflat⟩ := hsolves shardSize inputs (hcount.trans hsel.length_take) huniform
    have hlen : pieces.flatten.length = code.scheme.data * shardSize := by
      rw [length_flatten_of_uniform hsolution.uniform, hsolution.length_eq]
    rw [hok, hflat, Except.ok.injEq] at h
    rw [← h, List.length_take, hlen, Nat.min_eq_left (by rwa [Nat.mul_comm])]
  · rw [herr] at h
    cases h

theorem mapM_presentShard_congr {selected : List Nat} (h : ∀ i ∈ selected, slots'[i]? = slots[i]?) :
    selected.mapM (presentShard slots' shardSize) = selected.mapM (presentShard slots shardSize) := by
  induction selected with
  | nil => rfl
  | cons i selected ih =>
    rw [List.mapM_cons, List.mapM_cons, ih fun j hj => h j (List.mem_cons_of_mem _ hj), presentShard, presentShard,
      h i List.mem_cons_self]

theorem select_congr (hpresent : present'.take code.scheme.data = present.take code.scheme.data) :
    code.select present' = code.select present := by
  have hmin : min code.scheme.data present'.length = min code.scheme.data present.length := by
    rw [← List.length_take, ← List.length_take, hpresent]
  by_cases henough : present.length < code.scheme.data
  · have hlength : present'.length = present.length := by omega
    rw [select, select, if_pos henough, if_pos (hlength ▸ henough), hlength]
  · rw [select, select, if_neg henough, if_neg (by omega), hpresent]

/-- The slot count, the first `k` entries and the slots that they name are all that the outcome depends on, beside the
sizes. -/
theorem decodeShards_congr (hslots : slots'.length = slots.length)
    (hpresent : present'.take code.scheme.data = present.take code.scheme.data)
    (hselected : ∀ i ∈ present.take code.scheme.data, slots'[i]? = slots[i]?) (dataSize shardSize : Nat) :
    code.decodeShards slots' present' dataSize shardSize = code.decodeShards slots present dataSize shardSize := by
  unfold decodeShards checkSlotCount
  rw [hslots, select_congr hpresent]
  congr 1
  funext _
  congr 1
  funext _
  cases hselect : code.select present with
  | error e => rfl
  | ok selected =>
    obtain ⟨-, rfl⟩ := selects_of_select hselect
    simp only [bind, Except.bind, mapM_presentShard_congr hselected]

/-- **The contract of decoding**, for any arguments whatever.

* No access fails: only a buffer that would be longer than all memory stops it, and none is asked for that is longer than
  the selected shards together.
* The first check of `decodeChecks` that fails decides the refusal.
* Where none fails, the data is as long as asked for.
* Besides the two sizes, the outcome depends on the number of slots, on the first `k` entries of `present`, fewer where
  there are fewer, and on the slots that these name. -/
theorem decode_contract (code : Code) (slots : Slots) (present : List Nat) (dataSize shardSize : Nat) :
    (∀ room, Strict.Reaches room (storedBytes slots (present.take code.scheme.data))
      (Strict.decodeShards room code slots present dataSize shardSize)
      (code.decode slots present dataSize shardSize).result) ∧
    (∀ passed c rest, code.decodeChecks slots present dataSize shardSize = passed ++ c :: rest →
      (∀ p ∈ passed, p.holds) → ¬ c.holds →
      (code.decode slots present dataSize shardSize).result = .error c.refusal) ∧
    ((∀ c ∈ code.decodeChecks slots present dataSize shardSize, c.holds) →
      ∃ data, (code.decode slots present dataSize shardSize).result = .ok data ∧ data.length = dataSize) ∧
    (∀ slots' present', slots'.length = slots.length →
      present'.take code.scheme.data = present.take code.scheme.data →
      (∀ i ∈ present.take code.scheme.data, slots'[i]? = slots[i]?) →
      (code.decode slots' present' dataSize shardSize).result =
        (code.decode slots present dataSize shardSize).result) := by
  have hdecides := code.decides_decodeShards slots present dataSize shardSize
  simp only [result_decode]
  refine ⟨fun room => Strict.decodeShards_eq room code slots present dataSize shardSize,
    fun passed c rest hsplit hpassed hc => hdecides.eq_error hsplit hpassed hc, fun hall => ?_,
    fun slots' present' hslots hpresent hselected => decodeShards_congr hslots hpresent hselected dataSize shardSize⟩
  obtain ⟨data, hok⟩ := hdecides.exists_eq_ok hall
  exact ⟨data, hok, length_decodeShards hok⟩

/-- With 2+1 shards, the capacity is refused before the entries are read, and a repeated entry before an empty slot. -/
example :
    let code := ofValid ⟨2, 1⟩ (by decide)
    code.decodeShards [some [5], none, some [7]] [1, 1] 2 (2 ^ 64 - 1) =
      .error (.argument (.capacity (2 ^ 64 - 1) 2 2)) ∧
    code.decodeShards [some [5], none, some [7]] [1, 1] 2 1 = .error (.argument (.listedTwice 1)) ∧
    code.decodeShards [some [5], none, some [7]] [0, 1] 2 1 = .error (.missingShard 1) :=
  ⟨rfl, rfl, rfl⟩

end Code

end ShardCoding
